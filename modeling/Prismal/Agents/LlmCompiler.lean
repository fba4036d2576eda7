import Prismal.Lib.Json
import Prismal.Lib.Layers
import Prismal.Lib.Lists
import Prismal.Lib.References

namespace Prismal.Agents
open Prismal.Lib Prismal.Lib.Json
set_option autoImplicit true

/-! A goal compiled into a graph of tool tasks, which are run wave by wave. -/

/-- A task of a plan. Its call waits for the tasks it depends on, and its arguments refer to their
outputs. -/
structure TaskNode where
  id : String
  description : String := ""
  tool : String
  args : Dict String Value := ∅
  dependsOn : List String := []

inductive CompilerError where
  | duplicateIds (ids : List String)
  | unknownDependency (task dep : String)
  | cycle (ids : List String)
  deriving DecidableEq, Repr

def taskIds (tasks : List TaskNode) : List String := tasks.map TaskNode.id

def taskGraph (tasks : List TaskNode) : Layers.Graph String :=
  tasks.map fun t => (t.id, t.dependsOn)

/-- `sorted(set(ids))` -/
def sortedSet (ids : List String) : List String := ids.dedup.insertionSort (· ≤ ·)

def unknownDependency (tasks : List TaskNode) : Option (String × String) :=
  (tasks.flatMap fun t => t.dependsOn.map fun dep => (t.id, dep)).find? fun e =>
    decide (e.2 ∉ taskIds tasks)

def validateDag (tasks : List TaskNode) : Except CompilerError Unit :=
  if ¬ (taskIds tasks).Nodup then
    .error (.duplicateIds (sortedSet ((taskIds tasks).filter fun i =>
      decide (1 < (taskIds tasks).count i))))
  else
    match unknownDependency tasks with
    | some (task, dep) => .error (.unknownDependency task dep)
    | none =>
      let (inDegree, processed) := Layers.topological (taskGraph tasks)
      if processed.length ≠ tasks.length then
        .error (.cycle (((taskIds tasks).filter fun i => decide (0 < inDegree i)).insertionSort
          (· ≤ ·)))
      else .ok ()

/-- `order_index` -/
def orderIndex (tasks : List TaskNode) (tid : String) : Nat :=
  ((Dict.collect (taskIds tasks).zipIdx).get? tid).getD 0

def byOrder (tasks : List TaskNode) (ready : List String) : List String :=
  ready.insertionSort fun a b => orderIndex tasks a ≤ orderIndex tasks b

def computeExecutionWaves (tasks : List TaskNode) : List (List String) :=
  let remaining := Dict.collect (taskGraph tasks)
  Layers.layers (byOrder tasks) remaining.entries.length remaining.entries

/-- The characters that `\w` matches. -/
structure WordChars where
  isWord : Char → Bool
  dollar : isWord '$' = false
  dot : isWord '.' = false

/-- `_REFERENCE_RE`: `$`, a word, and `.output` -/
def WordChars.referenceRe (words : WordChars) : Marking where
  mark := '$'
  word := words.isWord
  stop := '.'
  tail := "output".toList
  mark_not_word := words.dollar
  stop_not_word := words.dot
  mark_not_close := by decide

/-- `$tid.output` -/
def WordChars.placeholder (words : WordChars) (tid : String) : List Char :=
  words.referenceRe.literal tid.toList

namespace LlmCompiler

/-- An argument as a tool receives it: the output of a task, or a value. -/
inductive Received (ω : Type) where
  | output (o : ω)
  | value (v : Value)

/-- A call of the tool executor: the task, and the outputs there are when it is called. -/
structure Call (ω : Type) where
  task : TaskNode
  priorOutputs : Dict String ω

inductive Event (ω : Type) where
  | called (c : Call ω)
  | completed (tid : String)
  | failed (tid : String)

def Event.called? : Event ω → Option String
  | .called c => some c.task.id
  | _ => none

structure PlanRun (ω : Type) where
  outputs : Dict String ω := ∅
  succeeded : Nat := 0
  failed : Nat := 0
  log : List (Event ω) := []

variable (words : WordChars) (str : ω → String)

/-- `_sub`: a reference to a task without an output is left as it is. -/
def sub (prior : Dict String ω) : Marking.Segment → List Char
  | .chr c => [c]
  | .ref w =>
    match prior.get? (String.ofList w) with
    | some o => (str o).toList
    | none => words.referenceRe.literal w

def substitute (prior : Dict String ω) (cs : List Char) : List Char :=
  (words.referenceRe.segments cs).flatMap (sub words str prior)

/-- `_REFERENCE_RE.fullmatch(value)` -/
def fullmatch (cs : List Char) : Option String :=
  match words.referenceRe.reference cs with
  | none => none
  | some w => if words.referenceRe.literal w = cs then some (String.ofList w) else none

/-- `_interpolate_args`, for one argument. -/
def interpolateArg (prior : Dict String ω) : Value → Received ω
  | .str s =>
    match (fullmatch words s.toList).bind prior.get? with
    | some o => .output o
    | none => .value (.str (String.ofList (substitute words str prior s.toList)))
  | v => .value v

def Call.args (c : Call ω) : List (String × Received ω) :=
  c.task.args.entries.map fun e => (e.1, interpolateArg words str c.priorOutputs e.2)

variable (outcome : String → Option ω)

/-- `_run_plan`, for the outcome of a task of a wave; `none` is an exception. -/
def settle (run : PlanRun ω) (task : TaskNode) : PlanRun ω :=
  match outcome task.id with
  | none => { run with failed := run.failed + 1, log := run.log ++ [.failed task.id] }
  | some o =>
    { run with
      outputs := run.outputs.set task.id o
      succeeded := run.succeeded + 1
      log := run.log ++ [.completed task.id] }

/-- The tasks of a wave are called with the outputs of the waves before, and are settled when all
have returned. -/
def runWave (run : PlanRun ω) (wave : List TaskNode) : PlanRun ω :=
  wave.foldl (settle outcome)
    { run with log := run.log ++ wave.map fun t => .called ⟨t, run.outputs⟩ }

/-- `[by_id[tid] for tid in wave]` -/
def waveTasks (tasks : List TaskNode) (wave : List String) : List TaskNode :=
  wave.filterMap (Dict.collect (tasks.map fun t => (t.id, t))).get?

/-- `_run_plan`, where a task that is called ends as `outcome` says. -/
def runPlan (tasks : List TaskNode) : PlanRun ω :=
  ((computeExecutionWaves tasks).map (waveTasks tasks)).foldl (runWave outcome) {}

mutual

def texts : Value → List String
  | .str s => [s]
  | .list xs => textsOfItems xs
  | .dict es => textsOfEntries es
  | _ => []

def textsOfItems : List Value → List String
  | [] => []
  | v :: vs => texts v ++ textsOfItems vs

def textsOfEntries : List (Key × Value) → List String
  | [] => []
  | (_, v) :: es => texts v ++ textsOfEntries es

end

/-- An argument shows no placeholder of `tid`: wherever one stands, the output is received in its
place. -/
def Replaced (prior : Dict String ω) (tid : String) : Value → Prop
  | .str s => ∀ pre post, s.toList = pre ++ (words.placeholder tid ++ post) →
      words.referenceRe.segments s.toList =
          words.referenceRe.segments pre ++ .ref tid.toList :: words.referenceRe.segments post ∧
        ∃ o, prior.get? tid = some o ∧ interpolateArg words str prior (.str s) =
          if pre = [] ∧ post = [] then .output o
          else .value (.str (String.ofList
            (substitute words str prior pre ++
              ((str o).toList ++ substitute words str prior post))))
  | v => ∀ s ∈ texts v, ¬ words.placeholder tid <:+: s.toList

structure Sound (run : PlanRun ω) : Prop where
  ordered : AtEach (fun before e => ∀ c, e = .called c →
    ∀ dep ∈ c.task.dependsOn, .completed dep ∈ before) run.log
  once : (run.log.filterMap Event.called?).Nodup
  replaced : ∀ c, .called c ∈ run.log → ∀ dep ∈ c.task.dependsOn, ∀ e ∈ c.task.args.entries,
    Replaced words str c.priorOutputs dep e.2

def DependenciesSucceed (tasks : List TaskNode) : Prop :=
  ∀ t ∈ tasks, ∀ dep ∈ t.dependsOn, (outcome dep).isSome = true

/-- A placeholder of `tid` is one that is looked for: it is written with a word, in an argument that
is a text itself. -/
def Readable (tid : String) : Value → Prop
  | .str s => words.referenceRe.IsWord tid.toList ∨ ¬ words.placeholder tid <:+: s.toList
  | v => ∀ s ∈ texts v, ¬ words.placeholder tid <:+: s.toList

def PlaceholdersReadable (tasks : List TaskNode) : Prop :=
  ∀ t ∈ tasks, ∀ dep ∈ t.dependsOn, ∀ e ∈ t.args.entries, Readable words dep e.2

variable {words str outcome} {tasks : List TaskNode}

/-! What an accepted plan is. -/

theorem unknownDependency_eq_none :
    unknownDependency tasks = none ↔ ∀ t ∈ tasks, t.dependsOn ⊆ taskIds tasks := by
  rw [unknownDependency, List.find?_eq_none]
  apply Iff.intro
  · intro h t ht d hd
    have hmem := h (t.id, d) (List.mem_flatMap.2 ⟨t, ht, List.mem_map_of_mem hd⟩)
    rwa [decide_eq_true_eq, not_not] at hmem
  · intro h e he
    obtain ⟨t, ht, hdep⟩ := List.mem_flatMap.1 he
    obtain ⟨d, hd, rfl⟩ := List.mem_map.1 hdep
    rw [decide_eq_true_eq, not_not]
    exact h t ht hd

theorem validateDag_iff : validateDag tasks = .ok () ↔
    (taskIds tasks).Nodup ∧ (∀ t ∈ tasks, t.dependsOn ⊆ taskIds tasks) ∧
      (Layers.topological (taskGraph tasks)).2.length = tasks.length := by
  rw [← unknownDependency_eq_none, validateDag]
  by_cases hnodup : (taskIds tasks).Nodup
  · rw [if_neg (not_not.2 hnodup)]
    cases hdep : unknownDependency tasks with
    | some e => simp
    | none =>
      by_cases hlen : (Layers.topological (taskGraph tasks)).2.length = tasks.length
      · simp [hnodup, hlen]
      · simp [hlen]
  · simp [hnodup]

theorem validateDag_eq_ok (h : validateDag tasks = .ok ()) :
    (taskIds tasks).Nodup ∧ (Layers.topological (taskGraph tasks)).2.length = tasks.length := by
  obtain ⟨hnodup, -, hall⟩ := validateDag_iff.1 h
  exact ⟨hnodup, hall⟩

theorem ids_taskGraph (tasks : List TaskNode) : Layers.ids (taskGraph tasks) = taskIds tasks := by
  rw [Layers.ids, taskGraph, List.map_map]
  rfl

theorem byOrder_perm (tasks : List TaskNode) (l : List String) : (byOrder tasks l).Perm l :=
  List.perm_insertionSort _ l

theorem waves_eq (h : (taskIds tasks).Nodup) : computeExecutionWaves tasks =
    Layers.layers (byOrder tasks) (taskGraph tasks).length (taskGraph tasks) := by
  rw [← ids_taskGraph] at h
  rw [computeExecutionWaves, Dict.entries_collect h]

theorem mem_taskIds_of_mem_waves (h : (taskIds tasks).Nodup)
    (hw : wave ∈ computeExecutionWaves tasks) : wave ⊆ taskIds tasks := by
  intro tid htid
  rw [← ids_taskGraph]
  rw [waves_eq h] at hw
  exact Layers.mem_of_mem_layers (byOrder_perm tasks) hw htid

theorem mem_waves (h : validateDag tasks = .ok ()) (ht : t ∈ tasks) :
    t.id ∈ (computeExecutionWaves tasks).flatten := by
  obtain ⟨hnodup, hall⟩ := validateDag_eq_ok h
  have hlen : (taskGraph tasks).length = tasks.length := List.length_map _
  have hranked := Layers.ranked_of_topological (g := taskGraph tasks)
    (by rw [ids_taskGraph]; exact hnodup) (by rw [hall, hlen])
  rw [waves_eq hnodup]
  apply hranked.mem_layers (byOrder_perm tasks) (Nat.le_refl _)
  rw [ids_taskGraph]
  exact List.mem_map_of_mem ht

theorem mem_waveTasks (h : (taskIds tasks).Nodup) :
    t ∈ waveTasks tasks wave ↔ t ∈ tasks ∧ t.id ∈ wave := by
  have hkeys : ((tasks.map fun t => (t.id, t)).map Prod.fst).Nodup := by
    rw [List.map_map]
    exact h
  rw [waveTasks, List.mem_filterMap]
  constructor
  · rintro ⟨tid, htid, hget⟩
    obtain ⟨u, hu, heq⟩ := List.mem_map.1 (Dict.mem_of_get?_collect hget)
    cases heq
    exact ⟨hu, htid⟩
  · rintro ⟨ht, hw⟩
    exact ⟨t.id, hw, Dict.get?_collect hkeys (List.mem_map.2 ⟨t, ht, rfl⟩)⟩

theorem ids_waveTasks (h : (taskIds tasks).Nodup) (hw : wave ⊆ taskIds tasks) :
    taskIds (waveTasks tasks wave) = wave := by
  induction wave with
  | nil => rfl
  | cons tid wave ih =>
    obtain ⟨hhead, htail⟩ := List.cons_subset.1 hw
    obtain ⟨t, ht, rfl⟩ := List.mem_map.1 hhead
    have hkeys : ((tasks.map fun t => (t.id, t)).map Prod.fst).Nodup := by
      rw [List.map_map]
      exact h
    have hget := Dict.get?_collect hkeys (List.mem_map.2 ⟨t, ht, rfl⟩)
    rw [waveTasks, List.filterMap_cons_some hget, taskIds, List.map_cons, ← taskIds]
    exact congrArg _ (ih htail)

/-! What a call receives. -/

theorem fullmatch_literal (hw : words.referenceRe.IsWord w) (pre post : List Char) :
    fullmatch words (pre ++ (words.referenceRe.literal w ++ post)) =
      if pre = [] ∧ post = [] then some (String.ofList w) else none := by
  have href : words.referenceRe.reference (words.referenceRe.literal w ++ post) = some w :=
    Marking.reference_eq_some.2 ⟨hw, List.prefix_append _ _⟩
  rw [fullmatch]
  cases pre with
  | nil =>
    rw [List.nil_append, href]
    dsimp only
    cases post with
    | nil => rw [List.append_nil, if_pos rfl, if_pos ⟨rfl, rfl⟩]
    | cons c post =>
      have hne : words.referenceRe.literal w ≠ words.referenceRe.literal w ++ c :: post := by simp
      rw [if_neg hne, if_neg (fun h => List.cons_ne_nil c post h.2)]
  | cons c pre =>
    rw [if_neg (fun h => List.cons_ne_nil c pre h.1)]
    split
    · rfl
    · next v hv =>
      have hpre := Marking.reference_eq_some.1
        ((Marking.reference_append (List.cons_ne_nil c pre) w post).symm.trans hv)
      rw [if_neg]
      intro heq
      have hlen := hpre.2.length_le
      rw [heq, List.length_append, List.length_append] at hlen
      have hpos : 0 < (words.referenceRe.literal w).length := Nat.succ_pos _
      omega

theorem interpolateArg_placeholder (hw : words.referenceRe.IsWord tid.toList)
    {prior : Dict String ω} (ho : prior.get? tid = some o)
    (hs : s.toList = pre ++ (words.placeholder tid ++ post)) :
    interpolateArg words str prior (.str s) =
      if pre = [] ∧ post = [] then .output o
      else .value (.str (String.ofList
        (substitute words str prior pre ++
          ((str o).toList ++ substitute words str prior post)))) := by
  rw [WordChars.placeholder] at hs
  rw [interpolateArg, hs, fullmatch_literal hw]
  by_cases hwhole : pre = [] ∧ post = []
  · rw [if_pos hwhole, if_pos hwhole, Option.bind_some, String.ofList_toList, ho]
  · rw [if_neg hwhole, if_neg hwhole, Option.bind_none]
    dsimp only
    rw [substitute, Marking.segments_literal hw, List.flatMap_append, List.flatMap_cons, sub,
      String.ofList_toList, ho]
    rfl

theorem replaced_of_readable {prior : Dict String ω} (hd : tid ∈ prior)
    (h : Readable words tid v) : Replaced words str prior tid v := by
  cases v with
  | str s =>
    intro pre post hs
    rcases h with hword | habsent
    · obtain ⟨o, ho⟩ := Dict.mem_iff_get?.1 hd
      refine ⟨?_, o, ho, interpolateArg_placeholder hword ho hs⟩
      rw [hs, WordChars.placeholder, Marking.segments_literal hword]
    · refine absurd ⟨pre, post, ?_⟩ habsent
      rw [hs, List.append_assoc]
  | null => exact h
  | bool b => exact h
  | num t => exact h
  | list xs => exact h
  | dict es => exact h

theorem readable_of_replaced {prior : Dict String ω} (h : Replaced words str prior tid v) :
    Readable words tid v := by
  cases v with
  | str s =>
    rw [Readable, or_iff_not_imp_right, not_not]
    rintro ⟨pre, post, hs⟩
    rw [List.append_assoc] at hs
    apply Marking.isWord_of_mem_segments s.toList
    rw [(h pre post hs.symm).1]
    exact List.mem_append_right _ List.mem_cons_self
  | null => exact h
  | bool b => exact h
  | num t => exact h
  | list xs => exact h
  | dict es => exact h

/-! The waves of a run. -/

def settled (outcome : String → Option ω) (t : TaskNode) : Event ω :=
  match outcome t.id with
  | none => .failed t.id
  | some _ => .completed t.id

theorem log_settle (run : PlanRun ω) (t : TaskNode) :
    (settle outcome run t).log = run.log ++ [settled outcome t] := by
  rw [settle, settled]
  split <;> rfl

theorem log_foldl_settle (run : PlanRun ω) (wave : List TaskNode) :
    (wave.foldl (settle outcome) run).log = run.log ++ wave.map (settled outcome) := by
  induction wave generalizing run with
  | nil => exact (List.append_nil _).symm
  | cons t wave ih => rw [List.foldl_cons, ih, log_settle, List.append_assoc, List.map_cons]; rfl

theorem log_runWave (run : PlanRun ω) (wave : List TaskNode) :
    (runWave outcome run wave).log =
      run.log ++ (wave.map fun t => .called ⟨t, run.outputs⟩) ++ wave.map (settled outcome) :=
  log_foldl_settle _ _

theorem mem_outputs_settle (run : PlanRun ω) (t : TaskNode) :
    tid ∈ (settle outcome run t).outputs ↔
      tid ∈ run.outputs ∨ settled outcome t = .completed tid := by
  rw [settle, settled]
  split
  · simp
  · rw [Dict.mem_set, Event.completed.injEq, eq_comm, or_comm]

theorem mem_outputs_foldl_settle (run : PlanRun ω) (wave : List TaskNode) :
    tid ∈ (wave.foldl (settle outcome) run).outputs ↔
      tid ∈ run.outputs ∨ .completed tid ∈ wave.map (settled outcome) := by
  induction wave generalizing run with
  | nil => simp
  | cons t wave ih =>
    rw [List.foldl_cons, ih, mem_outputs_settle, List.map_cons, List.mem_cons, or_assoc, eq_comm]

theorem settled_eq_completed : settled outcome t = .completed tid ↔
    t.id = tid ∧ (outcome tid).isSome = true := by
  rw [settled]
  cases ho : outcome t.id with
  | none =>
    constructor
    · intro h
      cases h
    · rintro ⟨rfl, h⟩
      rw [ho] at h
      cases h
  | some o =>
    constructor
    · intro h
      cases h
      exact ⟨rfl, by rw [ho]; rfl⟩
    · rintro ⟨rfl, -⟩
      rfl

/-- What a run that has gone through the tasks `done` is like. -/
structure Progress (outcome : String → Option ω) (done : List TaskNode) (run : PlanRun ω) :
    Prop where
  called : run.log.filterMap Event.called? = taskIds done
  calls : ∀ t, t ∈ done ↔ ∃ prior, .called ⟨t, prior⟩ ∈ run.log
  succeeded : ∀ t ∈ done, (outcome t.id).isSome = true → .completed t.id ∈ run.log
  honest : ∀ tid, .completed tid ∈ run.log → (outcome tid).isSome = true
  recorded : ∀ tid, tid ∈ run.outputs ↔ .completed tid ∈ run.log
  informed : AtEach (fun before e => ∀ c, e = .called c →
    ∀ tid, .completed tid ∈ before → tid ∈ c.priorOutputs) run.log

theorem progress_nil : Progress outcome [] ({} : PlanRun ω) where
  called := rfl
  calls t := by
    constructor
    · intro h
      exact absurd h List.not_mem_nil
    · rintro ⟨prior, h⟩
      exact absurd h List.not_mem_nil
  succeeded t ht := absurd ht List.not_mem_nil
  honest tid h := absurd h List.not_mem_nil
  recorded tid := by
    constructor
    · intro h
      exact absurd h Dict.not_mem_empty
    · intro h
      exact absurd h List.not_mem_nil
  informed := atEach_nil

theorem called_settled (wave : List TaskNode) :
    (wave.map (settled outcome)).filterMap Event.called? = [] := by
  rw [List.filterMap_eq_nil_iff]
  intro e he
  obtain ⟨t, -, rfl⟩ := List.mem_map.1 he
  rw [settled]
  split <;> rfl

theorem called_calls (prior : Dict String ω) (wave : List TaskNode) :
    (wave.map fun t => Event.called ⟨t, prior⟩).filterMap Event.called? = taskIds wave := by
  rw [List.filterMap_map, taskIds, ← List.filterMap_eq_map]
  rfl

theorem completed_mem_runWave (run : PlanRun ω) (wave : List TaskNode) :
    .completed tid ∈ (runWave outcome run wave).log ↔
      .completed tid ∈ run.log ∨ .completed tid ∈ wave.map (settled outcome) := by
  rw [log_runWave, List.mem_append, List.mem_append]
  have hcalls : (.completed tid : Event ω) ∉ wave.map fun t => .called ⟨t, run.outputs⟩ := by
    intro h
    obtain ⟨t, -, ht⟩ := List.mem_map.1 h
    cases ht
  simp only [hcalls, or_false]

theorem called_mem_runWave (run : PlanRun ω) (wave : List TaskNode) :
    .called c ∈ (runWave outcome run wave).log ↔
      .called c ∈ run.log ∨ ∃ t ∈ wave, c = ⟨t, run.outputs⟩ := by
  rw [log_runWave, List.mem_append, List.mem_append]
  have hsettled : .called c ∉ wave.map (settled outcome) := by
    intro h
    obtain ⟨t, -, ht⟩ := List.mem_map.1 h
    rw [settled] at ht
    split at ht <;> cases ht
  simp only [hsettled, or_false, List.mem_map, Event.called.injEq, eq_comm]

theorem atEach_runWave {P : List (Event ω) → Call ω → Prop} {run : PlanRun ω}
    (h : AtEach (fun before e => ∀ c, e = .called c → P before c) run.log)
    (hw : ∀ t ∈ wave, P run.log ⟨t, run.outputs⟩)
    (hmono : ∀ before e c, (∀ tid, e ≠ .completed tid) → P before c → P (before ++ [e]) c) :
    AtEach (fun before e => ∀ c, e = .called c → P before c) (runWave outcome run wave).log := by
  have hsettled : ∀ e ∈ wave.map (settled outcome), ∀ c, e ≠ .called c := by
    intro e he c hc
    obtain ⟨t, -, rfl⟩ := List.mem_map.1 he
    rw [settled] at hc
    split at hc <;> cases hc
  rw [log_runWave]
  apply AtEach.append
  · apply h.append
    · intro e he c hc
      obtain ⟨t, ht, rfl⟩ := List.mem_map.1 he
      cases hc
      exact hw t ht
    · apply List.pairwise_of_forall_mem_list
      intro b hb e _ before he c hc
      apply hmono before b c _ (he c hc)
      obtain ⟨t, -, rfl⟩ := List.mem_map.1 hb
      intro tid htid
      cases htid
  · intro e he c hc
    exact absurd hc (hsettled e he c)
  · apply List.pairwise_of_forall_mem_list
    intro b _ e he before _ c hc
    exact absurd hc (hsettled e he c)

theorem Progress.runWave (h : Progress outcome done run) (wave : List TaskNode) :
    Progress outcome (done ++ wave) (LlmCompiler.runWave outcome run wave) where
  called := by
    rw [log_runWave, List.filterMap_append, List.filterMap_append, called_settled, called_calls,
      h.called, List.append_nil, taskIds, taskIds, taskIds, List.map_append]
  calls t := by
    simp only [called_mem_runWave, List.mem_append, h.calls t, exists_or, Call.mk.injEq]
    apply or_congr Iff.rfl
    constructor
    · intro ht
      exact ⟨_, t, ht, rfl, rfl⟩
    · rintro ⟨prior, u, hu, rfl, -⟩
      exact hu
  succeeded t ht ho := by
    rw [completed_mem_runWave]
    rcases List.mem_append.1 ht with ht | ht
    · exact Or.inl (h.succeeded t ht ho)
    · exact Or.inr (List.mem_map.2 ⟨t, ht, settled_eq_completed.2 ⟨rfl, ho⟩⟩)
  honest tid htid := by
    rcases (completed_mem_runWave run wave).1 htid with htid | htid
    · exact h.honest tid htid
    · obtain ⟨t, -, ht⟩ := List.mem_map.1 htid
      exact (settled_eq_completed.1 ht).2
  recorded tid := by
    rw [completed_mem_runWave, LlmCompiler.runWave, mem_outputs_foldl_settle]
    exact or_congr (h.recorded tid) Iff.rfl
  informed := by
    apply atEach_runWave h.informed
    · intro t _ tid htid
      exact (h.recorded tid).2 htid
    · intro before e c he hc tid htid
      rcases List.mem_append.1 htid with htid | htid
      · exact hc tid htid
      · exact absurd (List.mem_singleton.1 htid).symm (he tid)

theorem progress_foldl (outcome : String → Option ω) (waves : List (List TaskNode)) :
    Progress outcome waves.flatten (waves.foldl (LlmCompiler.runWave outcome) {}) := by
  induction waves using List.reverseRecOn with
  | nil => exact progress_nil
  | append_singleton waves wave ih =>
    rw [List.foldl_append, List.flatten_append, List.flatten_singleton]
    exact ih.runWave wave

theorem ordered_foldl (hnodup : (taskIds tasks).Nodup)
    (hdeps : DependenciesSucceed outcome tasks)
    (hw : computeExecutionWaves tasks = front ++ back) :
    AtEach (fun before e => ∀ c, e = .called c →
        ∀ dep ∈ c.task.dependsOn, .completed dep ∈ before)
      ((front.map (waveTasks tasks)).foldl (runWave outcome) {}).log := by
  induction front using List.reverseRecOn generalizing back with
  | nil => exact atEach_nil
  | append_singleton front wave ih =>
    rw [List.append_assoc, List.singleton_append] at hw
    rw [List.map_append, List.map_singleton, List.foldl_append, List.foldl_cons, List.foldl_nil]
    apply atEach_runWave (P := fun before c => ∀ dep ∈ c.task.dependsOn, .completed dep ∈ before)
      (ih hw)
    · intro t ht dep hdep
      obtain ⟨htask, hwave⟩ := (mem_waveTasks hnodup).1 ht
      have hids : (Layers.ids (taskGraph tasks)).Nodup := by
        rw [ids_taskGraph]
        exact hnodup
      rw [waves_eq hnodup] at hw
      have hbefore := Layers.layers_ordered (byOrder_perm tasks) hids hw hwave
        (List.mem_map.2 ⟨t, htask, rfl⟩) hdep
      obtain ⟨w, hwmem, hdepw⟩ := List.mem_flatten.1 hbefore
      have hknown : dep ∈ taskIds tasks := by
        apply mem_taskIds_of_mem_waves hnodup _ hdepw
        rw [waves_eq hnodup, hw]
        exact List.mem_append_left _ hwmem
      obtain ⟨u, hu, rfl⟩ := List.mem_map.1 hknown
      apply (progress_foldl _ (front.map (waveTasks tasks))).succeeded u
      · exact List.mem_flatten.2
          ⟨_, List.mem_map_of_mem hwmem, (mem_waveTasks hnodup).2 ⟨hu, hdepw⟩⟩
      · exact hdeps t htask _ hdep
    · intro before e c _ h dep hdep
      exact List.mem_append_left _ (h dep hdep)

theorem called_runPlan (h : (taskIds tasks).Nodup) :
    (runPlan outcome tasks).log.filterMap Event.called? =
      (computeExecutionWaves tasks).flatten := by
  rw [runPlan, (progress_foldl _ _).called, taskIds, List.map_flatten, List.map_map]
  have hids : (computeExecutionWaves tasks).map (List.map TaskNode.id ∘ waveTasks tasks) =
      (computeExecutionWaves tasks).map id :=
    List.map_congr_left fun wave hw => ids_waveTasks h (mem_taskIds_of_mem_waves h hw)
  rw [hids, List.map_id]

theorem mem_tasks_of_called (outcome : String → Option ω) (h : validateDag tasks = .ok ()) :
    t ∈ tasks ↔ ∃ prior, .called ⟨t, prior⟩ ∈ (runPlan outcome tasks).log := by
  have hnodup := (validateDag_eq_ok h).1
  rw [runPlan, ← (progress_foldl outcome _).calls t, List.mem_flatten]
  constructor
  · intro ht
    obtain ⟨wave, hw, htw⟩ := List.mem_flatten.1 (mem_waves h ht)
    exact ⟨_, List.mem_map_of_mem hw, (mem_waveTasks hnodup).2 ⟨ht, htw⟩⟩
  · rintro ⟨wave, hw, ht⟩
    obtain ⟨ids, -, rfl⟩ := List.mem_map.1 hw
    exact ((mem_waveTasks hnodup).1 ht).1

/-- A run of an accepted plan is sound exactly when no task that another one depends on fails and
every placeholder of a dependency is one that is looked for. -/
theorem runPlan_sound_iff (words : WordChars) (str : ω → String) (outcome : String → Option ω)
    (h : validateDag tasks = .ok ()) :
    Sound words str (runPlan outcome tasks) ↔
      DependenciesSucceed outcome tasks ∧ PlaceholdersReadable words tasks := by
  have hnodup := (validateDag_eq_ok h).1
  have hprogress := progress_foldl outcome
    ((computeExecutionWaves tasks).map (waveTasks tasks))
  constructor
  · intro hsound
    refine ⟨?_, ?_⟩
    · intro t ht dep hdep
      obtain ⟨prior, hcall⟩ := (mem_tasks_of_called outcome h).1 ht
      obtain ⟨before, after, hlog⟩ := List.append_of_mem hcall
      apply hprogress.honest
      have hbefore := hsound.ordered before _ after hlog _ rfl dep hdep
      rw [← runPlan, hlog]
      exact List.mem_append_left _ hbefore
    · intro t ht dep hdep e he
      obtain ⟨prior, hcall⟩ := (mem_tasks_of_called outcome h).1 ht
      exact readable_of_replaced (hsound.replaced _ hcall dep hdep e he)
  · rintro ⟨hdeps, hreadable⟩
    have hordered := ordered_foldl hnodup hdeps (List.append_nil _).symm
    refine ⟨hordered, ?_, ?_⟩
    · rw [called_runPlan hnodup, waves_eq hnodup]
      apply Layers.nodup_layers (byOrder_perm tasks)
      rw [ids_taskGraph]
      exact hnodup
    · intro c hc dep hdep e he
      have htask := (mem_tasks_of_called outcome h).2 ⟨_, hc⟩
      obtain ⟨before, after, hlog⟩ := List.append_of_mem hc
      have hbefore := hordered before _ after hlog c rfl dep hdep
      have hprior := hprogress.informed before _ after hlog c rfl dep hbefore
      exact replaced_of_readable hprior (hreadable _ htask dep hdep e he)

def asciiWords : WordChars where
  isWord c := c.isAlphanum || c == '_'
  dollar := by decide
  dot := by decide

def searchTask : TaskNode := { id := "T1", tool := "search" }

def reportTask : TaskNode where
  id := "T2"
  tool := "report"
  args := Dict.collect [("text", .str "Found: $T1.output")]
  dependsOn := ["T1"]

theorem runPlan_sound_report :
    Sound asciiWords id (runPlan (fun _ => some "3 papers") [searchTask, reportTask]) := by
  apply (runPlan_sound_iff asciiWords id (fun _ => some "3 papers") (by decide)).2
  constructor
  · intro t _ dep _
    rfl
  · intro t ht dep hdep e he
    rcases List.mem_pair.1 ht with rfl | rfl
    · cases hdep
    · cases List.mem_singleton.1 hdep
      cases List.mem_singleton.1 he
      exact Or.inl ⟨by decide, List.all_eq_true.1 (by decide)⟩

def failedSearch (tid : String) : Option String := if tid = "T1" then none else some "done"

/-- A task is called although the one it depends on has failed, and receives the placeholder. -/
theorem called_after_failure :
    validateDag [searchTask, reportTask] = .ok () ∧
      (runPlan failedSearch [searchTask, reportTask]).log =
        [.called ⟨searchTask, ∅⟩, .failed "T1", .called ⟨reportTask, ∅⟩, .completed "T2"] ∧
      Call.args asciiWords id ⟨reportTask, ∅⟩ =
        [("text", .value (.str "Found: $T1.output"))] ∧
      ¬ Sound asciiWords id (runPlan failedSearch [searchTask, reportTask]) := by
  have hlog : (runPlan failedSearch [searchTask, reportTask]).log =
      [.called ⟨searchTask, ∅⟩, .failed "T1", .called ⟨reportTask, ∅⟩, .completed "T2"] := by
    rfl
  refine ⟨by decide, hlog, by rfl, ?_⟩
  intro h
  have hbefore := h.ordered [.called ⟨searchTask, ∅⟩, .failed "T1"] (.called ⟨reportTask, ∅⟩)
    [.completed "T2"] hlog _ rfl "T1" List.mem_cons_self
  simp at hbefore

end LlmCompiler

end Prismal.Agents
