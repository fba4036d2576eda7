import Prismal.Agents.LlmCompiler

namespace Prismal.Routing
open Prismal.Lib Prismal.Lib.Json Prismal.Agents
set_option autoImplicit true

/-! Which plans `validate_plan` accepts, and what the compiler makes of them. -/

mutual

def ofTree : Tree → Value
  | .null => .null
  | .bool b => .bool b
  | .num t => .num t
  | .str s => .str s
  | .arr xs => .list (ofItems xs)
  | .obj es => .dict (Dict.collect (ofEntries es)).entries

def ofItems : List Tree → List Value
  | [] => []
  | x :: xs => ofTree x :: ofItems xs

def ofEntries : List (String × Tree) → List (Key × Value)
  | [] => []
  | (k, t) :: es => (.str k, ofTree t) :: ofEntries es

end

namespace PlanValidation

/-- `str(value)` of a value that is no string, and `dict(value)` of a list. -/
structure Coercions where
  text : Tree → String
  pairs : List Tree → Option (Dict String Value)

/-- `str(value)` -/
def Coercions.str (c : Coercions) : Tree → String
  | .str s => s
  | t => c.text t

/-- `dict(value)`; `none`: it raises. -/
def Coercions.dict (c : Coercions) : Tree → Option (Dict String Value)
  | .obj es => some (Dict.collect (es.map fun e => (e.1, ofTree e.2)))
  | .arr xs => c.pairs xs
  | .str s => if s = "" then some ∅ else none
  | _ => none

/-- The elements of `for x in value`; `none`: it raises. -/
def elements : Tree → Option (List Tree)
  | .arr xs => some xs
  | .str s => some (s.toList.map fun ch => .str (String.singleton ch))
  | .obj es => some ((Dict.collect es).keys.map .str)
  | _ => none

def isStr : Tree → Bool
  | .str _ => true
  | _ => false

def isDict : Tree → Bool
  | .obj _ => true
  | _ => false

def areStrs : Tree → Bool
  | .arr ds => ds.all isStr
  | _ => false

abbrev Fields := Dict String Tree

/-- `fields.get(name, default)` -/
def field (fields : Fields) (name : String) (default : Tree) : Tree :=
  (fields.get? name).getD default

/-- The fields that `_task_list` checks. -/
def wellTyped (fields : Fields) : Bool :=
  (fields.get? "id").any isStr && (fields.get? "tool").any isStr &&
    isDict (field fields "args" (.obj [])) && areStrs (field fields "depends_on" (.arr []))

def taskFields : Tree → Option Fields
  | .obj es => if wellTyped (Dict.collect es) then some (Dict.collect es) else none
  | _ => none

/-- `_task_list` -/
def taskList (plan : Fields) : Option (List Fields) :=
  match plan.get? "tasks" with
  | some (.arr []) => none
  | some (.arr tasks) => tasks.mapM taskFields
  | _ => none

/-- `_deps` -/
def deps (c : Coercions) (task : Fields) : List String :=
  match field task "depends_on" (.arr []) with
  | .arr ds => ds.map c.str
  | _ => []

/-- `str(task["id"])`; `_task_list` has seen to it that there is one. -/
def taskId (c : Coercions) (task : Fields) : String := (task.get? "id").elim "" c.str

def planGraph (c : Coercions) (tasks : List Fields) : Layers.Graph String :=
  tasks.map fun t => (taskId c t, deps c t)

def validatePlan (c : Coercions) (plan : Fields) : Bool :=
  match taskList plan with
  | none => false
  | some tasks =>
    let g := planGraph c tasks
    if ¬ (Layers.ids g).Nodup then false
    else if g.any fun e => e.2.any fun d => decide (d ∉ Layers.ids g) then false
    else decide ((Layers.topological g).2.length = (Layers.ids g).length)

structure CompilerPlan where
  tasks : List TaskNode
  executionWaves : List (List String)
  goal : String

def rebuildTask (c : Coercions) : Tree → Option TaskNode
  | .obj es => do
    let t := Dict.collect es
    let tid ← t.get? "id"
    let tool ← t.get? "tool"
    let args ← c.dict (field t "args" (.obj []))
    let ds ← elements (field t "depends_on" (.arr []))
    some { id := c.str tid, description := c.str (field t "description" (.str "")),
           tool := c.str tool, args := args, dependsOn := ds.map c.str }
  | _ => none

/-- The plan that `_plan_from_cache` builds and validates; `none`: it raises before. -/
def rebuild (c : Coercions) (plan : Fields) (goal : String) : Option CompilerPlan := do
  let ts ← (plan.get? "tasks").bind elements
  let tasks ← ts.mapM (rebuildTask c)
  some ⟨tasks, computeExecutionWaves tasks, goal⟩

/-- A well-formed task, with its id and what it depends on. -/
inductive IsTask : Tree → String × List String → Prop
  | mk {es args : List (String × Tree)} {tid tool : String} {ds : List String}
      (hid : (Dict.collect es).get? "id" = some (.str tid))
      (htool : (Dict.collect es).get? "tool" = some (.str tool))
      (hargs : field (Dict.collect es) "args" (.obj []) = .obj args)
      (hdeps : field (Dict.collect es) "depends_on" (.arr []) = .arr (ds.map .str)) :
      IsTask (.obj es) (tid, ds)

/-- The ids are unique, every dependency is a task, and there is a topological order. -/
structure Acyclic (g : Layers.Graph String) : Prop where
  unique : (Layers.ids g).Nodup
  known : ∀ e ∈ g, e.2 ⊆ Layers.ids g
  order : ∃ order, order.Perm (Layers.ids g) ∧ Layers.Sorted g order

/-- Every task is in one wave, after all that it depends on. -/
structure Scheduled (tasks : List TaskNode) (waves : List (List String)) : Prop where
  once : waves.flatten.Perm (taskIds tasks) ∧ waves.flatten.Nodup
  after : ∀ front wave back, waves = front ++ wave :: back → ∀ t ∈ tasks, t.id ∈ wave →
    t.dependsOn ⊆ front.flatten

/-! The checks of `validate_plan`, one by one. -/

theorem any_isStr {o : Option Tree} : o.any isStr = true ↔ ∃ s, o = some (.str s) := by
  cases o with
  | none => simp
  | some t => cases t <;> simp [isStr]

theorem isDict_iff : isDict t = true ↔ ∃ es, t = .obj es := by
  cases t <;> simp [isDict]

theorem all_isStr {ts : List Tree} : ts.all isStr = true ↔ ∃ ss : List String, ts = ss.map .str := by
  induction ts with
  | nil => exact ⟨fun _ => ⟨[], rfl⟩, fun _ => rfl⟩
  | cons t ts ih =>
    rw [List.all_cons, Bool.and_eq_true, ih]
    apply Iff.intro
    · rintro ⟨ht, ss, rfl⟩
      cases t with
      | str s => exact ⟨s :: ss, rfl⟩
      | _ => cases ht
    · rintro ⟨ss, hss⟩
      cases ss with
      | nil => cases hss
      | cons s ss =>
        cases hss
        exact ⟨rfl, ss, rfl⟩

theorem areStrs_iff : areStrs t = true ↔ ∃ ss : List String, t = .arr (ss.map .str) := by
  cases t with
  | arr ts => rw [areStrs, all_isStr]; simp
  | _ => simp [areStrs]

theorem wellTyped_iff {fields : Fields} : wellTyped fields = true ↔
    (∃ tid, fields.get? "id" = some (.str tid)) ∧ (∃ tool, fields.get? "tool" = some (.str tool)) ∧
      (∃ args, field fields "args" (.obj []) = .obj args) ∧
      ∃ ds : List String, field fields "depends_on" (.arr []) = .arr (ds.map .str) := by
  rw [wellTyped, Bool.and_eq_true, Bool.and_eq_true, Bool.and_eq_true, any_isStr, any_isStr,
    isDict_iff, areStrs_iff, and_assoc, and_assoc]

variable {c : Coercions}

theorem map_str (ds : List String) : (ds.map Tree.str).map c.str = ds := by
  rw [List.map_map]
  exact List.map_id ds

theorem taskId_eq {task : Fields} (h : task.get? "id" = some (.str tid)) : taskId c task = tid := by
  rw [taskId, h]
  rfl

theorem deps_eq {task : Fields} (h : field task "depends_on" (.arr []) = .arr (ds.map .str)) :
    deps c task = ds := by
  rw [deps, h]
  exact map_str ds

theorem isTask_iff (c : Coercions) : IsTask t e ↔
    ∃ fields, taskFields t = some fields ∧ (taskId c fields, deps c fields) = e := by
  apply Iff.intro
  · intro h
    cases h with
    | mk hid htool hargs hdeps =>
      refine ⟨_, if_pos (wellTyped_iff.2 ⟨⟨_, hid⟩, ⟨_, htool⟩, ⟨_, hargs⟩, _, hdeps⟩), ?_⟩
      rw [taskId_eq hid, deps_eq hdeps]
  · rintro ⟨fields, h, rfl⟩
    cases t with
    | obj es =>
      obtain ⟨hwell, heq⟩ := Option.ite_none_right_eq_some.1 h
      cases heq
      obtain ⟨⟨tid, hid⟩, ⟨tool, htool⟩, ⟨args, hargs⟩, ds, hdeps⟩ := wellTyped_iff.1 hwell
      rw [taskId_eq hid, deps_eq hdeps]
      exact .mk hid htool hargs hdeps
    | _ => cases h

theorem taskList_eq {plan : Fields} (h : plan.get? "tasks" = some (.arr tasks)) (hne : tasks ≠ []) :
    taskList plan = tasks.mapM taskFields := by
  rw [taskList, h]
  cases tasks with
  | nil => exact absurd rfl hne
  | cons t tasks => rfl

theorem isTasks_iff (c : Coercions) {tasks : List Tree} : List.Forall₂ IsTask tasks g ↔
    ∃ fields, tasks.mapM taskFields = some fields ∧ planGraph c fields = g := by
  induction tasks generalizing g with
  | nil =>
    rw [List.forall₂_nil_left_iff]
    apply Iff.intro
    · rintro rfl
      exact ⟨[], rfl, rfl⟩
    · rintro ⟨fields, hfields, rfl⟩
      cases hfields
      rfl
  | cons t tasks ih =>
    rw [List.forall₂_cons_left_iff]
    apply Iff.intro
    · rintro ⟨e, g, ht, htasks, rfl⟩
      obtain ⟨f, hf, rfl⟩ := (isTask_iff c).1 ht
      obtain ⟨fs, hfs, rfl⟩ := ih.1 htasks
      exact ⟨f :: fs, mapM_eq_some.2 (.cons hf (mapM_eq_some.1 hfs)), rfl⟩
    · rintro ⟨fields, hfields, rfl⟩
      cases mapM_eq_some.1 hfields with
      | cons hf hfs =>
        exact ⟨_, _, (isTask_iff c).2 ⟨_, hf, rfl⟩, ih.2 ⟨_, mapM_eq_some.2 hfs, rfl⟩, rfl⟩

theorem any_unknown {g : Layers.Graph String} :
    (g.any fun e => e.2.any fun d => decide (d ∉ Layers.ids g)) = false ↔
      ∀ e ∈ g, e.2 ⊆ Layers.ids g := by
  simp only [List.any_eq_false, List.any_eq_true, not_exists, not_and, decide_eq_true_eq, not_not]
  rfl

theorem acyclic_iff {g : Layers.Graph String} : Acyclic g ↔
    (Layers.ids g).Nodup ∧ (∀ e ∈ g, e.2 ⊆ Layers.ids g) ∧
      (Layers.topological g).2.length = g.length := by
  apply Iff.intro
  · intro h
    exact ⟨h.unique, h.known, (Layers.topological_all_iff h.unique).2 h.order⟩
  · rintro ⟨hunique, hknown, hall⟩
    exact ⟨hunique, hknown, (Layers.topological_all_iff hunique).1 hall⟩

theorem validatePlan_eq {plan : Fields} (h : taskList plan = some fields) :
    validatePlan c plan = true ↔ Acyclic (planGraph c fields) := by
  have hlen : (Layers.ids (planGraph c fields)).length = (planGraph c fields).length :=
    List.length_map _
  rw [validatePlan, h, acyclic_iff, ← any_unknown]
  dsimp only
  rw [hlen]
  split
  · next hdup => exact iff_of_false Bool.false_ne_true fun hall => hdup hall.1
  · next hunique =>
    split
    · next hunknown =>
      exact iff_of_false Bool.false_ne_true fun hall => Bool.false_ne_true (hall.2.1 ▸ hunknown)
    · next hknown =>
      rw [decide_eq_true_eq]
      exact ⟨fun hall => ⟨not_not.1 hunique, Bool.eq_false_iff.2 hknown, hall⟩, fun hall => hall.2.2⟩

/-! The plan rebuilt from a well-formed one. -/

theorem rebuildTask_of_isTask (c : Coercions) (h : IsTask t e) :
    ∃ node, rebuildTask c t = some node ∧ (node.id, node.dependsOn) = e := by
  cases h with
  | @mk es args tid tool ds hid htool hargs hdeps =>
    have hstr := map_str (c := c) ds
    refine ⟨{ id := tid, description := c.str (field (Dict.collect es) "description" (.str "")),
              tool := tool, args := Dict.collect (args.map fun e => (e.1, ofTree e.2)),
              dependsOn := ds }, ?_, rfl⟩
    rw [rebuildTask, hid, htool, hargs, hdeps]
    exact congrArg some (by rw [hstr]; rfl)

theorem rebuild_of_isTasks (c : Coercions) {tasks : List Tree} (h : List.Forall₂ IsTask tasks g) :
    ∃ nodes, tasks.mapM (rebuildTask c) = some nodes ∧ taskGraph nodes = g := by
  induction h with
  | nil => exact ⟨[], rfl, rfl⟩
  | cons ht _ ih =>
    obtain ⟨node, hnode, rfl⟩ := rebuildTask_of_isTask c ht
    obtain ⟨nodes, hnodes, rfl⟩ := ih
    exact ⟨node :: nodes, mapM_eq_some.2 (.cons hnode (mapM_eq_some.1 hnodes)), rfl⟩

theorem validateDag_acyclic (nodes : List TaskNode) :
    validateDag nodes = .ok () ↔ Acyclic (taskGraph nodes) := by
  have hlen : (taskGraph nodes).length = nodes.length := List.length_map _
  rw [LlmCompiler.validateDag_iff, acyclic_iff, LlmCompiler.ids_taskGraph, hlen]
  simp only [taskGraph, List.forall_mem_map]

theorem scheduled (h : validateDag nodes = .ok ()) :
    Scheduled nodes (computeExecutionWaves nodes) := by
  obtain ⟨hnodup, -⟩ := LlmCompiler.validateDag_eq_ok h
  have hids : (Layers.ids (taskGraph nodes)).Nodup := by
    rw [LlmCompiler.ids_taskGraph]
    exact hnodup
  have honce : (computeExecutionWaves nodes).flatten.Nodup := by
    rw [LlmCompiler.waves_eq hnodup]
    exact Layers.nodup_layers (LlmCompiler.byOrder_perm nodes) hids _
  refine ⟨⟨?_, honce⟩, ?_⟩
  · apply (List.perm_ext_iff_of_nodup honce hnodup).2
    intro tid
    apply Iff.intro
    · intro htid
      obtain ⟨wave, hw, hmem⟩ := List.mem_flatten.1 htid
      exact LlmCompiler.mem_taskIds_of_mem_waves hnodup hw hmem
    · intro htid
      obtain ⟨t, ht, rfl⟩ := List.mem_map.1 htid
      exact LlmCompiler.mem_waves h ht
  · intro front wave back hsplit t ht hwave
    rw [LlmCompiler.waves_eq hnodup] at hsplit
    exact Layers.layers_ordered (LlmCompiler.byOrder_perm nodes) hids hsplit hwave
      (List.mem_map_of_mem ht)

/-- `validate_plan` and `validate_dag` accept the plans whose dependencies have an order, and the
waves of these keep to it. -/
theorem validatePlan_iff (c : Coercions) (plan : Fields) (goal : String) (tasks : List Tree)
    (h : plan.get? "tasks" = some (.arr tasks)) (hne : tasks ≠ []) :
    (validatePlan c plan = true ↔ ∃ g, List.Forall₂ IsTask tasks g ∧ Acyclic g) ∧
      ∀ g, List.Forall₂ IsTask tasks g → ∃ p, rebuild c plan goal = some p ∧
        (validateDag p.tasks = .ok () ↔ validatePlan c plan = true) ∧
        (validateDag p.tasks = .ok () → Scheduled p.tasks p.executionWaves) := by
  have hlist := taskList_eq h hne
  refine ⟨?_, ?_⟩
  · apply Iff.intro
    · intro hvalid
      cases hfields : taskList plan with
      | none =>
        rw [validatePlan, hfields] at hvalid
        cases hvalid
      | some fields =>
        exact ⟨_, (isTasks_iff c).2 ⟨fields, hlist ▸ hfields, rfl⟩, (validatePlan_eq hfields).1 hvalid⟩
    · rintro ⟨g, hg, hacyclic⟩
      obtain ⟨fields, hfields, rfl⟩ := (isTasks_iff c).1 hg
      exact (validatePlan_eq (hlist.trans hfields)).2 hacyclic
  · intro g hg
    obtain ⟨fields, hfields, hgraph⟩ := (isTasks_iff c).1 hg
    obtain ⟨nodes, hnodes, hnodeGraph⟩ := rebuild_of_isTasks c hg
    refine ⟨⟨nodes, computeExecutionWaves nodes, goal⟩, ?_, ?_, scheduled⟩
    · rw [rebuild, h]
      exact Option.bind_eq_some_iff.2 ⟨tasks, rfl, Option.bind_eq_some_iff.2 ⟨nodes, hnodes, rfl⟩⟩
    · rw [validateDag_acyclic, validatePlan_eq (hlist.trans hfields), hnodeGraph, hgraph]

def twice : List Tree :=
  [.obj [("id", .str "a"), ("tool", .str "t")],
   .obj [("id", .str "b"), ("tool", .str "t"), ("depends_on", .arr [.str "a", .str "a"])]]

def printing : Coercions where
  text
    | .num s => s
    | _ => "?"
  pairs _ := none

theorem validatePlan_iff_twice :
    (validatePlan printing (Dict.collect [("tasks", .arr twice)]) = true ↔
        ∃ g, List.Forall₂ IsTask twice g ∧ Acyclic g) ∧
      ∀ g, List.Forall₂ IsTask twice g →
        ∃ p, rebuild printing (Dict.collect [("tasks", .arr twice)]) "goal" = some p ∧
          (validateDag p.tasks = .ok () ↔
            validatePlan printing (Dict.collect [("tasks", .arr twice)]) = true) ∧
          (validateDag p.tasks = .ok () → Scheduled p.tasks p.executionWaves) :=
  validatePlan_iff printing _ "goal" twice rfl (List.cons_ne_nil _ _)

/-- An id that is a number is refused by `validate_plan`, and becomes a text when the plan is
rebuilt. -/
theorem rebuilt_from_number :
    ¬∀ (c : Coercions) (plan : Fields) (goal : String) (tasks : List Tree) (p : CompilerPlan),
      plan.get? "tasks" = some (.arr tasks) → tasks ≠ [] → rebuild c plan goal = some p →
        (validateDag p.tasks = .ok () ↔ validatePlan c plan = true) := by
  intro h
  have hiff := h printing (Dict.collect [("tasks", .arr [.obj [("id", .num "1"),
    ("tool", .str "t")]])]) "goal" _ _ rfl (List.cons_ne_nil _ _) rfl
  have hrefused : validatePlan printing (Dict.collect [("tasks", .arr [.obj [("id", .num "1"),
    ("tool", .str "t")]])]) = false := rfl
  rw [hrefused] at hiff
  exact Bool.false_ne_true (hiff.1 (by decide))

end PlanValidation

end Prismal.Routing
