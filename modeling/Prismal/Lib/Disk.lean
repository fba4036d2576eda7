import Mathlib.Data.List.Infix
import Prismal.Lib.State

namespace Prismal.Lib
set_option autoImplicit true

/-! A file system, the steps by which directories and files are made in it, and what is left of it
when a step fails. -/

namespace Disk

abbrev Name := List Char

abbrev Path := List Name

def up : Name := "..".toList

inductive Node (β : Type) where
  | dir
  | file (bytes : β)
  deriving DecidableEq

abbrev Nodes (β : Type) := Path → Option (Node β)

def isDir : Option (Node β) → Bool
  | some .dir => true
  | _ => false

theorem isDir_iff {n : Option (Node β)} : isDir n = true ↔ n = some .dir := by
  cases n with
  | none => simp [isDir]
  | some n => cases n <;> simp [isDir]

/-! How the system follows a path. -/

/-- Where a name leads to. A place is its own when no `..` and no link leads there, so that a
directory can be made there. -/
structure Stop where
  place : Path
  own : Bool
  deriving DecidableEq

def stop (links : Path → Option Path) (here : Path) (name : Name) : Stop :=
  if name = up then ⟨here.dropLast, false⟩
  else
    match links (here ++ [name]) with
    | some place => ⟨place, false⟩
    | none => ⟨here ++ [name], true⟩

def stops (links : Path → Option Path) : Path → List Name → List Stop
  | _, [] => []
  | here, name :: names =>
    stop links here name :: stops links (stop links here name).place names

def way (links : Path → Option Path) (names : List Name) : List Stop :=
  stops links [] names.dropLast

def target (links : Path → Option Path) (names : List Name) : Stop :=
  ((stops links [] names).getLast?).getD ⟨[], false⟩

theorem stops_concat (links : Path → Option Path) (here : Path) (names : List Name) (name : Name) :
    stops links here (names ++ [name]) = stops links here names ++
      [stop links (((stops links here names).getLast?).getD ⟨here, false⟩).place name] := by
  induction names generalizing here with
  | nil => rfl
  | cons n names ih =>
    rw [List.cons_append, stops, stops, ih]
    cases hn : stops links (stop links here n).place names with
    | nil => rfl
    | cons s ss => simp [List.getLast?_cons]

theorem target_concat (links : Path → Option Path) (names : List Name) (name : Name) :
    target links (names ++ [name]) = stop links (target links names).place name := by
  rw [target, stops_concat, List.getLast?_concat, Option.getD_some, target]

def pathExists (links : Path → Option Path) (nodes : Nodes β) (names : List Name) : Bool :=
  (way links names).all (fun s => isDir (nodes s.place)) &&
    (nodes (target links names).place).isSome

end Disk

/-- What is there, and where directories were made and files were opened for writing. -/
structure Disk (β : Type) where
  nodes : Disk.Nodes β
  written : List Disk.Path

namespace Disk

def put (d : Disk β) (place : Path) (node : Node β) : Disk β :=
  ⟨Function.update d.nodes place (some node), d.written ++ [place]⟩

@[simp] theorem put_nodes (d : Disk β) (place : Path) (node : Node β) :
    (d.put place node).nodes = Function.update d.nodes place (some node) := rfl

@[simp] theorem put_written (d : Disk β) (place : Path) (node : Node β) :
    (d.put place node).written = d.written ++ [place] := rfl

/-- The links, the steps that fail, and what is in a file that has been opened only or whose
writing has failed. -/
structure Device (ι ε β : Type) where
  links : Path → Option Path
  fails : ι → Option ε
  blocked : Path → ε
  empty : β
  torn : ι → β

namespace Device

variable (dev : Device ι ε β)

def attempt (step : ι) : EStateM ε (Disk β) PUnit :=
  match dev.fails step with
  | some e => throw e
  | none => pure ⟨⟩

/-- `os.mkdir` -/
def createDir (step : ι) (s : Stop) : EStateM ε (Disk β) PUnit := do
  let d ← get
  if s.own && (d.nodes s.place).isNone then
    dev.attempt step
    modify fun d => d.put s.place .dir
  else
    throw (dev.blocked s.place)

def makeDir (step : ι) (s : Stop) : EStateM ε (Disk β) PUnit := do
  let d ← get
  if isDir (d.nodes s.place) then return ⟨⟩
  dev.createDir step s

/-- `mkdir(parents=True, exist_ok=True)` -/
def makeDirs (step : Path → ι) (ss : List Stop) : EStateM ε (Disk β) PUnit :=
  ss.forM fun s => dev.makeDir (step s.place) s

/-- `mkdir(parents=True)` -/
def makeNewDir (step : Path → ι) (names : List Name) : EStateM ε (Disk β) PUnit := do
  dev.makeDirs step (way dev.links names)
  dev.createDir (step (target dev.links names).place) (target dev.links names)

def openFile (step : ι) (s : Stop) : EStateM ε (Disk β) PUnit := do
  dev.attempt step
  let d ← get
  if isDir (d.nodes s.place) || !isDir (d.nodes s.place.dropLast) then throw (dev.blocked s.place)
  modify fun d => d.put s.place (.file dev.empty)

def writeFile (step : ι) (s : Stop) (bytes : β) : EStateM ε (Disk β) PUnit :=
  match dev.fails step with
  | some e => do
    modify fun d => d.put s.place (.file (dev.torn step))
    throw e
  | none => modify fun d => d.put s.place (.file bytes)

/-- The steps of saving a file: those before it is opened, those before it is written. -/
structure Saving (ι : Type) where
  before : List ι
  opening : ι
  reading : List ι
  writing : ι

def Saving.steps (v : Saving ι) : List ι := v.before ++ v.opening :: v.reading ++ [v.writing]

def saveFile (v : Saving ι) (s : Stop) (bytes : β) : EStateM ε (Disk β) PUnit := do
  v.before.forM dev.attempt
  dev.openFile v.opening s
  v.reading.forM dev.attempt
  dev.writeFile v.writing s bytes

end Device

/-- `shutil.rmtree` -/
def rmtree (d : Disk β) (place : Path) : Disk β :=
  { d with nodes := fun p => if place.isPrefixOf p then none else d.nodes p }

theorem rmtree_below {d : Disk β} {place p : Path} (h : place <+: p) :
    (rmtree d place).nodes p = none := if_pos (List.isPrefixOf_iff_prefix.2 h)

theorem rmtree_beside {d : Disk β} {place p : Path} (h : ¬ place <+: p) :
    (rmtree d place).nodes p = d.nodes p := if_neg fun hp => h (List.isPrefixOf_iff_prefix.1 hp)

/-! What a run of steps makes of a tree. -/

def laid (tree : Nodes β) (ways : List Path) (puts : List (Path × β)) : Nodes β := fun p =>
  match puts.reverse.find? fun f => f.1 = p with
  | some f => some (.file f.2)
  | none => if (tree p).isNone && ways.contains p then some .dir else tree p

section Laid

variable {tree : Nodes β} {ways ways' : List Path} {puts puts' : List (Path × β)} {p : Path}

@[simp] theorem laid_nil : laid tree [] [] = tree := by
  funext p
  simp [laid]

theorem laid_of_not_put (h : p ∉ puts.map Prod.fst) :
    laid tree ways puts p = if (tree p).isNone && ways.contains p then some .dir else tree p := by
  have hfind : puts.reverse.find? (fun f => f.1 = p) = none := by
    rw [List.find?_eq_none]
    intro f hf hp
    apply h
    rw [← of_decide_eq_true hp]
    exact List.mem_map_of_mem (List.mem_reverse.1 hf)
  rw [laid, hfind]

theorem find?_put (h : p ∈ puts.map Prod.fst) :
    ∃ b, (p, b) ∈ puts ∧ puts.reverse.find? (fun f => f.1 = p) = some (p, b) := by
  cases hfind : puts.reverse.find? (fun f => f.1 = p) with
  | none =>
    obtain ⟨f, hf, rfl⟩ := List.mem_map.1 h
    have hne := List.find?_eq_none.1 hfind f (List.mem_reverse.2 hf)
    simp at hne
  | some f =>
    have hp : f.1 = p := by
      simpa using List.find?_some hfind
    subst hp
    exact ⟨f.2, List.mem_reverse.1 (List.mem_of_find?_eq_some hfind), rfl⟩

theorem laid_of_put (h : p ∈ puts.map Prod.fst) :
    ∃ b, (p, b) ∈ puts ∧ laid tree ways puts p = some (.file b) := by
  obtain ⟨b, hb, hfind⟩ := find?_put h
  exact ⟨b, hb, by rw [laid, hfind]⟩

theorem laid_put_iff {b : β} (h : p ∈ puts.map Prod.fst) :
    laid tree ways puts p = some (.file b) ↔
      puts.reverse.find? (fun f => f.1 = p) = some (p, b) := by
  obtain ⟨a, -, hfind⟩ := find?_put h
  rw [laid, hfind]
  simp

theorem not_put (h : ∀ b, laid tree ways puts p ≠ some (.file b)) : p ∉ puts.map Prod.fst := by
  intro hput
  obtain ⟨b, -, hb⟩ : ∃ b, (p, b) ∈ puts ∧ laid tree ways puts p = some (.file b) :=
    laid_of_put hput
  exact h b hb

theorem none_of_laid (h : laid tree ways puts p = none) : tree p = none := by
  have hput : p ∉ puts.map Prod.fst := by
    apply not_put
    intro b hb
    rw [h] at hb
    cases hb
  rw [laid_of_not_put hput] at h
  split at h
  · cases h
  · exact h

theorem laid_concat_put {b : β} :
    laid tree ways (puts ++ [(p, b)]) =
      Function.update (laid tree ways puts) p (some (.file b)) := by
  funext q
  by_cases hq : p = q
  · subst hq
    simp [laid]
  · rw [Function.update_of_ne (Ne.symm hq)]
    simp [laid, hq]

theorem laid_concat_way_ne (hq : q ≠ p) :
    laid tree (ways ++ [p]) puts q = laid tree ways puts q := by
  have hp : (ways ++ [p]).contains q = ways.contains q := by
    simp [hq]
  rw [laid, laid, hp]

theorem laid_concat_way (h : laid tree ways puts p = none) :
    laid tree (ways ++ [p]) puts = Function.update (laid tree ways puts) p (some .dir) := by
  have hput : p ∉ puts.map Prod.fst := by
    apply not_put
    intro b hb
    rw [h] at hb
    cases hb
  funext q
  by_cases hq : q = p
  · subst hq
    rw [laid_of_not_put hput] at h
    rw [Function.update_self, laid_of_not_put hput]
    cases hn : tree q with
    | none => simp
    | some n => simp [hn] at h
  · rw [Function.update_of_ne hq, laid_concat_way_ne hq]

theorem laid_concat_dir (h : laid tree ways puts p = some .dir) :
    laid tree (ways ++ [p]) puts = laid tree ways puts := by
  have hput : p ∉ puts.map Prod.fst := by
    apply not_put
    intro b hb
    rw [h] at hb
    cases hb
  funext q
  by_cases hq : q = p
  · subst hq
    rw [h]
    rw [laid_of_not_put hput] at h ⊢
    cases hn : tree q with
    | none => simp
    | some n => simpa [hn] using h
  · exact laid_concat_way_ne hq

end Laid

/-- The tree as laid out, and the log that goes with it. -/
structure Laid (tree : Nodes β) (ways : List Path) (puts : List (Path × β)) (d : Disk β) :
    Prop where
  nodes : d.nodes = laid tree ways puts
  written : ∀ p, p ∈ d.written ↔ p ∈ puts.map Prod.fst ∨ p ∈ ways ∧ tree p = none
  dirs : ∀ p, p ∈ ways ∨ tree p = some .dir → d.nodes p = some .dir

namespace Laid

variable {tree : Nodes β} {ways : List Path} {puts : List (Path × β)} {d : Disk β} {p : Path}

theorem start : Laid tree [] [] ⟨tree, []⟩ := ⟨by simp, by simp, by simp⟩

theorem put_dir (h : Laid tree ways puts d) (hp : d.nodes p = none) :
    Laid tree (ways ++ [p]) puts (d.put p .dir) := by
  have hlaid : laid tree ways puts p = none := h.nodes ▸ hp
  have htree : tree p = none := none_of_laid hlaid
  constructor
  · rw [laid_concat_way hlaid, ← h.nodes]
    rfl
  · intro q
    rw [put_written, List.mem_append, h.written, List.mem_append, List.mem_singleton]
    constructor
    · rintro ((hq | ⟨hq, hn⟩) | rfl)
      · exact .inl hq
      · exact .inr ⟨.inl hq, hn⟩
      · exact .inr ⟨.inr rfl, htree⟩
    · rintro (hq | ⟨hq | rfl, hn⟩)
      · exact .inl (.inl hq)
      · exact .inl (.inr ⟨hq, hn⟩)
      · exact .inr rfl
  · intro q hq
    rw [put_nodes, Function.update_apply]
    split
    · rfl
    next hne =>
      rw [List.mem_append, List.mem_singleton] at hq
      rcases hq with (hq | hq) | hq
      · exact h.dirs q (.inl hq)
      · exact absurd hq hne
      · exact h.dirs q (.inr hq)

theorem pass_dir (h : Laid tree ways puts d) (hp : d.nodes p = some .dir) :
    Laid tree (ways ++ [p]) puts d := by
  have hlaid : laid tree ways puts p = some .dir := h.nodes ▸ hp
  constructor
  · rw [laid_concat_dir hlaid, h.nodes]
  · intro q
    rw [h.written, List.mem_append, List.mem_singleton]
    constructor
    · rintro (hq | ⟨hq, hn⟩)
      · exact .inl hq
      · exact .inr ⟨.inl hq, hn⟩
    · rintro (hq | ⟨hq | rfl, hn⟩)
      · exact .inl hq
      · exact .inr ⟨hq, hn⟩
      · rw [laid_of_not_put (not_put fun b hb => by rw [hlaid] at hb; cases hb), hn] at hlaid
        by_cases hq : q ∈ ways
        · exact .inr ⟨hq, hn⟩
        · simp [hq] at hlaid
  · intro q hq
    rw [List.mem_append, List.mem_singleton] at hq
    rcases hq with (hq | rfl) | hq
    · exact h.dirs q (.inl hq)
    · exact hp
    · exact h.dirs q (.inr hq)

theorem put_file {b : β} (h : Laid tree ways puts d) (hp : d.nodes p ≠ some .dir) :
    Laid tree ways (puts ++ [(p, b)]) (d.put p (.file b)) := by
  constructor
  · rw [laid_concat_put, ← h.nodes]
    rfl
  · intro q
    rw [put_written, List.mem_append, h.written, List.map_append, List.mem_append]
    simp only [List.map_cons, List.map_nil, List.mem_singleton]
    rw [or_assoc, or_assoc, or_comm (a := q = p)]
  · intro q hq
    rw [put_nodes, Function.update_of_ne]
    · exact h.dirs q hq
    · rintro rfl
      exact hp (h.dirs q hq)

theorem put_again {b c : β} (h : Laid tree ways (puts ++ [(p, b)]) d) :
    Laid tree ways (puts ++ [(p, c)]) (d.put p (.file c)) := by
  constructor
  · rw [laid_concat_put, put_nodes, h.nodes, laid_concat_put, Function.update_idem]
  · intro q
    rw [put_written, List.mem_append, h.written]
    simp only [List.map_append, List.mem_append, List.map_cons, List.map_nil, List.mem_singleton]
    constructor
    · rintro ((hq | hq) | hq)
      · exact .inl hq
      · exact .inr hq
      · exact .inl (.inr hq)
    · exact .inl
  · intro q hq
    rw [put_nodes, Function.update_of_ne]
    · exact h.dirs q hq
    · rintro rfl
      have hdir := h.dirs q hq
      rw [h.nodes, laid_concat_put, Function.update_self] at hdir
      cases hdir

theorem was_dir (h : Laid tree ways puts d) (hp : p ∈ ways) (hn : tree p ≠ none) :
    tree p = some .dir := by
  have hdir := h.dirs p (.inl hp)
  rw [h.nodes] at hdir
  have hput : p ∉ puts.map Prod.fst := by
    apply not_put
    intro b hb
    rw [hdir] at hb
    cases hb
  rw [laid_of_not_put hput] at hdir
  cases htree : tree p with
  | none => exact absurd htree hn
  | some n => simpa [htree] using hdir

end Laid

/-- A tree whose entries, and whose links, are all in directories. -/
structure Tree (β : Type) (links : Path → Option Path) where
  nodes : Nodes β
  root : nodes [] = some .dir
  closed : ∀ p n, nodes (p ++ [n]) ≠ none → nodes p = some .dir
  linked : ∀ p n, links (p ++ [n]) ≠ none → nodes p = some .dir

namespace Tree

variable {links : Path → Option Path} (t : Tree β links) {p q : Path}

theorem nodes_below (h : t.nodes p = none) (hq : p <+: q) : t.nodes q = none := by
  obtain ⟨r, rfl⟩ := hq
  induction r using List.reverseRecOn with
  | nil => rwa [List.append_nil]
  | append_singleton r n ih =>
    by_contra hn
    rw [← List.append_assoc] at hn
    rw [t.closed _ n hn] at ih
    cases ih

theorem stop_new (h : t.nodes p = none) (hn : n ≠ up) : stop links p n = ⟨p ++ [n], true⟩ := by
  have hlink : links (p ++ [n]) = none := by
    by_contra hne
    rw [t.linked p n hne] at h
    cases h
  rw [stop, if_neg hn, hlink]

end Tree

/-! When the commands of a device succeed, and what they leave. -/

namespace Device

variable (dev : Device ι ε β)

def Creatable (step : ι) (nodes : Nodes β) (s : Stop) : Prop :=
  s.own = true ∧ nodes s.place = none ∧ dev.fails step = none

def Passable (step : ι) (nodes : Nodes β) (s : Stop) : Prop :=
  nodes s.place = some .dir ∨ dev.Creatable step nodes s

def Clear (step : Path → ι) (tree : Nodes β) (ways : List Path) (puts : List (Path × β))
    (ss : List Stop) : Prop :=
  Throughout (fun pre s =>
    dev.Passable (step s.place) (laid tree (ways ++ pre.map Stop.place) puts) s) ss

def Makeable (step : Path → ι) (tree : Nodes β) (names : List Name) : Prop :=
  dev.Clear step tree [] [] (way dev.links names) ∧
    dev.Creatable (step (target dev.links names).place)
      (laid tree ((way dev.links names).map Stop.place) []) (target dev.links names)

def Barred (step : Path → ι) (tree : Nodes β) (names : List Name) : Prop :=
  ∃ pre s post, way dev.links names ++ [target dev.links names] = pre ++ s :: post ∧
    (∀ t ∈ pre, tree t.place = some .dir) ∧ tree s.place ≠ some .dir ∧
    ¬ dev.Creatable (step s.place) tree s

def Room (nodes : Nodes β) (s : Stop) : Prop :=
  nodes s.place ≠ some .dir ∧ nodes s.place.dropLast = some .dir

def Savable (v : Saving ι) (nodes : Nodes β) (s : Stop) : Prop :=
  (∀ i ∈ v.steps, dev.fails i = none) ∧ Room nodes s

variable {tree : Nodes β} {ways : List Path} {puts : List (Path × β)}

theorem attempt_of_none {step : ι} (h : dev.fails step = none) (d : Disk β) :
    dev.attempt step d = .ok ⟨⟩ d := by
  rw [attempt, h]
  rfl

theorem attempt_of_some {step : ι} {e : ε} (h : dev.fails step = some e) (d : Disk β) :
    dev.attempt step d = .error e d := by
  rw [attempt, h]
  rfl

theorem attempts_ok {steps : List ι} (h : ∀ i ∈ steps, dev.fails i = none) (d : Disk β) :
    steps.forM dev.attempt d = .ok ⟨⟩ d := by
  induction steps with
  | nil => rfl
  | cons i steps ih =>
    change (dev.attempt i >>= fun _ => steps.forM dev.attempt) d = _
    rw [bind_of_ok (attempt_of_none dev (h i List.mem_cons_self) d)]
    exact ih fun j hj => h j (List.mem_cons_of_mem _ hj)

theorem attempts_error {steps : List ι} (h : ¬ ∀ i ∈ steps, dev.fails i = none) (d : Disk β) :
    ∃ e, steps.forM dev.attempt d = .error e d := by
  induction steps with
  | nil => exact absurd (by simp) h
  | cons i steps ih =>
    change ∃ e, (dev.attempt i >>= fun _ => steps.forM dev.attempt) d = .error e d
    cases hf : dev.fails i with
    | some e => exact ⟨e, bind_of_error (attempt_of_some dev hf d)⟩
    | none =>
      rw [bind_of_ok (attempt_of_none dev hf d)]
      apply ih
      intro hall
      apply h
      intro j hj
      rcases List.mem_cons.1 hj with rfl | hj
      · exact hf
      · exact hall j hj

theorem createDir_ok {step : ι} {s : Stop} {d : Disk β} (h : dev.Creatable step d.nodes s) :
    dev.createDir step s d = .ok ⟨⟩ (d.put s.place .dir) := by
  have hget : (get : EStateM ε (Disk β) (Disk β)) d = .ok d d := rfl
  rw [createDir, bind_of_ok hget, h.1, h.2.1, if_pos (by rfl),
    bind_of_ok (attempt_of_none dev h.2.2 d)]
  rfl

theorem createDir_error {step : ι} {s : Stop} {d : Disk β} (h : ¬ dev.Creatable step d.nodes s) :
    ∃ e, dev.createDir step s d = .error e d := by
  have hget : (get : EStateM ε (Disk β) (Disk β)) d = .ok d d := rfl
  rw [createDir, bind_of_ok hget]
  split
  next hfree =>
    rw [Bool.and_eq_true, Option.isNone_iff_eq_none] at hfree
    cases hf : dev.fails step with
    | none => exact absurd ⟨hfree.1, hfree.2, hf⟩ h
    | some e => exact ⟨e, bind_of_error (attempt_of_some dev hf d)⟩
  next => exact ⟨_, rfl⟩

theorem createDir_spec (step : ι) (s : Stop) :
    Spec (Laid tree ways puts) (dev.createDir step s)
      (fun _ d => dev.Creatable step (laid tree ways puts) s ∧
        Laid tree (ways ++ [s.place]) puts d)
      (fun _ d => ¬ dev.Creatable step (laid tree ways puts) s ∧ Laid tree ways puts d) := by
  intro d hd
  rw [← hd.nodes]
  by_cases h : dev.Creatable step d.nodes s
  · rw [createDir_ok dev h]
    exact ⟨h, hd.put_dir h.2.1⟩
  · obtain ⟨e, he⟩ := createDir_error dev h
    rw [he]
    exact ⟨h, hd⟩

theorem makeDir_of_dir {step : ι} {s : Stop} {d : Disk β} (h : d.nodes s.place = some .dir) :
    dev.makeDir step s d = .ok ⟨⟩ d := by
  have hget : (get : EStateM ε (Disk β) (Disk β)) d = .ok d d := rfl
  rw [makeDir, bind_of_ok hget, if_pos (isDir_iff.2 h)]
  rfl

theorem makeDir_of_not_dir {step : ι} {s : Stop} {d : Disk β} (h : d.nodes s.place ≠ some .dir) :
    dev.makeDir step s d = dev.createDir step s d := by
  have hget : (get : EStateM ε (Disk β) (Disk β)) d = .ok d d := rfl
  rw [makeDir, bind_of_ok hget, if_neg fun hdir => h (isDir_iff.1 hdir)]

theorem makeDir_spec (step : ι) (s : Stop) :
    Spec (Laid tree ways puts) (dev.makeDir step s)
      (fun _ d => dev.Passable step (laid tree ways puts) s ∧ Laid tree (ways ++ [s.place]) puts d)
      (fun _ d => ¬ dev.Passable step (laid tree ways puts) s ∧ Laid tree ways puts d) := by
  intro d hd
  by_cases h : d.nodes s.place = some .dir
  · rw [makeDir_of_dir dev h]
    exact ⟨.inl (hd.nodes ▸ h), hd.pass_dir h⟩
  · rw [makeDir_of_not_dir dev h]
    rw [hd.nodes] at h
    refine (createDir_spec dev step s d hd).mono ?_ ?_
    · exact fun _ _ hq => ⟨.inr hq.1, hq.2⟩
    · exact fun _ _ hq => ⟨fun hp => hp.elim h hq.1, hq.2⟩

theorem makeDirs_spec (step : Path → ι) (ss : List Stop) :
    Spec (Laid tree ways puts) (dev.makeDirs step ss)
      (fun _ d => dev.Clear step tree ways puts ss ∧
        Laid tree (ways ++ ss.map Stop.place) puts d)
      (fun _ d => ∃ pre s post, ss = pre ++ s :: post ∧ dev.Clear step tree ways puts pre ∧
        ¬ dev.Passable (step s.place) (laid tree (ways ++ pre.map Stop.place) puts) s ∧
        Laid tree (ways ++ pre.map Stop.place) puts d) := by
  refine Spec.pre (P := Laid tree (ways ++ ([] : List Stop).map Stop.place) puts) ?_ ?_
  · apply Spec.forM_done (I := fun pre => Laid tree (ways ++ pre.map Stop.place) puts)
      (E := fun pre => Laid tree (ways ++ pre.map Stop.place) puts)
    intro pre s
    rw [List.map_append, ← List.append_assoc]
    exact makeDir_spec dev (step s.place) s
  · intro d hd
    rwa [List.map_nil, List.append_nil]

theorem makeNewDir_spec (step : Path → ι) {names : List Name}
    (hnew : pathExists dev.links tree names = false) :
    Spec (Laid tree [] []) (dev.makeNewDir step names)
      (fun _ d => dev.Makeable step tree names ∧
        Laid tree ((way dev.links names ++ [target dev.links names]).map Stop.place) [] d)
      (fun _ d => ¬ dev.Makeable step tree names ∧
        (d.nodes = tree → dev.Barred step tree names)) := by
  have hfirst : ∀ pre : List Stop,
      (∀ t ∈ pre, laid tree (pre.map Stop.place) [] t.place = some .dir) →
      laid tree (pre.map Stop.place) [] = tree → ∀ t ∈ pre, tree t.place = some .dir := by
    intro pre hdirs htree t ht
    rw [← htree]
    exact hdirs t ht
  intro d hd
  have hway := makeDirs_spec dev step (way dev.links names) d hd
  change Ends _ _ ((dev.makeDirs step (way dev.links names) >>= fun _ =>
    dev.createDir (step (target dev.links names).place) (target dev.links names)) d)
  cases h : dev.makeDirs step (way dev.links names) d with
  | error e d' =>
    rw [h] at hway
    rw [bind_of_error h]
    obtain ⟨pre, s, post, hss, -, hs, hlaid⟩ := hway
    refine ⟨fun hmake => hs (hmake.1 pre s post hss), ?_⟩
    rw [List.nil_append] at hs hlaid
    intro htree
    rw [hlaid.nodes] at htree
    rw [htree] at hs
    refine ⟨pre, s, post ++ [target dev.links names], by simp [hss], ?_, fun hdir => hs (.inl hdir),
      fun hc => hs (.inr hc)⟩
    exact hfirst pre (fun t ht => hlaid.nodes ▸ hlaid.dirs _ (.inl (List.mem_map_of_mem ht))) htree
  | ok a d' =>
    rw [h] at hway
    rw [bind_of_ok h]
    obtain ⟨hclear, hlaid⟩ := hway
    rw [List.nil_append] at hlaid
    refine (createDir_spec dev _ _ d' hlaid).mono ?_ ?_
    · intro _ _ hq
      rw [List.map_append]
      exact ⟨⟨hclear, hq.1⟩, hq.2⟩
    · intro _ d'' hq
      obtain ⟨hc, hlaid'⟩ := hq
      refine ⟨fun hmake => hc hmake.2, ?_⟩
      intro htree
      rw [hlaid'.nodes] at htree
      rw [htree] at hc
      have hdirs := hfirst _
        (fun t ht => hlaid'.nodes ▸ hlaid'.dirs _ (.inl (List.mem_map_of_mem ht))) htree
      refine ⟨way dev.links names, target dev.links names, [], rfl, hdirs, ?_, hc⟩
      intro hdir
      rw [pathExists, hdir, Bool.and_eq_false_iff] at hnew
      rcases hnew with hnew | hnew
      · rw [List.all_eq_false] at hnew
        obtain ⟨t, ht, hnot⟩ := hnew
        exact hnot (isDir_iff.2 (hdirs t ht))
      · cases hnew

theorem makeDirs_append {step : Path → ι} {pre ss : List Stop} {d : Disk β}
    (h : ∀ t ∈ pre, d.nodes t.place = some .dir) :
    dev.makeDirs step (pre ++ ss) d = dev.makeDirs step ss d := by
  induction pre with
  | nil => rfl
  | cons s pre ih =>
    change (dev.makeDir (step s.place) s >>= fun _ => dev.makeDirs step (pre ++ ss)) d = _
    rw [bind_of_ok (makeDir_of_dir dev (h s List.mem_cons_self))]
    exact ih fun t ht => h t (List.mem_cons_of_mem _ ht)

theorem makeNewDir_of_barred {step : Path → ι} {names : List Name} {d : Disk β}
    (h : dev.Barred step d.nodes names) : ∃ e, dev.makeNewDir step names d = .error e d := by
  obtain ⟨pre, s, post, hss, hdirs, hdir, hnot⟩ := h
  obtain ⟨e, he⟩ := createDir_error dev hnot
  refine ⟨e, ?_⟩
  change (dev.makeDirs step (way dev.links names) >>= fun _ =>
    dev.createDir (step (target dev.links names).place) (target dev.links names)) d = _
  rcases List.eq_nil_or_concat' post with rfl | ⟨post, s', rfl⟩
  · obtain ⟨hway, hs⟩ := List.append_inj' hss rfl
    cases hs
    have hpre : dev.makeDirs step pre d = .ok ⟨⟩ d := by
      rw [← List.append_nil pre, makeDirs_append dev hdirs]
      rfl
    rw [hway, bind_of_ok hpre, he]
  · rw [← List.cons_append, ← List.append_assoc] at hss
    have hway := (List.append_inj' hss rfl).1
    have hstop : dev.makeDirs step (way dev.links names) d = .error e d := by
      rw [hway, makeDirs_append dev hdirs]
      change (dev.makeDir (step s.place) s >>= fun _ => dev.makeDirs step post) d = _
      rw [← makeDir_of_not_dir dev hdir] at he
      exact bind_of_error he
    exact bind_of_error hstop

theorem openFile_ok {step : ι} {s : Stop} {d : Disk β} (h : dev.fails step = none)
    (hroom : Room d.nodes s) :
    dev.openFile step s d = .ok ⟨⟩ (d.put s.place (.file dev.empty)) := by
  have hget : (get : EStateM ε (Disk β) (Disk β)) d = .ok d d := rfl
  have hdir : isDir (d.nodes s.place) = false := by
    rw [Bool.eq_false_iff]
    exact fun hd => hroom.1 (isDir_iff.1 hd)
  have hparent := isDir_iff.2 hroom.2
  rw [openFile, bind_of_ok (attempt_of_none dev h d), bind_of_ok hget, hdir, hparent]
  rfl

theorem openFile_error {step : ι} {s : Stop} {d : Disk β}
    (h : ¬ (dev.fails step = none ∧ Room d.nodes s)) :
    ∃ e, dev.openFile step s d = .error e d := by
  have hget : (get : EStateM ε (Disk β) (Disk β)) d = .ok d d := rfl
  rw [openFile]
  cases hf : dev.fails step with
  | some e => exact ⟨e, bind_of_error (attempt_of_some dev hf d)⟩
  | none =>
    rw [bind_of_ok (attempt_of_none dev hf d), bind_of_ok hget]
    have hfull : (isDir (d.nodes s.place) || !isDir (d.nodes s.place.dropLast)) = true := by
      by_contra hfree
      rw [Bool.not_eq_true, Bool.or_eq_false_iff, Bool.not_eq_false', isDir_iff] at hfree
      refine h ⟨hf, fun hdir => ?_, hfree.2⟩
      rw [isDir_iff.2 hdir] at hfree
      cases hfree.1
    rw [if_pos hfull]
    exact ⟨_, rfl⟩

theorem saveFile_spec (v : Saving ι) (s : Stop) (bytes : β) :
    Spec (Laid tree ways puts) (dev.saveFile v s bytes)
      (fun _ d => dev.Savable v (laid tree ways puts) s ∧
        Laid tree ways (puts ++ [(s.place, bytes)]) d)
      (fun _ d => ¬ dev.Savable v (laid tree ways puts) s ∧
        ∃ qs, (∀ f ∈ qs, f.1 = s.place) ∧ Laid tree ways (puts ++ qs) d) := by
  intro d hd
  have hnone : ∃ qs, (∀ f ∈ qs, f.1 = s.place) ∧ Laid tree ways (puts ++ qs) d :=
    ⟨[], by simp, by rwa [List.append_nil]⟩
  have hsome : ∀ {b d'}, Laid tree ways (puts ++ [(s.place, b)]) d' →
      ∃ qs, (∀ f ∈ qs, f.1 = s.place) ∧ Laid tree ways (puts ++ qs) d' :=
    fun h => ⟨_, by simp, h⟩
  rw [saveFile, ← hd.nodes]
  by_cases hbefore : ∀ i ∈ v.before, dev.fails i = none
  · rw [bind_of_ok (attempts_ok dev hbefore d)]
    by_cases hopen : dev.fails v.opening = none ∧ Room d.nodes s
    · rw [bind_of_ok (openFile_ok dev hopen.1 hopen.2)]
      have hput := hd.put_file (b := dev.empty) hopen.2.1
      by_cases hreading : ∀ i ∈ v.reading, dev.fails i = none
      · rw [bind_of_ok (attempts_ok dev hreading _), writeFile]
        cases hw : dev.fails v.writing with
        | none =>
          refine ⟨⟨?_, hopen.2⟩, hput.put_again⟩
          simp only [Saving.steps, List.mem_append, List.mem_cons]
          rintro i ((hi | rfl | hi) | rfl | hi)
          · exact hbefore i hi
          · exact hopen.1
          · exact hreading i hi
          · exact hw
          · cases hi
        | some e =>
          refine ⟨fun hsave => ?_, hsome hput.put_again⟩
          rw [hsave.1 v.writing (by simp [Saving.steps])] at hw
          cases hw
      · obtain ⟨e, he⟩ := attempts_error dev hreading (d.put s.place (.file dev.empty))
        rw [bind_of_error he]
        refine ⟨fun hsave => hreading fun i hi => ?_, hsome hput⟩
        exact hsave.1 i (by simp [Saving.steps, hi])
    · obtain ⟨e, he⟩ := openFile_error dev hopen
      rw [bind_of_error he]
      exact ⟨fun hsave => hopen ⟨hsave.1 _ (by simp [Saving.steps]), hsave.2⟩, hnone⟩
  · obtain ⟨e, he⟩ := attempts_error dev hbefore d
    rw [bind_of_error he]
    refine ⟨fun hsave => hbefore fun i hi => ?_, hnone⟩
    exact hsave.1 i (by simp [Saving.steps, hi])

end Device

end Disk

end Prismal.Lib
