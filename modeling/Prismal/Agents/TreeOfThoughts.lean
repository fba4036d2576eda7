import Mathlib.Algebra.Order.Ring.Rat
import Mathlib.Data.List.Chain
import Mathlib.Data.List.MinMax
import Mathlib.Data.Rat.Defs
import Prismal.Lib.SortBy

namespace Prismal.Agents
open Prismal.Lib
set_option autoImplicit true

/-! A tree of thoughts, explored level by level, with a beam, or branch by branch. -/

/-- A node of the tree. Its id is its place in the list of all thoughts. -/
structure Thought where
  content : String
  score : Rat
  depth : Nat
  parentId : Option Nat
  id : Nat
  isTerminal : Bool := false
  deriving DecidableEq, Repr

structure ToTResult where
  bestThought : Thought
  bestPath : List Thought
  allThoughts : List Thought
  totalThoughtsGenerated : Nat

inductive SearchStrategy where
  | bfs
  | dfs
  | beam
  deriving DecidableEq, Repr

inductive ToTError where
  | breadth (n : Int)
  | depth (n : Int)
  | beamSize (n : Int)
  | noThoughts
  deriving DecidableEq, Repr

def ToTError.message : ToTError → String
  | breadth n => "breadth must be >= 1; got " ++ toString n
  | depth n => "depth must be >= 1; got " ++ toString n
  | beamSize n => "beam_size must be >= 1; got " ++ toString n
  | noThoughts => "Search produced no thoughts (generate_fn returned empty)"

/-- The arguments of a search. Each call of the generator, of the evaluator and of the budget guard
may be answered differently. -/
structure TreeOfThoughts where
  problem : String
  generate : Nat → List Thought → List String
  evaluate : Nat → String → Rat
  breadth : Int := 3
  depth : Int := 3
  beamSize : Int := 2
  threshold : Rat := 9 / 10
  strategy : SearchStrategy := .beam
  budgetGuard : Option (Nat → Nat → Bool) := none

/-- The thoughts so far, the texts of every call of the generator, and the calls of the guard. -/
structure Exploration where
  thoughts : List Thought
  generated : List (List String) := []
  guardCalls : Nat := 0

def ancestors (thoughts : List Thought) : Nat → Thought → List Thought
  | 0, t => [t]
  | n + 1, t =>
    match t.parentId.bind fun i => thoughts[i]? with
    | none => [t]
    | some parent => if parent = t then [t] else t :: ancestors thoughts n parent

/-- `_path_from_root` -/
def pathFromRoot (thoughts : List Thought) (t : Thought) : List Thought :=
  (ancestors thoughts thoughts.length t).reverse

namespace TreeOfThoughts
variable (q : TreeOfThoughts)

def root : Thought := { content := q.problem, score := 0, depth := 0, parentId := none, id := 0 }

def reaches (t : Thought) : Bool := decide (q.threshold ≤ t.score)

/-- `_budget_allows` -/
def budgetAllows (level : Nat) (s : Exploration) : Bool × Exploration :=
  match q.budgetGuard with
  | none => (true, s)
  | some guard => (guard s.guardCalls level, { s with guardCalls := s.guardCalls + 1 })

/-- `_expand_node`: generate and score the children of one node. -/
def expandNode (node : Thought) (s : Exploration) : List Thought × Exploration :=
  let texts := q.generate s.generated.length (pathFromRoot s.thoughts node)
  let children := texts.mapIdx fun i text =>
    { content := text
      score := q.evaluate (s.thoughts.length + i) text
      depth := node.depth + 1
      parentId := some node.id
      id := s.thoughts.length + i }
  (children, { s with thoughts := s.thoughts ++ children, generated := s.generated ++ [texts] })

def expandEach : List Thought → Exploration → List (List Thought) × Exploration
  | [], s => ([], s)
  | node :: nodes, s =>
    let (children, s) := q.expandNode node s
    let (each, s) := expandEach nodes s
    (children :: each, s)

def byScore (thoughts : List Thought) : List Thought :=
  sortBy (fun t => OrderDual.toDual t.score) thoughts

def greatest (thoughts : List Thought) : Option Thought := thoughts.argmax Thought.score

/-- `_beam_search`: expand the top nodes of each level. -/
def beamSearch : Nat → Nat → List Thought → Exploration → Option Thought × Exploration
  | 0, _, _, s => (none, s)
  | n + 1, d, frontier, s =>
    let (allowed, s) := if 0 < d then q.budgetAllows d s else (true, s)
    if !allowed then (none, s)
    else
      let (each, s) := q.expandEach frontier s
      match greatest each.flatten with
      | none => (none, s)
      | some best =>
        if q.reaches best then (some best, s)
        else beamSearch n (d + 1) ((byScore each.flatten).take q.beamSize.toNat) s

/-- A level of `_bfs_search`, which stops at the first child that reaches the threshold. -/
def bfsLevel : List Thought → List Thought → Exploration →
    Option Thought × List Thought × Exploration
  | [], next, s => (none, next, s)
  | node :: nodes, next, s =>
    let (children, s) := q.expandNode node s
    match children.find? q.reaches with
    | some child => (some child, next ++ children, s)
    | none => bfsLevel nodes (next ++ children) s

/-- `_bfs_search`: expand every node at every level. -/
def bfsSearch : Nat → Nat → List Thought → Exploration → Option Thought × Exploration
  | 0, _, _, s => (none, s)
  | n + 1, d, frontier, s =>
    let (allowed, s) := if 0 < d then q.budgetAllows d s else (true, s)
    if !allowed then (none, s)
    else
      match q.bfsLevel frontier [] s with
      | (some child, _, s) => (some child, s)
      | (none, next, s) => if next.isEmpty then (none, s) else bfsSearch n (d + 1) next s

def tryEach (f : Thought → Exploration → Option Thought × Exploration) :
    List Thought → Exploration → Option Thought × Exploration
  | [], s => (none, s)
  | t :: ts, s =>
    match f t s with
    | (some found, s) => (some found, s)
    | (none, s) => tryEach f ts s

/-- `recurse` of `_dfs_search`: descend the branch with the highest score first. -/
def dfsSearch : Nat → Thought → Exploration → Option Thought × Exploration
  | 0, _, s => (none, s)
  | n + 1, node, s =>
    let (allowed, s) :=
      if n + 1 < q.depth.toNat then q.budgetAllows (q.depth.toNat - (n + 1)) s else (true, s)
    if !allowed then (none, s)
    else
      let (children, s) := q.expandNode node s
      tryEach (fun child s => if q.reaches child then (some child, s) else dfsSearch n child s)
        (byScore children) s

def start : Exploration := { thoughts := [q.root] }

def explore : Option Thought × Exploration :=
  match q.strategy with
  | .beam => q.beamSearch q.depth.toNat 0 [q.root] q.start
  | .bfs => q.bfsSearch q.depth.toNat 0 [q.root] q.start
  | .dfs => q.dfsSearch q.depth.toNat q.root q.start

def conclude (terminal : Option Thought) (thoughts : List Thought) : Except ToTError ToTResult :=
  let nonRoot := thoughts.filter fun t => decide (t.id ≠ 0)
  match terminal.or (greatest nonRoot) with
  | none => .error .noThoughts
  | some best =>
    let best := { best with isTerminal := true }
    let thoughts := thoughts.set best.id best
    .ok {
      bestThought := best
      bestPath := pathFromRoot thoughts best
      allThoughts := thoughts
      totalThoughtsGenerated := nonRoot.length }

def treeOfThoughts : Except ToTError ToTResult :=
  if q.breadth < 1 then .error (.breadth q.breadth)
  else if q.depth < 1 then .error (.depth q.depth)
  else if q.beamSize < 1 then .error (.beamSize q.beamSize)
  else conclude q.explore.1 q.explore.2.thoughts

/-- Every thought but the first hangs from an earlier one. -/
structure Rooted (thoughts : List Thought) : Prop where
  root : ∃ r : Thought, thoughts[0]? = some r ∧ r.parentId = none ∧ r.depth = 0
  ids : ∀ i (t : Thought), thoughts[i]? = some t → t.id = i
  parents : ∀ i (t : Thought), thoughts[i + 1]? = some t → ∃ p : Thought, t.parentId = some p.id ∧
    thoughts[p.id]? = some p ∧ p.id ≤ i ∧ t.depth = p.depth + 1

/-- What holds of an exploration whatever the strategy is. -/
structure Grown (s : Exploration) : Prop extends Rooted s.thoughts where
  deep : ∀ t ∈ s.thoughts, t.depth ≤ q.depth.toNat
  contents : (s.thoughts.drop 1).map Thought.content = s.generated.flatten

/-- A chain of parents from the root to a thought. -/
structure PathTo (thoughts path : List Thought) (t : Thought) : Prop where
  starts : ∃ r : Thought, path.head? = some r ∧ r.parentId = none
  ends : path.getLast? = some t
  chain : path.IsChain fun p c => c.parentId = some p.id
  inside : ∀ x ∈ path, x ∈ thoughts
  depths : ∀ i (x : Thought), path[i]? = some x → x.depth = i
  length : path.length = t.depth + 1

theorem PathTo.child {thoughts path : List Thought} (h : PathTo thoughts path p)
    (ht : t ∈ thoughts) (hparent : t.parentId = some p.id) (hdepth : t.depth = p.depth + 1) :
    PathTo thoughts (path ++ [t]) t where
  starts := by
    obtain ⟨r, hr, hroot⟩ := h.starts
    exact ⟨r, by rw [List.head?_append, hr]; rfl, hroot⟩
  ends := List.getLast?_concat
  chain := by
    rw [List.isChain_append]
    refine ⟨h.chain, .singleton t, ?_⟩
    intro x hx y hy
    rw [h.ends] at hx
    cases hx
    cases hy
    exact hparent
  inside x hx := by
    cases List.mem_append.1 hx with
    | inl hx => exact h.inside x hx
    | inr hx => exact List.mem_singleton.1 hx ▸ ht
  depths i x hx := by
    by_cases hi : i < path.length
    · rw [List.getElem?_append_left hi] at hx
      exact h.depths i x hx
    · rw [List.getElem?_append_right (Nat.le_of_not_lt hi)] at hx
      obtain ⟨hlt, hx⟩ := List.getElem?_eq_some_iff.1 hx
      rw [List.length_singleton] at hlt
      have hlength := h.length
      rw [List.getElem_singleton] at hx
      rw [← hx]
      omega
  length := by rw [List.length_append, List.length_singleton, h.length, hdepth]

theorem PathTo.root {thoughts : List Thought} (ht : t ∈ thoughts) (hparent : t.parentId = none)
    (hdepth : t.depth = 0) : PathTo thoughts [t] t where
  starts := ⟨t, rfl, hparent⟩
  ends := rfl
  chain := .singleton t
  inside x hx := List.mem_singleton.1 hx ▸ ht
  depths i x hx := by
    obtain ⟨hlt, hx⟩ := List.getElem?_eq_some_iff.1 hx
    rw [List.length_singleton] at hlt
    rw [← hx, List.getElem_singleton, hdepth]
    omega
  length := by rw [hdepth]; rfl

theorem Rooted.ancestors {thoughts : List Thought} (h : Rooted thoughts)
    (ht : thoughts[i]? = some t) (hi : i ≤ n) :
    PathTo thoughts (ancestors thoughts n t).reverse t := by
  obtain ⟨r, hr, hparent, hdepth⟩ := h.root
  induction n generalizing i t with
  | zero =>
    have hzero : i = 0 := by omega
    rw [hzero, hr, Option.some.injEq] at ht
    subst ht
    exact .root (List.mem_of_getElem? hr) hparent hdepth
  | succ n ih =>
    cases i with
    | zero =>
      rw [hr, Option.some.injEq] at ht
      subst ht
      have hnone : (r.parentId.bind fun i => thoughts[i]?) = none := by
        rw [hparent]
        rfl
      rw [Agents.ancestors, hnone]
      exact .root (List.mem_of_getElem? hr) hparent hdepth
    | succ i =>
      obtain ⟨p, hp, hfound, hle, hchild⟩ := h.parents i t ht
      have hsome : (t.parentId.bind fun i => thoughts[i]?) = some p := by
        rw [hp]
        exact hfound
      have hne : p ≠ t := by
        intro heq
        have hid := h.ids _ _ ht
        rw [← heq] at hid
        omega
      rw [Agents.ancestors, hsome]
      simp only [if_neg hne, List.reverse_cons]
      exact (ih hfound (by omega)).child (List.mem_of_getElem? ht) hp hchild

theorem Rooted.pathFromRoot {thoughts : List Thought} (h : Rooted thoughts) (ht : t ∈ thoughts) :
    PathTo thoughts (pathFromRoot thoughts t) t := by
  obtain ⟨i, hi⟩ := List.mem_iff_getElem?.1 ht
  obtain ⟨hlt, _⟩ := List.getElem?_eq_some_iff.1 hi
  exact h.ancestors hi hlt.le

theorem Rooted.length_pos {thoughts : List Thought} (h : Rooted thoughts) :
    0 < thoughts.length := by
  obtain ⟨r, hr, _⟩ := h.root
  exact (List.getElem?_eq_some_iff.1 hr).1

theorem Rooted.append {thoughts children : List Thought} (h : Rooted thoughts)
    (hnode : node ∈ thoughts)
    (hchildren : ∀ i t, children[i]? = some t →
      t.id = thoughts.length + i ∧ t.parentId = some node.id ∧ t.depth = node.depth + 1) :
    Rooted (thoughts ++ children) where
  root := by
    obtain ⟨r, hr, hroot⟩ := h.root
    exact ⟨r, by rw [List.getElem?_append_left h.length_pos, hr], hroot⟩
  ids i t ht := by
    by_cases hi : i < thoughts.length
    · rw [List.getElem?_append_left hi] at ht
      exact h.ids i t ht
    · rw [List.getElem?_append_right (Nat.le_of_not_lt hi)] at ht
      rw [(hchildren _ t ht).1]
      omega
  parents i t ht := by
    by_cases hi : i + 1 < thoughts.length
    · rw [List.getElem?_append_left hi] at ht
      obtain ⟨p, hp, hfound, hle, hdepth⟩ := h.parents i t ht
      exact ⟨p, hp, by rw [List.getElem?_append_left (by omega), hfound], hle, hdepth⟩
    · rw [List.getElem?_append_right (Nat.le_of_not_lt hi)] at ht
      obtain ⟨_, hparent, hdepth⟩ := hchildren _ t ht
      obtain ⟨j, hj⟩ := List.mem_iff_getElem?.1 hnode
      obtain ⟨hlt, _⟩ := List.getElem?_eq_some_iff.1 hj
      have hid := h.ids j node hj
      subst hid
      exact ⟨node, hparent, by rw [List.getElem?_append_left hlt, hj], by omega, hdepth⟩

variable {q}

theorem mem_expandNode (h : (q.expandNode node s).1[i]? = some t) :
    t.id = s.thoughts.length + i ∧ t.parentId = some node.id ∧ t.depth = node.depth + 1 := by
  rw [expandNode, List.getElem?_mapIdx] at h
  obtain ⟨text, _, rfl⟩ := Option.map_eq_some_iff.1 h
  exact ⟨rfl, rfl, rfl⟩

theorem thoughts_expandNode (q : TreeOfThoughts) (node : Thought) (s : Exploration) :
    (q.expandNode node s).2.thoughts = s.thoughts ++ (q.expandNode node s).1 := rfl

theorem Grown.start (q : TreeOfThoughts) : q.Grown q.start where
  root := ⟨q.root, rfl, rfl, rfl⟩
  ids i t ht := by
    cases i with
    | zero =>
      cases ht
      rfl
    | succ i => cases ht
  parents i t ht := by cases ht
  deep t ht := by
    rw [List.mem_singleton.1 ht]
    exact Nat.zero_le _
  contents := rfl

theorem Grown.expandNode {s : Exploration} (h : q.Grown s) (hnode : node ∈ s.thoughts)
    (hdepth : node.depth < q.depth.toNat) : q.Grown (q.expandNode node s).2 where
  toRooted := h.toRooted.append hnode fun _ _ => mem_expandNode
  deep t ht := by
    cases List.mem_append.1 ht with
    | inl ht => exact h.deep t ht
    | inr ht =>
      obtain ⟨i, hi⟩ := List.mem_iff_getElem?.1 ht
      rw [(mem_expandNode hi).2.2]
      exact hdepth
  contents := by
    rw [thoughts_expandNode, List.drop_append_of_le_length h.length_pos, List.map_append,
      h.contents]
    simp only [TreeOfThoughts.expandNode, List.flatten_append, List.flatten_singleton]
    congr 1
    apply List.ext_getElem?
    intro i
    rw [List.getElem?_map, List.getElem?_mapIdx, Option.map_map]
    exact Option.map_id'

end TreeOfThoughts
end Prismal.Agents
