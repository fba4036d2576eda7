import Mathlib.Algebra.Order.Ring.Rat
import Mathlib.Data.List.MinMax
import Mathlib.Data.Rat.Defs
import Mathlib.Order.WithBot
import Prismal.Lib.Rose

namespace Prismal.Agents
open Prismal.Lib
set_option autoImplicit true

/-! Language agent tree search: Monte Carlo tree search over the actions of an agent. -/

/-- A node without its children. The root has no action, and a generator may propose none. -/
structure LATSNode (S A : Type) where
  state : S
  action : Option A
  reward : Rat := 0
  visits : Nat := 0
  isTerminal : Bool := false

/-- The UCB1 score below a parent with the given visits. What `explore` gives for the visits of
the parent and of the node is added. -/
def LATSNode.ucb1 (explore : Nat → Nat → Rat) (parent : Option Nat) (n : LATSNode S A) :
    WithTop Rat :=
  if n.visits = 0 then ⊤
  else
    let exploit := n.reward / n.visits
    match parent with
    | none => exploit
    | some visits =>
      if visits = 0 then exploit else ((exploit + explore visits n.visits : Rat) : WithTop Rat)

def LATSNode.visit (reward : Rat) (n : LATSNode S A) : LATSNode S A :=
  { n with visits := n.visits + 1, reward := n.reward + reward }

def LATSNode.terminate (n : LATSNode S A) : LATSNode S A := { n with isTerminal := true }

def LATSNode.average (n : LATSNode S A) : WithBot Rat :=
  if n.visits = 0 then ⊥ else ((n.reward / n.visits : Rat) : WithBot Rat)

inductive LATSError where
  | noSimulations
  | noChildren
  deriving DecidableEq, Repr

def LATSError.message : LATSError → String
  | noSimulations => "No simulations executed (timeout too tight?)"
  | noChildren => "No children were expanded — action_generator returned empty"

structure LATSResult (S A : Type) where
  bestActionSequence : List A
  finalState : S
  totalSimulations : Nat
  bestReward : Rat
  searchTreeDepth : Nat

abbrev SearchTree (S A : Type) := Rose (LATSNode S A)

/-- Python's `max`: the first of the children with the greatest score. -/
def firstGreatest (explore : Nat → Nat → Rat) (t : SearchTree S A) : Nat :=
  t.children.findIdx fun c => t.children.all fun d =>
    decide (d.label.ucb1 explore (some t.label.visits) ≤
      c.label.ucb1 explore (some t.label.visits))

theorem firstGreatest_max (explore : Nat → Nat → Rat) {t : SearchTree S A} (h : t.children ≠ []) :
    ∃ c, t.children[firstGreatest explore t]? = some c ∧
      ∀ d ∈ t.children, d.label.ucb1 explore (some t.label.visits) ≤
        c.label.ucb1 explore (some t.label.visits) := by
  let score (c : SearchTree S A) := c.label.ucb1 explore (some t.label.visits)
  obtain ⟨m, hm⟩ := Option.ne_none_iff_exists'.1 fun hnone =>
    h ((List.argmax_eq_none (f := score)).1 hnone)
  have hlt : firstGreatest explore t < t.children.length := by
    apply List.findIdx_lt_length_of_exists
    refine ⟨m, List.argmax_mem hm, ?_⟩
    rw [List.all_eq_true]
    exact fun d hd => decide_eq_true (List.le_of_mem_argmax (f := score) hd hm)
  have hfound := List.findIdx_getElem (w := hlt)
  rw [List.all_eq_true] at hfound
  exact ⟨_, List.getElem?_eq_getElem hlt, fun d hd => of_decide_eq_true (hfound d hd)⟩

/-- An agent. The generator and the reward may answer each simulation differently. Among the
children with the greatest score any may be chosen. -/
structure LATSAgent (S A : Type) where
  rewardFn : Nat → S → Rat
  actionGenerator : Nat → S → List (Option A)
  transitionFn : S → Option A → S
  explore : Nat → Nat → Rat
  choose : Nat → List Nat → SearchTree S A → Nat
  maxSimulations : Nat
  maxDepth : Nat
  terminalReward : Rat
  one_le_maxSimulations : 1 ≤ maxSimulations
  one_le_maxDepth : 1 ≤ maxDepth
  choose_max : ∀ k p t, t.children ≠ [] → ∃ c, t.children[choose k p t]? = some c ∧
    ∀ d ∈ t.children, d.label.ucb1 explore (some t.label.visits) ≤
      c.label.ucb1 explore (some t.label.visits)

/-- The tree, and where each simulation was evaluated with which reward. -/
structure Searching (S A : Type) where
  root : SearchTree S A
  evaluations : List (List Nat × Rat) := []

def Searching.evaluatedAt (s : Searching S A) (p : List Nat) : Nat :=
  (s.evaluations.filter fun e => decide (e.1 = p)).length

def Searching.rewardBelow (s : Searching S A) (p : List Nat) : Rat :=
  ((s.evaluations.filter fun e => decide (p <+: e.1)).map Prod.snd).sum

namespace LATSAgent

variable (agent : LATSAgent S A)

def select (k : Nat) (p : List Nat) (t : SearchTree S A) : List Nat × SearchTree S A :=
  if t.children.isEmpty || t.label.isTerminal then (p, t)
  else
    match _h : t.children[agent.choose k p t]? with
    | none => (p, t)
    | some c => select k (p ++ [agent.choose k p t]) c
termination_by sizeOf t
decreasing_by exact Rose.lt_of_mem (List.mem_of_getElem? _h)

/-- `_expand`: one child for each candidate action. -/
def expand (k : Nat) (n : LATSNode S A) : List (LATSNode S A) :=
  (agent.actionGenerator k n.state).map fun action =>
    { state := agent.transitionFn n.state action, action := action }

def evaluate (k : Nat) (p : List Nat) (state : S) (s : Searching S A) : Searching S A :=
  let reward := agent.rewardFn k state
  let root := if agent.terminalReward ≤ reward then s.root.relabel LATSNode.terminate p else s.root
  { root := root.along (LATSNode.visit reward) p
    evaluations := s.evaluations ++ [(p, reward)] }

/-- `_one_simulation`: select, expand, simulate, backpropagate. -/
def oneSimulation (k : Nat) (s : Searching S A) : Searching S A :=
  let (p, n) := agent.select k [] s.root
  if !n.label.isTerminal && decide (0 < n.label.visits) && decide (p.length < agent.maxDepth) then
    let new := agent.expand k n.label
    let grown := { s with root := s.root.graft new p }
    match (n.children ++ new.map Rose.leaf).head? with
    | none => agent.evaluate k p n.label.state grown
    | some c => agent.evaluate k (p ++ [0]) c.label.state grown
  else agent.evaluate k p n.label.state s

def loop (timeUp budgetGuard : Option (Nat → Bool)) :
    Nat → Nat → Searching S A → Nat × Searching S A
  | 0, total, s => (total, s)
  | n + 1, total, s =>
    if timeUp.any fun up => up total then (total, s)
    else if decide (1 ≤ total) && budgetGuard.any fun guard => !guard total then (total, s)
    else loop timeUp budgetGuard n (total + 1) (agent.oneSimulation total s)

def start (initial : S) : Searching S A := { root := .leaf { state := initial, action := none } }

/-- `_best_path`: follow the child with the best average reward at each level. -/
def bestPath (t : SearchTree S A) : List (SearchTree S A) :=
  match _h : t.children.argmax fun c => c.label.average with
  | none => []
  | some c => c :: bestPath c
termination_by sizeOf t
decreasing_by exact Rose.lt_of_mem (List.argmax_mem _h)

/-- `_tree_depth` -/
def treeDepth (t : SearchTree S A) : Nat :=
  if t.children.isEmpty then 0
  else 1 + (t.children.attach.map fun c => treeDepth c.1).max?.getD 0
termination_by sizeOf t
decreasing_by exact Rose.lt_of_mem c.2

def outcome (total : Nat) (root : SearchTree S A) : Except LATSError (LATSResult S A) :=
  if total = 0 then .error .noSimulations
  else
    match (bestPath root).getLast? with
    | none => .error .noChildren
    | some leaf =>
      .ok {
        bestActionSequence := (bestPath root).filterMap fun n => n.label.action
        finalState := leaf.label.state
        totalSimulations := total
        bestReward := if leaf.label.visits = 0 then 0 else leaf.label.reward / leaf.label.visits
        searchTreeDepth := treeDepth root }

def search (timeUp budgetGuard : Option (Nat → Bool)) (initial : S) :
    Except LATSError (LATSResult S A) :=
  let (total, s) := agent.loop timeUp budgetGuard agent.maxSimulations 0 (start initial)
  outcome total s.root

def after (initial : S) : Nat → Searching S A
  | 0 => start initial
  | k + 1 => agent.oneSimulation k (after initial k)

/-- What holds of the tree as long as a node may have been given children that are not yet
visited. -/
structure Grown (initial : S) (s : Searching S A) : Prop where
  visits : Rose.Tallied LATSNode.visits s.root (s.evaluations.map fun e => (e.1, 1))
  rewards : Rose.Tallied LATSNode.reward s.root s.evaluations
  depth : ∀ p a, s.root.labelAt p = some a → p.length ≤ agent.maxDepth
  root : s.root.label.state = initial
  linked : ∀ p i a b, s.root.labelAt p = some a → s.root.labelAt (p ++ [i]) = some b →
    b.state = agent.transitionFn a.state b.action

def VisitedBelow (s : Searching S A) (p : List Nat) : Prop :=
  ∃ j c, s.root.labelAt (p ++ [j]) = some c ∧ 0 < c.visits

/-- What holds of the tree after every simulation. -/
structure Sound (initial : S) (s : Searching S A) : Prop extends agent.Grown initial s where
  visitedChild : ∀ p i b, s.root.labelAt (p ++ [i]) = some b → VisitedBelow s p

variable {agent}

theorem select_spec (agent : LATSAgent S A) (k : Nat) {root t : SearchTree S A}
    (h : root.subtree p = some t) :
    root.subtree (agent.select k p t).1 = some (agent.select k p t).2 ∧
      ((agent.select k p t).2.children = [] ∨ (agent.select k p t).2.label.isTerminal = true) := by
  fun_induction agent.select k p t with
  | case1 p t hstop =>
    refine ⟨h, ?_⟩
    rw [Bool.or_eq_true, List.isEmpty_iff] at hstop
    exact hstop
  | case2 p t hstop hnone =>
    rw [Bool.or_eq_true, List.isEmpty_iff, not_or] at hstop
    obtain ⟨c, hc, _⟩ := agent.choose_max k p t hstop.1
    rw [hnone] at hc
    cases hc
  | case3 p t hstop c hc ih => exact ih ((Rose.subtree_child h _).trans hc)

theorem labelAt_evaluate (agent : LATSAgent S A) (k : Nat) (p : List Nat) (state : S)
    (s : Searching S A) (q : List Nat) :
    ∃ f : LATSNode S A → LATSNode S A,
      (agent.evaluate k p state s).root.labelAt q = (s.root.labelAt q).map f ∧
      ∀ a, (f a).state = a.state ∧ (f a).action = a.action ∧
        (f a).visits = a.visits + if q <+: p then 1 else 0 := by
  simp only [evaluate, Rose.labelAt_along]
  by_cases hr : agent.terminalReward ≤ agent.rewardFn k state
  · rw [if_pos hr, Rose.labelAt_relabel, Option.map_map]
    refine ⟨_, rfl, fun a => ?_⟩
    by_cases hq : q <+: p <;> by_cases heq : q = p <;>
      simp [hq, heq, LATSNode.visit, LATSNode.terminate]
  · rw [if_neg hr]
    refine ⟨_, rfl, fun a => ?_⟩
    by_cases hq : q <+: p <;> simp [hq, LATSNode.visit]

theorem labelAt_of_evaluate {s : Searching S A}
    (h : (agent.evaluate k p state s).root.labelAt q = some b) :
    ∃ a, s.root.labelAt q = some a ∧ b.state = a.state ∧ b.action = a.action ∧
      b.visits = a.visits + if q <+: p then 1 else 0 := by
  obtain ⟨f, hf, hkeeps⟩ := labelAt_evaluate agent k p state s q
  rw [hf] at h
  obtain ⟨a, ha, rfl⟩ := Option.map_eq_some_iff.1 h
  exact ⟨a, ha, hkeeps a⟩

theorem evaluate_of_labelAt {s : Searching S A} (h : s.root.labelAt q = some a) :
    ∃ b, (agent.evaluate k p state s).root.labelAt q = some b ∧
      b.visits = a.visits + if q <+: p then 1 else 0 := by
  obtain ⟨f, hf, hkeeps⟩ := labelAt_evaluate agent k p state s q
  exact ⟨f a, by rw [hf, h, Option.map_some], (hkeeps a).2.2⟩

theorem Grown.start (initial : S) : agent.Grown initial (start initial) where
  visits := .leaf rfl
  rewards := .leaf rfl
  depth p a h := by
    cases p with
    | nil => exact Nat.zero_le _
    | cons i p => simp [LATSAgent.start, Rose.labelAt_cons, Rose.leaf, Rose.children] at h
  root := rfl
  linked p i a b _ h := by
    cases p <;> simp [LATSAgent.start, Rose.labelAt_cons, Rose.leaf, Rose.children] at h

theorem tallied_evaluate [AddCommMonoid M] {w : LATSNode S A → M} {m : Rat → M}
    {s : Searching S A} (h : Rose.Tallied w s.root log) (hp : s.root.labelAt p = some a)
    (hterminate : ∀ n, w (LATSNode.terminate n) = w n)
    (hvisit : ∀ r n, w (LATSNode.visit r n) = w n + m r) :
    Rose.Tallied w (agent.evaluate k p state s).root
      (log ++ [(p, m (agent.rewardFn k state))]) := by
  rw [evaluate]
  by_cases hr : agent.terminalReward ≤ agent.rewardFn k state
  · have hmarked : (s.root.relabel LATSNode.terminate p).labelAt p = some a.terminate := by
      rw [Rose.labelAt_relabel, hp, Option.map_some, if_pos rfl]
    simp only [if_pos hr]
    exact (h.relabel hterminate).along hmarked (hvisit _)
  · simp only [if_neg hr]
    exact h.along hp (hvisit _)

theorem Grown.evaluate {s : Searching S A} (h : agent.Grown initial s)
    (hp : s.root.labelAt p = some a) :
    agent.Grown initial (agent.evaluate k p state s) where
  visits := by
    rw [LATSAgent.evaluate, List.map_append]
    exact tallied_evaluate (m := fun _ => 1) h.visits hp (fun _ => rfl) fun _ _ => rfl
  rewards := tallied_evaluate (m := id) h.rewards hp (fun _ => rfl) fun _ _ => rfl
  depth q b hb := by
    obtain ⟨a, ha, _⟩ := labelAt_of_evaluate hb
    exact h.depth q a ha
  root := by
    obtain ⟨a, ha, hstate, _⟩ := labelAt_of_evaluate (Rose.labelAt_nil _)
    rw [Rose.labelAt_nil, Option.some.injEq] at ha
    rw [hstate, ← ha, h.root]
  linked q i b c hb hc := by
    obtain ⟨b', hb', hstate, _⟩ := labelAt_of_evaluate hb
    obtain ⟨c', hc', hchild, haction, _⟩ := labelAt_of_evaluate hc
    rw [hchild, hstate, haction]
    exact h.linked q i b' c' hb' hc'

theorem fresh_of_mem_expand (h : a ∈ agent.expand k n) : a.visits = 0 ∧ a.reward = 0 ∧
    a.state = agent.transitionFn n.state a.action := by
  obtain ⟨action, _, rfl⟩ := List.mem_map.1 h
  exact ⟨rfl, rfl, rfl⟩

theorem labelAt_graft_old {t : SearchTree S A} (hs : t.subtree p = some s)
    (h : t.labelAt q = some a) (new : List (LATSNode S A)) :
    (t.graft new p).labelAt q = some a := (Rose.labelAt_graft hs new).2 (Or.inl h)

theorem Grown.graft {s : Searching S A} (h : agent.Grown initial s)
    (hn : s.root.subtree p = some n) (hdepth : p.length < agent.maxDepth) :
    agent.Grown initial { s with root := s.root.graft (agent.expand k n.label) p } where
  visits := h.visits.graft hn fun a ha => (fresh_of_mem_expand ha).1
  rewards := h.rewards.graft hn fun a ha => (fresh_of_mem_expand ha).2.1
  depth q a ha := by
    cases (Rose.labelAt_graft hn _).1 ha with
    | inl ha => exact h.depth q a ha
    | inr ha =>
      obtain ⟨j, rfl, _⟩ := ha
      rw [List.length_append, List.length_singleton]
      exact hdepth
  root := by
    have hkept := labelAt_graft_old hn (Rose.labelAt_nil s.root) (agent.expand k n.label)
    rw [Rose.labelAt_nil, Option.some.injEq] at hkept
    exact (congrArg LATSNode.state hkept).trans h.root
  linked q i a b ha hb := by
    cases (Rose.labelAt_graft hn _).1 hb with
    | inl hb =>
      obtain ⟨a', ha'⟩ := Rose.labelAt_of_append hb
      rw [labelAt_graft_old hn ha', Option.some.injEq] at ha
      subst ha
      exact h.linked q i a' b ha' hb
    | inr hb =>
      obtain ⟨j, hq, hj⟩ := hb
      obtain ⟨rfl, _⟩ := List.append_inj' hq rfl
      rw [labelAt_graft_old hn (Rose.labelAt_of_subtree hn), Option.some.injEq] at ha
      subst ha
      exact (fresh_of_mem_expand (List.mem_of_getElem? hj)).2.2

theorem VisitedBelow.evaluate {s : Searching S A} (h : VisitedBelow s q) :
    VisitedBelow (agent.evaluate k p state s) q := by
  obtain ⟨j, c, hc, hvisits⟩ := h
  obtain ⟨d, hd, heq⟩ := evaluate_of_labelAt hc
  exact ⟨j, d, hd, by omega⟩

theorem Sound.evaluate {s : Searching S A} (h : agent.Sound initial s)
    (hp : s.root.labelAt p = some a) : agent.Sound initial (agent.evaluate k p state s) where
  toGrown := h.toGrown.evaluate hp
  visitedChild q i b hb := by
    obtain ⟨a, ha, _⟩ := labelAt_of_evaluate hb
    exact (h.visitedChild q i a ha).evaluate

theorem Sound.expand {s : Searching S A} (h : agent.Sound initial s)
    (hn : s.root.subtree p = some n) (hdepth : p.length < agent.maxDepth)
    (hc : (s.root.graft (agent.expand k n.label) p).labelAt (p ++ [0]) = some c) :
    agent.Sound initial (agent.evaluate k (p ++ [0]) state
      { s with root := s.root.graft (agent.expand k n.label) p }) where
  toGrown := (h.toGrown.graft hn hdepth).evaluate hc
  visitedChild q i b hb := by
    obtain ⟨a, ha, _⟩ := labelAt_of_evaluate hb
    cases (Rose.labelAt_graft hn _).1 ha with
    | inl ha =>
      obtain ⟨j, d, hd, hvisits⟩ := h.visitedChild q i a ha
      exact VisitedBelow.evaluate ⟨j, d, labelAt_graft_old hn hd _, hvisits⟩
    | inr ha =>
      obtain ⟨j, hq, _⟩ := ha
      obtain ⟨rfl, _⟩ := List.append_inj' hq rfl
      obtain ⟨d, hd, hvisits⟩ :=
        evaluate_of_labelAt (s := { s with root := s.root.graft (agent.expand k n.label) q }) hc
      rw [if_pos List.prefix_rfl] at hvisits
      exact ⟨0, d, hd, by omega⟩

theorem Sound.expand_none {s : Searching S A} (h : agent.Sound initial s)
    (hn : s.root.subtree p = some n) (hdepth : p.length < agent.maxDepth)
    (hnone : agent.expand k n.label = []) :
    agent.Sound initial { s with root := s.root.graft (agent.expand k n.label) p } where
  toGrown := h.toGrown.graft hn hdepth
  visitedChild q i b hb := by
    cases (Rose.labelAt_graft hn _).1 hb with
    | inl hb =>
      obtain ⟨j, d, hd, hvisits⟩ := h.visitedChild q i b hb
      exact ⟨j, d, labelAt_graft_old hn hd _, hvisits⟩
    | inr hb =>
      obtain ⟨j, _, hj⟩ := hb
      rw [hnone] at hj
      cases hj

theorem Sound.oneSimulation {s : Searching S A} (h : agent.Sound initial s) :
    agent.Sound initial (agent.oneSimulation k s) := by
  obtain ⟨hn, hleaf⟩ := select_spec agent k (t := s.root) (p := []) rfl
  rw [LATSAgent.oneSimulation]
  generalize agent.select k [] s.root = chosen at hn hleaf
  obtain ⟨p, n⟩ := chosen
  by_cases hexpand : (!n.label.isTerminal && decide (0 < n.label.visits) &&
      decide (p.length < agent.maxDepth)) = true
  · simp only [if_pos hexpand]
    simp only [Bool.and_eq_true, Bool.not_eq_true', decide_eq_true_eq] at hexpand
    obtain ⟨⟨hopen, _⟩, hdepth⟩ := hexpand
    have hempty : n.children = [] := by
      cases hleaf with
      | inl hempty => exact hempty
      | inr hterminal => rw [hopen] at hterminal; cases hterminal
    rw [hempty, List.nil_append, List.head?_map]
    cases hhead : (agent.expand k n.label).head? with
    | none =>
      exact (h.expand_none hn hdepth (List.head?_eq_none_iff.1 hhead)).evaluate
        (labelAt_graft_old hn (Rose.labelAt_of_subtree hn) _)
    | some c =>
      rw [List.head?_eq_getElem?] at hhead
      refine h.expand hn hdepth ((Rose.labelAt_graft hn _).2 (Or.inr ⟨0, ?_, hhead⟩))
      rw [hempty, List.length_nil]
  · simp only [if_neg hexpand]
    exact h.evaluate (Rose.labelAt_of_subtree hn)

theorem Sound.start (initial : S) : agent.Sound initial (start initial) where
  toGrown := .start initial
  visitedChild p i b h := by
    cases p <;> simp [LATSAgent.start, Rose.labelAt_cons, Rose.leaf, Rose.children] at h

theorem sound_after (agent : LATSAgent S A) (initial : S) (k : Nat) :
    agent.Sound initial (agent.after initial k) := by
  induction k with
  | zero => exact .start initial
  | succ k ih => exact ih.oneSimulation

end LATSAgent
end Prismal.Agents
