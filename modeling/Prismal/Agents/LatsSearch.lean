import Mathlib.Algebra.GroupWithZero.Nat
import Mathlib.Tactic.NormNum
import Prismal.Agents.Lats

namespace Prismal.Agents.LATSAgent
open Prismal.Lib
set_option autoImplicit true

/-! What the tree search leaves behind and returns. -/

variable {agent : LATSAgent S A}

theorem select_bare {t : SearchTree S A} (h : t.children = []) :
    agent.select k p t = (p, t) := by
  rw [select, h]
  rfl

theorem length_evaluations (agent : LATSAgent S A) (initial : S) (k : Nat) :
    (agent.after initial k).evaluations.length = k := by
  induction k with
  | zero => rfl
  | succ k ih =>
    have hone : ∀ s : Searching S A,
        (agent.oneSimulation k s).evaluations.length = s.evaluations.length + 1 := by
      intro s
      simp only [oneSimulation, evaluate]
      split
      · split <;> simp
      · simp
    rw [after, hone, ih]

theorem bestPath_eq_nil {t : SearchTree S A} : bestPath t = [] ↔ t.children = [] := by
  rw [bestPath]
  split
  next h => simpa using h
  next c h =>
    apply Iff.intro
    · intro hnil
      cases hnil
    · intro hnil
      rw [hnil] at h
      cases h

theorem bestPath_chain (t : SearchTree S A) :
    (t :: bestPath t).IsChain fun n c => c ∈ n.children := by
  fun_induction bestPath t with
  | case1 t h => exact .singleton _
  | case2 t c h ih => exact .cons_cons (List.argmax_mem h) ih

theorem best_visited {t c d : SearchTree S A}
    (hc : c ∈ t.children.argmax fun c => c.label.average) (hd : d ∈ t.children)
    (hvisits : 0 < d.label.visits) : 0 < c.label.visits := by
  by_contra hnone
  have hzero : c.label.visits = 0 := by omega
  have hle := List.le_of_mem_argmax hd hc
  simp only [LATSNode.average] at hle
  rw [if_pos hzero, if_neg hvisits.ne'] at hle
  exact absurd hle (not_le_of_gt (WithBot.bot_lt_coe _))

theorem actions_cons (c : SearchTree S A) (path : List (SearchTree S A))
    (h : c.label.action = some a) :
    (c :: path).filterMap (fun n => n.label.action) = a :: path.filterMap fun n => n.label.action :=
  List.filterMap_cons_some h

theorem Sound.bestPath {s : Searching S A} (h : agent.Sound initial s)
    (ht : s.root.subtree p = some t) (hleaf : (bestPath t).getLast? = some leaf) :
    0 < leaf.label.visits ∧ leaf.children = [] ∧
      ((∀ n ∈ LATSAgent.bestPath t, n.label.action ≠ none) →
        leaf.label.state = ((LATSAgent.bestPath t).filterMap fun n => n.label.action).foldl
          (fun state a => agent.transitionFn state (some a)) t.label.state) := by
  fun_induction LATSAgent.bestPath t generalizing p with
  | case1 t hnone => cases hleaf
  | case2 t c hc ih =>
    obtain ⟨i, hi⟩ := List.mem_iff_getElem?.1 (List.argmax_mem hc)
    have hsub : s.root.subtree (p ++ [i]) = some c := (Rose.subtree_child ht i).trans hi
    have hlabel := Rose.labelAt_of_subtree hsub
    have hstep : ∀ a, c.label.action = some a →
        c.label.state = agent.transitionFn t.label.state (some a) := by
      intro a ha
      rw [h.linked p i _ _ (Rose.labelAt_of_subtree ht) hlabel, ha]
    cases hpath : LATSAgent.bestPath c with
    | nil =>
      rw [hpath] at hleaf
      cases hleaf
      obtain ⟨j, b, hb, hvisits⟩ := h.visitedChild p i _ hlabel
      rw [Rose.labelAt_child ht] at hb
      obtain ⟨d, hd, rfl⟩ := Option.map_eq_some_iff.1 hb
      refine ⟨best_visited hc (List.mem_of_getElem? hd) hvisits, bestPath_eq_nil.1 hpath, ?_⟩
      intro hactions
      obtain ⟨a, ha⟩ := Option.ne_none_iff_exists'.1 (hactions _ List.mem_cons_self)
      rw [actions_cons _ _ ha]
      exact hstep a ha
    | cons d path =>
      rw [hpath, List.getLast?_cons_cons, ← hpath] at hleaf
      obtain ⟨hvisits, hempty, hstate⟩ := ih hsub hleaf
      refine ⟨hvisits, hempty, ?_⟩
      intro hactions
      rw [← hpath] at hactions ⊢
      obtain ⟨a, ha⟩ := Option.ne_none_iff_exists'.1 (hactions _ List.mem_cons_self)
      rw [actions_cons _ _ ha, List.foldl_cons, ← hstep a ha]
      exact hstate fun n hn => hactions n (List.mem_cons_of_mem _ hn)

theorem treeDepth_leaf (n : LATSNode S A) : treeDepth (.leaf n) = 0 := by
  rw [treeDepth]
  rfl

theorem exists_deepest (t : SearchTree S A) :
    ∃ p s, t.subtree p = some s ∧ p.length = treeDepth t := by
  fun_induction treeDepth t with
  | case1 t h => exact ⟨[], t, rfl, rfl⟩
  | case2 t h ih =>
    generalize hdepths : t.children.attach.map (fun c => treeDepth c.1) = depths
    cases hmax : depths.max? with
    | none =>
      rw [List.max?_eq_none_iff.1 hmax, List.map_eq_nil_iff, List.attach_eq_nil_iff] at hdepths
      exact absurd (List.isEmpty_iff.2 hdepths) h
    | some m =>
      have hm := List.max?_mem hmax
      rw [← hdepths] at hm
      obtain ⟨c, _, rfl⟩ := List.mem_map.1 hm
      obtain ⟨p, s, hs, hp⟩ := ih c
      obtain ⟨i, hi⟩ := List.mem_iff_getElem?.1 c.2
      refine ⟨i :: p, s, ?_, ?_⟩
      · rw [Rose.subtree, hi]
        exact hs
      · rw [List.length_cons, hp, Option.getD_some, Nat.add_comm]

theorem treeDepth_le {s : Searching S A} (h : agent.Sound initial s) :
    treeDepth s.root ≤ agent.maxDepth := by
  obtain ⟨p, n, hn, hp⟩ := exists_deepest s.root
  rw [← hp]
  exact h.depth p _ (Rose.labelAt_of_subtree hn)

theorem Sound.counts {s : Searching S A} (h : agent.Sound initial s)
    (hn : s.root.subtree p = some n) :
    n.label.visits = s.evaluatedAt p + (n.children.map fun c => c.label.visits).sum := by
  have hat : Rose.loggedAt (s.evaluations.map fun e => (e.1, 1)) p = s.evaluatedAt p := by
    simp [Rose.loggedAt, Searching.evaluatedAt, List.filter_map, Function.comp_def]
  rw [h.visits.weight_children hn, hat]

theorem Sound.visits_root {s : Searching S A} (h : agent.Sound initial s) :
    s.root.label.visits = s.evaluations.length := by
  rw [h.visits.weight [] _ (Rose.labelAt_nil _), Rose.loggedBelow_root]
  simp [Function.comp_def]

theorem Sound.exists_visited {s : Searching S A} (h : agent.Sound initial s)
    (hn : s.root.subtree p = some n) (hne : n.children ≠ []) :
    ∃ c ∈ n.children, 0 < c.label.visits := by
  obtain ⟨c, cs, hcs⟩ := List.exists_cons_of_ne_nil hne
  have hfirst : s.root.labelAt (p ++ [0]) = some c.label := by
    rw [Rose.labelAt_child hn, hcs]
    rfl
  obtain ⟨j, d, hd, hvisits⟩ := h.visitedChild p 0 _ hfirst
  rw [Rose.labelAt_child hn] at hd
  obtain ⟨e, he, rfl⟩ := Option.map_eq_some_iff.1 hd
  exact ⟨e, List.mem_of_getElem? he, hvisits⟩

theorem loop_eq (agent : LATSAgent S A) (timeUp budgetGuard : Option (Nat → Bool)) (initial : S)
    (n k : Nat) : ∃ m, m ≤ k + n ∧
      agent.loop timeUp budgetGuard n k (agent.after initial k) = (m, agent.after initial m) := by
  induction n generalizing k with
  | zero => exact ⟨k, le_rfl, rfl⟩
  | succ n ih =>
    rw [loop]
    split
    · exact ⟨k, Nat.le_add_right _ _, rfl⟩
    · split
      · exact ⟨k, Nat.le_add_right _ _, rfl⟩
      · obtain ⟨m, hm, heq⟩ := ih (k + 1)
        exact ⟨m, by omega, heq⟩

/-- After every simulation the visits and the rewards of every node are those of the evaluations
at it and below it, and no node is deeper than allowed. The path that is returned is a chain of
children from the root to a visited leaf, to whose state its actions lead. -/
theorem search_statistics (agent : LATSAgent S A) (initial : S) :
    (∀ k, (agent.after initial k).root.label.visits = k ∧
      ∀ p n, (agent.after initial k).root.subtree p = some n →
        n.label.visits = (agent.after initial k).evaluatedAt p +
          (n.children.map fun c => c.label.visits).sum ∧
        n.label.reward = (agent.after initial k).rewardBelow p ∧
        (n.children ≠ [] → ∃ c ∈ n.children, 0 < c.label.visits) ∧
        p.length ≤ agent.maxDepth) ∧
    ∀ timeUp budgetGuard result, agent.search timeUp budgetGuard initial = .ok result →
      ∃ root path leaf, root = (agent.after initial result.totalSimulations).root ∧
        result.totalSimulations ≤ agent.maxSimulations ∧
        (root :: path).IsChain (fun n c => c ∈ n.children) ∧
        path.getLast? = some leaf ∧ leaf.children = [] ∧ 0 < leaf.label.visits ∧
        result.bestActionSequence = path.filterMap (fun n => n.label.action) ∧
        result.finalState = leaf.label.state ∧
        result.bestReward = leaf.label.reward / leaf.label.visits ∧
        result.searchTreeDepth ≤ agent.maxDepth ∧
        ((∀ n ∈ path, n.label.action ≠ none) →
          result.finalState = result.bestActionSequence.foldl
            (fun state a => agent.transitionFn state (some a)) initial) := by
  apply And.intro
  · intro k
    have hsound := sound_after agent initial k
    refine ⟨hsound.visits_root.trans (length_evaluations agent initial k), ?_⟩
    intro p n hn
    refine ⟨hsound.counts hn, ?_, hsound.exists_visited hn, ?_⟩
    · exact hsound.rewards.weight p _ (Rose.labelAt_of_subtree hn)
    · exact hsound.depth p _ (Rose.labelAt_of_subtree hn)
  · intro timeUp budgetGuard result h
    obtain ⟨m, hm, heq⟩ := loop_eq agent timeUp budgetGuard initial agent.maxSimulations 0
    rw [search, ← show agent.after initial 0 = start initial from rfl, heq] at h
    simp only [outcome] at h
    have hsound := sound_after agent initial m
    split at h
    · cases h
    · split at h
      · cases h
      next leaf hleaf =>
        cases h
        obtain ⟨hvisits, hempty, hstate⟩ := hsound.bestPath (p := []) rfl hleaf
        rw [hsound.root] at hstate
        refine ⟨_, _, leaf, rfl, hm.trans_eq (Nat.zero_add _), bestPath_chain _, hleaf, hempty,
          hvisits, rfl, rfl, ?_, treeDepth_le hsound, hstate⟩
        exact if_neg hvisits.ne'

def counting : LATSAgent Nat Nat where
  rewardFn _ n := n / 2
  actionGenerator _ _ := [some 1]
  transitionFn n a := n + a.getD 0
  explore _ _ := 0
  choose _ _ := firstGreatest fun _ _ => 0
  maxSimulations := 2
  maxDepth := 10
  terminalReward := 99 / 100
  one_le_maxSimulations := by decide
  one_le_maxDepth := by decide
  choose_max _ _ _ h := firstGreatest_max _ h

theorem counting_after : counting.after 0 2 =
    { root := .node { state := 0, action := none, reward := 1 / 2, visits := 2 }
        [.leaf { state := 1, action := some 1, reward := 1 / 2, visits := 1 }]
      evaluations := [([], 0), ([0], 1 / 2)] } := by
  have hfirst : counting.after 0 1 =
      { root := .leaf { state := 0, action := none, visits := 1 }, evaluations := [([], 0)] } := by
    rw [after, after, oneSimulation, select_bare rfl]
    norm_num [counting, start, evaluate, Rose.along, Rose.leaf, Rose.label, Rose.children,
      LATSNode.visit]
  rw [after, hfirst, oneSimulation, select_bare rfl]
  norm_num [counting, expand, evaluate, Rose.graft, Rose.along, Rose.leaf, Rose.label,
    Rose.children, LATSNode.visit]

theorem counting_result : counting.search none none 0 = .ok
    { bestActionSequence := [1], finalState := 1, totalSimulations := 2, bestReward := 1 / 2,
      searchTreeDepth := 1 } := by
  have hloop : counting.loop none none counting.maxSimulations 0 (start 0) =
      (2, counting.after 0 2) := rfl
  rw [search, hloop, counting_after]
  have hpath : bestPath (Rose.node (⟨0, none, 1 / 2, 2, false⟩ : LATSNode Nat Nat)
      [.leaf ⟨1, some 1, 1 / 2, 1, false⟩]) = [.leaf ⟨1, some 1, 1 / 2, 1, false⟩] := by
    rw [bestPath]
    simp [Rose.children, bestPath_eq_nil, Rose.leaf]
  have hdepth : treeDepth (Rose.node (⟨0, none, 1 / 2, 2, false⟩ : LATSNode Nat Nat)
      [.leaf ⟨1, some 1, 1 / 2, 1, false⟩]) = 1 := by
    rw [treeDepth]
    simp [Rose.children, treeDepth_leaf]
  dsimp only
  rw [outcome, if_neg (by decide), hpath, hdepth]
  simp [Rose.leaf, Rose.label]

theorem counting_statistics : (counting.after 0 2).root.label.visits = 2 ∧
    ∃ result, counting.search none none 0 = .ok result ∧
      result.totalSimulations ≤ counting.maxSimulations ∧
      result.searchTreeDepth ≤ counting.maxDepth := by
  have hstatistics := search_statistics counting 0
  refine ⟨(hstatistics.1 2).1, _, counting_result, ?_⟩
  obtain ⟨_, _, _, _, htotal, _, _, _, _, _, _, _, hdepth, _⟩ :=
    hstatistics.2 none none _ counting_result
  exact ⟨htotal, hdepth⟩

end Prismal.Agents.LATSAgent

namespace Prismal.Agents.LATSAgent
open Prismal.Lib
set_option autoImplicit true

/-! When the tree search raises. -/

variable {agent : LATSAgent S A}

def simulated (agent : LATSAgent S A) (timeUp budgetGuard : Option (Nat → Bool)) (initial : S) :
    Searching S A := (agent.loop timeUp budgetGuard agent.maxSimulations 0 (start initial)).2

def Vacuous (s : Searching S A) : Prop :=
  (∀ e ∈ s.evaluations, e.2 = 0) ∧ ∀ p n, s.root.subtree p = some n → n.children = []

/-- The cap and the budget let simulation `k` run, the first being numbered 0. -/
def Runs (agent : LATSAgent S A) (budgetGuard : Option (Nat → Bool)) (k : Nat) : Prop :=
  k < agent.maxSimulations ∧ ∀ j, 1 ≤ j → j ≤ k → ∀ guard ∈ budgetGuard, guard j = true

/-- Simulation `k` finds the initial state visited and not yet terminal, with an action to try. -/
def Opens (agent : LATSAgent S A) (initial : S) (k : Nat) : Prop :=
  1 ≤ k ∧ (∀ j < k, agent.rewardFn j initial < agent.terminalReward) ∧
    agent.actionGenerator k initial ≠ []

/-- The search after simulations that all evaluated the initial state. -/
structure Unopened (agent : LATSAgent S A) (initial : S) (k : Nat) (s : Searching S A) : Prop where
  bare : s.root.children = []
  terminal : s.root.label.isTerminal = true ↔
    ∃ j < k, agent.terminalReward ≤ agent.rewardFn j initial
  evaluations : s.evaluations = (List.range k).map fun j => ([], agent.rewardFn j initial)

theorem root_evaluate (s : Searching S A) :
    (agent.evaluate k [] state s).root.children = s.root.children ∧
      ((agent.evaluate k [] state s).root.label.isTerminal = true ↔
        s.root.label.isTerminal = true ∨ agent.terminalReward ≤ agent.rewardFn k state) := by
  simp only [evaluate, Rose.along]
  by_cases hr : agent.terminalReward ≤ agent.rewardFn k state
  · simp [hr, Rose.relabel, Rose.children, Rose.label, LATSNode.visit, LATSNode.terminate]
  · simp [hr, Rose.children, Rose.label, LATSNode.visit]

theorem Unopened.evaluate {s : Searching S A} (h : agent.Unopened initial k s) :
    agent.Unopened initial (k + 1) (agent.evaluate k [] initial s) where
  bare := (root_evaluate s).1.trans h.bare
  terminal := by
    rw [(root_evaluate s).2, h.terminal]
    apply Iff.intro
    · intro hor
      cases hor with
      | inl hearlier =>
        obtain ⟨j, hj, hr⟩ := hearlier
        exact ⟨j, by omega, hr⟩
      | inr hr => exact ⟨k, Nat.lt_succ_self k, hr⟩
    · intro hex
      obtain ⟨j, hj, hr⟩ := hex
      by_cases hjk : j = k
      · exact Or.inr (hjk ▸ hr)
      · exact Or.inl ⟨j, by omega, hr⟩
  evaluations := by
    rw [LATSAgent.evaluate, List.range_succ, List.map_append, ← h.evaluations]
    rfl

theorem Unopened.oneSimulation {s : Searching S A} (h : agent.Unopened initial k s)
    (hsound : agent.Sound initial s) (hk : ¬ agent.Opens initial k) :
    agent.Unopened initial (k + 1) (agent.oneSimulation k s) := by
  have hvisits : s.root.label.visits = k := by
    rw [hsound.visits_root, h.evaluations, List.length_map, List.length_range]
  rw [LATSAgent.oneSimulation, select_bare h.bare]
  simp only [h.bare, List.nil_append, hsound.root]
  split
  next hexpand =>
    simp only [Bool.and_eq_true, Bool.not_eq_true', decide_eq_true_eq, hvisits] at hexpand
    have hnone : agent.expand k s.root.label = [] := by
      rw [expand, hsound.root, List.map_eq_nil_iff]
      by_contra hne
      refine hk ⟨hexpand.1.2, ?_, hne⟩
      intro j hj
      by_contra hr
      have hterminal := h.terminal.2 ⟨j, hj, not_lt.1 hr⟩
      rw [hexpand.1.1] at hterminal
      cases hterminal
    rw [hnone]
    refine Unopened.evaluate ⟨?_, h.terminal, h.evaluations⟩
    rw [Rose.graft, Rose.children, List.map_nil, List.append_nil, h.bare]
  next => exact h.evaluate

theorem unopened_after (h : ∀ j < k, ¬ agent.Opens initial j) :
    agent.Unopened initial k (agent.after initial k) := by
  induction k with
  | zero =>
    refine ⟨rfl, ?_, rfl⟩
    simp [after, start, Rose.leaf, Rose.label]
  | succ k ih =>
    exact (ih fun j hj => h j (by omega)).oneSimulation (sound_after agent initial k)
      (h k (Nat.lt_succ_self k))

theorem children_ne_nil {t : SearchTree S A} :
    t.children ≠ [] ↔ ∃ a, t.labelAt [0] = some a := by
  rw [Rose.labelAt_cons]
  cases t.children with
  | nil => simp
  | cons c cs => simp

theorem opened_oneSimulation {s : Searching S A} (h : s.root.children ≠ []) :
    (agent.oneSimulation k s).root.children ≠ [] := by
  obtain ⟨a, ha⟩ := children_ne_nil.1 h
  obtain ⟨hn, _⟩ := select_spec agent k (t := s.root) (p := []) rfl
  rw [oneSimulation, children_ne_nil]
  generalize agent.select k [] s.root = chosen at hn
  obtain ⟨p, n⟩ := chosen
  have hkept := labelAt_graft_old hn ha (agent.expand k n.label)
  dsimp only
  split
  · split
    all_goals
      exact (evaluate_of_labelAt (s := { s with root := s.root.graft (agent.expand k n.label) p })
        hkept).imp fun b hb => hb.1
  · exact (evaluate_of_labelAt ha).imp fun b hb => hb.1

theorem opened_of_opens (h : agent.Opens initial k) (hfirst : ∀ j < k, ¬ agent.Opens initial j) :
    (agent.after initial (k + 1)).root.children ≠ [] := by
  have hbare := unopened_after hfirst
  have hsound := sound_after agent initial k
  have hvisits := hsound.visits_root.trans (length_evaluations agent initial k)
  have hopen : (agent.after initial k).root.label.isTerminal = false := by
    rw [Bool.eq_false_iff, ne_eq, hbare.terminal]
    intro hterminal
    obtain ⟨j, hj, hr⟩ := hterminal
    exact absurd (h.2.1 j hj) (not_lt.2 hr)
  rw [after, oneSimulation, select_bare hbare.bare]
  have hexpand : (!(agent.after initial k).root.label.isTerminal &&
      decide (0 < (agent.after initial k).root.label.visits) &&
      decide (([] : List Nat).length < agent.maxDepth)) = true := by
    simp only [hopen, hvisits, Bool.and_eq_true, decide_eq_true_eq, Bool.not_false, List.length_nil]
    exact ⟨⟨trivial, h.1⟩, agent.one_le_maxDepth⟩
  simp only [if_pos hexpand, hbare.bare, List.nil_append]
  have hne : agent.expand k (agent.after initial k).root.label ≠ [] := by
    rw [expand, hsound.root, ne_eq, List.map_eq_nil_iff]
    exact h.2.2
  obtain ⟨c, cs, hcs⟩ := List.exists_cons_of_ne_nil hne
  simp only [hcs, List.map_cons, List.head?_cons, evaluate]
  split
  all_goals simp [Rose.along, Rose.relabel, Rose.graft, Rose.children]

theorem opened_after (agent : LATSAgent S A) (initial : S) (k : Nat) :
    (agent.after initial k).root.children ≠ [] ↔ ∃ j < k, agent.Opens initial j := by
  induction k with
  | zero => simp [after, start, Rose.leaf, Rose.children]
  | succ k ih =>
    by_cases hex : ∃ j < k, agent.Opens initial j
    · obtain ⟨j, hj, h⟩ := hex
      exact ⟨fun _ => ⟨j, by omega, h⟩, fun _ => opened_oneSimulation (ih.2 ⟨j, hj, h⟩)⟩
    · have hfirst : ∀ j < k, ¬ agent.Opens initial j := fun j hj h => hex ⟨j, hj, h⟩
      by_cases hk : agent.Opens initial k
      · exact ⟨fun _ => ⟨k, Nat.lt_succ_self k, hk⟩, fun _ => opened_of_opens hk hfirst⟩
      · have hnone : ∀ j < k + 1, ¬ agent.Opens initial j := by
          intro j hj h
          by_cases hjk : j = k
          · exact hk (hjk ▸ h)
          · exact hfirst j (by omega) h
        apply Iff.intro
        · intro hne
          exact absurd (unopened_after hnone).bare hne
        · intro hopen
          obtain ⟨j, hj, h⟩ := hopen
          exact absurd h (hnone j hj)

theorem loop_runs (agent : LATSAgent S A) (initial : S) {budgetGuard : Option (Nat → Bool)}
    (hn : k + n = agent.maxSimulations)
    (hruns : ∀ j < k, agent.Runs budgetGuard j) :
    ∃ m, agent.loop none budgetGuard n k (agent.after initial k) = (m, agent.after initial m) ∧
      ∀ j, j < m ↔ agent.Runs budgetGuard j := by
  induction n generalizing k with
  | zero =>
    refine ⟨k, rfl, fun j => ⟨hruns j, ?_⟩⟩
    intro hj
    have hlt := hj.1
    omega
  | succ n ih =>
    rw [loop, Option.any_none, if_neg Bool.false_ne_true]
    by_cases hstop : (decide (1 ≤ k) && budgetGuard.any fun guard => !guard k) = true
    · rw [if_pos hstop]
      refine ⟨k, rfl, fun j => ⟨hruns j, ?_⟩⟩
      intro hj
      rw [Bool.and_eq_true, decide_eq_true_eq, Option.any_eq_true] at hstop
      obtain ⟨hk, guard, hguard, hdenied⟩ := hstop
      by_contra hjk
      have hallowed := hj.2 k hk (Nat.le_of_not_lt hjk) guard hguard
      rw [hallowed] at hdenied
      cases hdenied
    · rw [if_neg hstop]
      apply ih (by omega)
      intro j hj
      by_cases hjk : j < k
      · exact hruns j hjk
      · have heq : j = k := by omega
        subst heq
        refine ⟨by omega, ?_⟩
        intro i hi hij guard hguard
        by_cases hlt : i < j
        · exact (hruns i hlt).2 i hi le_rfl guard hguard
        · have heq : i = j := by omega
          subst heq
          by_contra hdenied
          refine hstop ?_
          rw [Bool.and_eq_true, decide_eq_true_eq, Option.any_eq_true]
          exact ⟨hi, guard, hguard, by rw [Bool.eq_false_of_not_eq_true hdenied]; rfl⟩

theorem runs_zero (agent : LATSAgent S A) (budgetGuard : Option (Nat → Bool)) :
    agent.Runs budgetGuard 0 :=
  ⟨agent.one_le_maxSimulations, fun j hj hj' => by omega⟩

theorem search_runs (agent : LATSAgent S A) (budgetGuard : Option (Nat → Bool)) (initial : S) :
    ∃ m, (∀ j, j < m ↔ agent.Runs budgetGuard j) ∧
      agent.simulated none budgetGuard initial = agent.after initial m ∧
      ((∃ e, agent.search none budgetGuard initial = .error e) ↔
        ¬ ∃ j < m, agent.Opens initial j) := by
  obtain ⟨m, hloop, hm⟩ := loop_runs agent initial (k := 0) (Nat.zero_add _)
    fun j hj => (show agent.Runs budgetGuard j by omega)
  refine ⟨m, hm, congrArg Prod.snd hloop, ?_⟩
  have hpos : m ≠ 0 := ((hm 0).2 (runs_zero agent budgetGuard)).ne'
  rw [search, ← show agent.after initial 0 = start initial from rfl, hloop, ← opened_after]
  simp only [outcome, if_neg hpos]
  rw [not_ne_iff, ← bestPath_eq_nil]
  cases hpath : bestPath (agent.after initial m).root with
  | nil => simp
  | cons c path =>
    rw [List.getLast?_eq_getLast_of_ne_nil (List.cons_ne_nil c path)]
    simp

theorem vacuous_after (agent : LATSAgent S A) (initial : S) (k : Nat) :
    Vacuous (agent.after initial k) ↔
      (¬ ∃ j < k, agent.Opens initial j) ∧ ∀ j < k, agent.rewardFn j initial = 0 := by
  by_cases hex : ∃ j < k, agent.Opens initial j
  · have hne := (opened_after agent initial k).2 hex
    exact ⟨fun h => absurd (h.2 [] _ rfl) hne, fun h => absurd hex h.1⟩
  · have hbare := unopened_after fun j hj h => hex ⟨j, hj, h⟩
    apply Iff.intro
    · intro h
      refine ⟨hex, fun j hj => h.1 ([], _) ?_⟩
      rw [hbare.evaluations]
      exact List.mem_map.2 ⟨j, List.mem_range.2 hj, rfl⟩
    · intro h
      apply And.intro
      · intro e he
        rw [hbare.evaluations] at he
        obtain ⟨j, hj, rfl⟩ := List.mem_map.1 he
        exact h.2 j (List.mem_range.1 hj)
      · intro p n hn
        cases p with
        | nil =>
          cases hn
          exact hbare.bare
        | cons i p =>
          rw [Rose.subtree, hbare.bare] at hn
          cases hn

/-- Raising means that the search came to nothing if and only if a simulation opens the root, or
the initial state has no reward but zero. -/
theorem search_raises_iff (agent : LATSAgent S A) (budgetGuard : Option (Nat → Bool))
    (initial : S) :
    ((∃ e, agent.search none budgetGuard initial = .error e) ↔
        Vacuous (agent.simulated none budgetGuard initial)) ↔
      (∃ k, agent.Runs budgetGuard k ∧ agent.Opens initial k) ∨
        ∀ k, agent.Runs budgetGuard k → agent.rewardFn k initial = 0 := by
  obtain ⟨m, hm, hsimulated, hraises⟩ := search_runs agent budgetGuard initial
  rw [hraises, hsimulated, vacuous_after]
  simp only [← hm]
  apply Iff.intro
  · intro h
    by_cases hex : ∃ j < m, agent.Opens initial j
    · exact Or.inl hex
    · exact Or.inr (h.1 hex).2
  · intro h
    cases h with
    | inl hex => exact ⟨fun hnone => absurd hex hnone, fun hnone => absurd hex hnone.1⟩
    | inr hzero => exact ⟨fun hnone => ⟨hnone, hzero⟩, fun hnone => hnone.1⟩

def satisfied : LATSAgent Nat Nat := { counting with rewardFn := fun _ _ => 1 }

/-- The initial state reaches the terminal reward, and the search raises. -/
theorem satisfied_raises : (∃ e, satisfied.search none none 0 = .error e) ∧
    satisfied.terminalReward ≤ satisfied.rewardFn 0 0 ∧
    ¬ ((∃ e, satisfied.search none none 0 = .error e) ↔
      Vacuous (satisfied.simulated none none 0)) := by
  obtain ⟨m, hm, hsimulated, hraises⟩ := search_runs satisfied none 0
  have hterminal : satisfied.terminalReward ≤ satisfied.rewardFn 0 0 := by
    norm_num [satisfied, counting]
  have hclosed : ¬ ∃ j < m, satisfied.Opens 0 j := by
    intro hex
    obtain ⟨j, _, hj, hlow, _⟩ := hex
    exact absurd (hlow 0 hj) (not_lt.2 hterminal)
  refine ⟨hraises.2 hclosed, hterminal, ?_⟩
  intro hiff
  have hvacuous := hiff.1 (hraises.2 hclosed)
  rw [hsimulated, vacuous_after] at hvacuous
  have hzero := hvacuous.2 0 ((hm 0).2 (runs_zero satisfied none))
  exact absurd hzero one_ne_zero

end Prismal.Agents.LATSAgent
