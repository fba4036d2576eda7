import Mathlib.Tactic.NormNum
import Prismal.Agents.TreeOfThoughts

namespace Prismal.Agents.TreeOfThoughts
open Prismal.Lib
set_option autoImplicit true

/-! What each strategy of the tree of thoughts ends at. -/

variable {q : TreeOfThoughts}

def Below (q : TreeOfThoughts) (s : Exploration) : Prop :=
  ∀ t ∈ s.thoughts, t.id ≠ 0 → t.score < q.threshold

/-- No thought but the root has a higher score. -/
structure IsBest (t : Thought) (thoughts : List Thought) : Prop where
  mem : t ∈ thoughts
  notRoot : t.id ≠ 0
  greatest : ∀ u ∈ thoughts, u.id ≠ 0 → u.score ≤ t.score

def AtDepth (s : Exploration) (d : Nat) (nodes : List Thought) : Prop :=
  ∀ t ∈ nodes, t ∈ s.thoughts ∧ t.depth = d

/-- New thoughts behind those of an exploration. -/
structure Adds (s s' : Exploration) (d : Nat) (new : List Thought) : Prop where
  thoughts : s'.thoughts = s.thoughts ++ new
  fresh : ∀ t ∈ new, t.id ≠ 0 ∧ t.depth = d

theorem Adds.trans (h : Adds s s' d new) (h' : Adds s' s'' d more) :
    Adds s s'' d (new ++ more) where
  thoughts := by rw [h'.thoughts, h.thoughts, List.append_assoc]
  fresh t ht := by
    cases List.mem_append.1 ht with
    | inl ht => exact h.fresh t ht
    | inr ht => exact h'.fresh t ht

theorem Adds.atDepth (h : Adds s s' d new) (hsub : ∀ t ∈ nodes, t ∈ new) :
    AtDepth s' d nodes := by
  intro t ht
  rw [h.thoughts]
  exact ⟨List.mem_append_right _ (hsub t ht), (h.fresh t (hsub t ht)).2⟩

theorem Adds.below (h : Adds s s' d new) (hs : q.Below s)
    (hnew : ∀ t ∈ new, ¬ q.reaches t = true) : q.Below s' := by
  intro t ht hid
  rw [h.thoughts] at ht
  cases List.mem_append.1 ht with
  | inl ht => exact hs t ht hid
  | inr ht =>
    have hlow := hnew t ht
    rw [reaches, decide_eq_true_eq, not_le] at hlow
    exact hlow

theorem Adds.isBest (h : Adds s s' d new) (hs : q.Below s) (ht : t ∈ new)
    (hreaches : q.reaches t = true) (hgreatest : ∀ u ∈ new, u.score ≤ t.score) :
    IsBest t s'.thoughts where
  mem := by
    rw [h.thoughts]
    exact List.mem_append_right _ ht
  notRoot := (h.fresh t ht).1
  greatest u hu hid := by
    rw [h.thoughts] at hu
    cases List.mem_append.1 hu with
    | inl hu => exact (hs u hu hid).le.trans (of_decide_eq_true hreaches)
    | inr hu => exact hgreatest u hu

theorem adds_expandNode {s : Exploration} (h : q.Grown s) (node : Thought) :
    Adds s (q.expandNode node s).2 (node.depth + 1) (q.expandNode node s).1 where
  thoughts := rfl
  fresh t ht := by
    obtain ⟨i, hi⟩ := List.mem_iff_getElem?.1 ht
    obtain ⟨hid, _, hdepth⟩ := mem_expandNode hi
    have hpos := h.length_pos
    exact ⟨by omega, hdepth⟩

theorem expandEach_spec {s : Exploration} (h : q.Grown s) (hnodes : AtDepth s d nodes)
    (hd : d < q.depth.toNat) :
    q.Grown (q.expandEach nodes s).2 ∧
      Adds s (q.expandEach nodes s).2 (d + 1) (q.expandEach nodes s).1.flatten := by
  induction nodes generalizing s with
  | nil => exact ⟨h, ⟨(List.append_nil _).symm, fun t ht => by cases ht⟩⟩
  | cons node nodes ih =>
    obtain ⟨hmem, hdepth⟩ := hnodes node List.mem_cons_self
    have hgrown := h.expandNode hmem (hdepth ▸ hd)
    have hadds := adds_expandNode h node
    rw [hdepth] at hadds
    have hrest : AtDepth (q.expandNode node s).2 d nodes := by
      intro t ht
      obtain ⟨hin, heq⟩ := hnodes t (List.mem_cons_of_mem _ ht)
      exact ⟨List.mem_append_left _ hin, heq⟩
    obtain ⟨hgrown', hadds'⟩ := ih hgrown hrest
    exact ⟨hgrown', hadds.trans hadds'⟩

theorem calls_expandEach (q : TreeOfThoughts) (nodes : List Thought) (s : Exploration) :
    (q.expandEach nodes s).2.generated.length = s.generated.length + nodes.length := by
  induction nodes generalizing s with
  | nil => rfl
  | cons node nodes ih =>
    have hone : (q.expandNode node s).2.generated.length = s.generated.length + 1 :=
      List.length_append
    have hrest := ih (q.expandNode node s).2
    rw [hone] at hrest
    rw [expandEach, hrest, List.length_cons, Nat.add_assoc, Nat.add_comm 1]

theorem gate_spec (q : TreeOfThoughts) (c : Prop) [Decidable c] (level : Nat) (s : Exploration) :
    ∃ allowed n, (if c then q.budgetAllows level s else (true, s)) =
      (allowed, { s with guardCalls := n }) := by
  split
  · rw [budgetAllows]
    split
    · exact ⟨true, s.guardCalls, rfl⟩
    · exact ⟨_, _, rfl⟩
  · exact ⟨true, s.guardCalls, rfl⟩

theorem Grown.counted {s : Exploration} (h : q.Grown s) (n : Nat) :
    q.Grown { s with guardCalls := n } := ⟨h.toRooted, h.deep, h.contents⟩

theorem greatest_spec (h : greatest thoughts = some t) :
    t ∈ thoughts ∧ ∀ u ∈ thoughts, u.score ≤ t.score :=
  ⟨List.argmax_mem h, fun _ hu => List.le_of_mem_argmax hu h⟩

theorem mem_byScore : t ∈ byScore thoughts ↔ t ∈ thoughts := (perm_sortBy _ _).mem_iff

theorem not_reaches_of_le (hlow : ¬ q.reaches t = true) (hle : u.score ≤ t.score) :
    ¬ q.reaches u = true := by
  rw [reaches, decide_eq_true_eq] at hlow ⊢
  exact fun h => hlow (h.trans hle)

theorem beamSearch_spec {s : Exploration} {frontier : List Thought} (h : q.Grown s)
    (hbelow : q.Below s) (hfrontier : AtDepth s d frontier) (hd : d + n = q.depth.toNat) :
    q.Grown (q.beamSearch n d frontier s).2 ∧
      ∀ t, (q.beamSearch n d frontier s).1 = some t →
        IsBest t (q.beamSearch n d frontier s).2.thoughts := by
  induction n generalizing d frontier s with
  | zero => exact ⟨h, fun t ht => by cases ht⟩
  | succ n ih =>
    rw [beamSearch]
    obtain ⟨allowed, k, hgate⟩ := gate_spec q (0 < d) d s
    rw [hgate]
    cases allowed with
    | false => exact ⟨h.counted k, fun t ht => by cases ht⟩
    | true =>
      obtain ⟨hgrown, hadds⟩ := expandEach_spec (h.counted k)
        (show AtDepth { s with guardCalls := k } d frontier from hfrontier) (by omega)
      simp only [Bool.not_true, Bool.false_eq_true, if_false]
      cases hbest : greatest (q.expandEach frontier { s with guardCalls := k }).1.flatten with
      | none => exact ⟨hgrown, fun t ht => by cases ht⟩
      | some best =>
        obtain ⟨hmem, hgreatest⟩ := greatest_spec hbest
        by_cases hreaches : q.reaches best = true
        · simp only [if_pos hreaches]
          refine ⟨hgrown, fun t ht => ?_⟩
          cases ht
          exact hadds.isBest hbelow hmem hreaches hgreatest
        · simp only [if_neg hreaches]
          apply ih hgrown
          · exact hadds.below hbelow fun t ht => not_reaches_of_le hreaches (hgreatest t ht)
          · exact hadds.atDepth fun t ht => mem_byScore.1 (List.mem_of_mem_take ht)
          · omega

theorem beamSearch_step (q : TreeOfThoughts) (n d : Nat) (frontier : List Thought)
    (s : Exploration) :
    (q.beamSearch (n + 1) d frontier s).2.generated.length ≤
        s.generated.length + frontier.length ∨
      ∃ frontier' s', frontier'.length ≤ q.beamSize.toNat ∧
        s'.generated.length = s.generated.length + frontier.length ∧
        q.beamSearch (n + 1) d frontier s = q.beamSearch n (d + 1) frontier' s' := by
  rw [beamSearch]
  obtain ⟨allowed, k, hgate⟩ := gate_spec q (0 < d) d s
  rw [hgate]
  have hcalls := calls_expandEach q frontier { s with guardCalls := k }
  cases allowed with
  | false => exact Or.inl (Nat.le_add_right _ _)
  | true =>
    simp only [Bool.not_true, Bool.false_eq_true, if_false]
    cases greatest (q.expandEach frontier { s with guardCalls := k }).1.flatten with
    | none => exact Or.inl hcalls.le
    | some best =>
      by_cases hreaches : q.reaches best = true
      · simp only [if_pos hreaches]
        exact Or.inl hcalls.le
      · simp only [if_neg hreaches]
        exact Or.inr ⟨_, _, List.length_take_le _ _, hcalls, rfl⟩

theorem beamSearch_calls_le (q : TreeOfThoughts) (n d : Nat) (frontier : List Thought)
    (s : Exploration) (hf : frontier.length ≤ q.beamSize.toNat) :
    (q.beamSearch n d frontier s).2.generated.length ≤
      s.generated.length + q.beamSize.toNat * n := by
  induction n generalizing d frontier s with
  | zero => exact Nat.le_add_right _ _
  | succ n ih =>
    rw [Nat.mul_succ]
    cases beamSearch_step q n d frontier s with
    | inl hle => omega
    | inr hmore =>
      obtain ⟨frontier', s', hf', hcalls, heq⟩ := hmore
      rw [heq]
      have hrest := ih (d + 1) frontier' s' hf'
      omega

theorem beamSearch_calls (q : TreeOfThoughts) (n : Nat) (s : Exploration) :
    (q.beamSearch n 0 [q.root] s).2.generated.length ≤
      s.generated.length + (1 + q.beamSize.toNat * (n - 1)) := by
  cases n with
  | zero => exact Nat.le_add_right _ _
  | succ n =>
    rw [Nat.add_sub_cancel]
    cases beamSearch_step q n 0 [q.root] s with
    | inl hle =>
      rw [List.length_singleton] at hle
      omega
    | inr hmore =>
      obtain ⟨frontier', s', hf', hcalls, heq⟩ := hmore
      rw [heq]
      have hrest := beamSearch_calls_le q n 1 frontier' s' hf'
      rw [List.length_singleton] at hcalls
      rw [Nat.zero_add]
      omega

/-- A search from an exploration without a thought at the threshold ends without one, or at the
best thought. -/
structure Settles (q : TreeOfThoughts) (s : Exploration) (r : Option Thought × Exploration) :
    Prop where
  grown : q.Grown r.2
  kept : ∀ t ∈ s.thoughts, t ∈ r.2.thoughts
  below : r.1 = none → q.Below r.2
  best : ∀ t, r.1 = some t → IsBest t r.2.thoughts

theorem Settles.none (h : q.Grown s) (hbelow : q.Below s) : q.Settles s (none, s) where
  grown := h
  kept _ ht := ht
  below _ := hbelow
  best t ht := by cases ht

theorem Settles.trans (h : q.Settles s r) (h' : q.Settles r.2 r') : q.Settles s r' where
  grown := h'.grown
  kept t ht := h'.kept t (h.kept t ht)
  below := h'.below
  best := h'.best

theorem tryEach_settles {f : Thought → Exploration → Option Thought × Exploration}
    (h : q.Grown s) (hbelow : q.Below s)
    (hf : ∀ t ∈ nodes, ∀ s', q.Grown s' → q.Below s' → (∀ u ∈ s.thoughts, u ∈ s'.thoughts) →
      q.Settles s' (f t s')) : q.Settles s (tryEach f nodes s) := by
  induction nodes generalizing s with
  | nil => exact .none h hbelow
  | cons t nodes ih =>
    have hfirst := hf t List.mem_cons_self s h hbelow fun _ hu => hu
    rw [tryEach]
    generalize f t s = r at hfirst
    obtain ⟨found, s'⟩ := r
    cases found with
    | some found => exact hfirst
    | none =>
      refine hfirst.trans (ih hfirst.grown (hfirst.below rfl) ?_)
      intro u hu s'' hgrown hlow hkept
      exact hf u (List.mem_cons_of_mem _ hu) s'' hgrown hlow fun v hv => hkept v (hfirst.kept v hv)

theorem le_of_byScore (h : byScore thoughts = first :: rest) (hu : u ∈ thoughts) :
    u.score ≤ first.score := by
  have hsorted : (byScore thoughts).Pairwise fun a b => b.score ≤ a.score :=
    pairwise_sortBy (fun t : Thought => OrderDual.toDual t.score) thoughts
  rw [← mem_byScore, h] at hu
  rw [h, List.pairwise_cons] at hsorted
  cases List.mem_cons.1 hu with
  | inl heq => exact heq ▸ le_rfl
  | inr hu => exact hsorted.1 u hu

theorem dfsSearch_settles (h : q.Grown s) (hbelow : q.Below s) (hnode : node ∈ s.thoughts)
    (hd : node.depth + n = q.depth.toNat) : q.Settles s (q.dfsSearch n node s) := by
  induction n generalizing node s with
  | zero => exact .none h hbelow
  | succ n ih =>
    rw [dfsSearch]
    obtain ⟨allowed, k, hgate⟩ :=
      gate_spec q (n + 1 < q.depth.toNat) (q.depth.toNat - (n + 1)) s
    rw [hgate]
    have hcounted : q.Settles s (Option.none, { s with guardCalls := k }) :=
      ⟨h.counted k, fun _ ht => ht, fun _ => hbelow, fun t ht => by cases ht⟩
    cases allowed with
    | false => exact hcounted
    | true =>
      have hgrown := (h.counted k).expandNode hnode (by omega)
      have hadds := adds_expandNode (h.counted k) node
      simp only [Bool.not_true, Bool.false_eq_true, if_false]
      generalize q.expandNode node { s with guardCalls := k } = expanded at hgrown hadds
      obtain ⟨children, s'⟩ := expanded
      have hkept : ∀ t ∈ s.thoughts, t ∈ s'.thoughts := by
        intro t ht
        rw [hadds.thoughts]
        exact List.mem_append_left _ ht
      cases hsorted : byScore children with
      | nil =>
        have hnone : ∀ t ∈ children, ¬ q.reaches t = true := by
          intro t ht
          rw [← mem_byScore, hsorted] at ht
          cases ht
        exact ⟨hgrown, hkept, fun _ => hadds.below hbelow hnone, fun t ht => by cases ht⟩
      | cons first rest =>
        have hmem : first ∈ children := mem_byScore.1 (hsorted ▸ List.mem_cons_self)
        by_cases hreaches : q.reaches first = true
        · simp only [tryEach, if_pos hreaches]
          refine ⟨hgrown, hkept, fun hnone => (by cases hnone), fun t ht => ?_⟩
          cases ht
          exact hadds.isBest hbelow hmem hreaches fun u hu => le_of_byScore hsorted hu
        · have hlow : ∀ t ∈ children, ¬ q.reaches t = true :=
            fun t ht => not_reaches_of_le hreaches (le_of_byScore hsorted ht)
          have hexpanded : q.Settles s (Option.none, s') :=
            ⟨hgrown, hkept, fun _ => hadds.below hbelow hlow, fun t ht => by cases ht⟩
          refine hexpanded.trans (tryEach_settles hgrown (hexpanded.below rfl) ?_)
          intro child hchild s'' hgrown' hbelow' hkept'
          have hin : child ∈ children := mem_byScore.1 (hsorted ▸ hchild)
          simp only [if_neg (hlow child hin)]
          obtain ⟨hthought, hdepth⟩ := hadds.atDepth (fun _ ht => ht) child hin
          exact ih hgrown' hbelow' (hkept' child hthought) (by omega)

/-- The children of every node, level by level, as they are found when no threshold stops the
search. -/
def expansions (q : TreeOfThoughts) : Nat → Nat → List Thought → Exploration → List (List Thought)
  | 0, _, _, _ => []
  | n + 1, d, frontier, s =>
    let (allowed, s) := if 0 < d then q.budgetAllows d s else (true, s)
    if !allowed then []
    else
      let (each, s) := q.expandEach frontier s
      each ++ if each.flatten.isEmpty then [] else expansions q n (d + 1) each.flatten s

def hits (q : TreeOfThoughts) (children : List Thought) : Bool := children.any q.reaches

/-- Breadth-first search ends among the children `cs` of a node, the first that reach the
threshold. -/
structure StopsAt (q : TreeOfThoughts) (cs : List Thought) (child : Thought) (s : Exploration) :
    Prop where
  first : cs.find? q.reaches = some child
  grown : q.Grown s
  adds : ∃ s' d, q.Below s' ∧ Adds s' s d cs

theorem StopsAt.isBest_iff (h : q.StopsAt cs child s) :
    IsBest child s.thoughts ↔ ∀ t ∈ cs, t.score ≤ child.score := by
  obtain ⟨s', d, hbelow, hadds⟩ := h.adds
  apply Iff.intro
  · intro hbest t ht
    refine hbest.greatest t ?_ (hadds.fresh t ht).1
    rw [hadds.thoughts]
    exact List.mem_append_right _ ht
  · intro hgreatest
    exact hadds.isBest hbelow (List.mem_of_find?_eq_some h.first)
      (List.find?_some h.first) hgreatest

theorem not_reaches_of_hits {each : List (List Thought)} (h : each.find? q.hits = none)
    (ht : t ∈ each.flatten) :
    ¬ q.reaches t = true := by
  obtain ⟨cs, hcs, ht⟩ := List.mem_flatten.1 ht
  intro hreaches
  exact List.find?_eq_none.1 h cs hcs (List.any_eq_true.2 ⟨t, ht, hreaches⟩)

theorem find?_of_hits (h : q.hits cs = true) : ∃ child, cs.find? q.reaches = some child := by
  obtain ⟨t, ht, hreaches⟩ := List.any_eq_true.1 h
  exact Option.isSome_iff_exists.1 (List.find?_isSome.2 ⟨t, ht, hreaches⟩)

theorem find?_of_not_hits (h : ¬ q.hits cs = true) : cs.find? q.reaches = none :=
  List.find?_eq_none.2 fun t ht hreaches => h (List.any_eq_true.2 ⟨t, ht, hreaches⟩)

theorem bfsLevel_spec (h : q.Grown s) (hbelow : q.Below s) (hnodes : AtDepth s d nodes)
    (hd : d < q.depth.toNat) (next : List Thought) :
    ((q.expandEach nodes s).1.find? q.hits = none → q.bfsLevel nodes next s =
        (none, next ++ (q.expandEach nodes s).1.flatten, (q.expandEach nodes s).2)) ∧
      ∀ cs, (q.expandEach nodes s).1.find? q.hits = some cs → ∃ child next' s',
        q.bfsLevel nodes next s = (some child, next', s') ∧ q.StopsAt cs child s' := by
  induction nodes generalizing s next with
  | nil => exact ⟨fun _ => by rw [bfsLevel, expandEach, List.flatten_nil, List.append_nil],
      fun cs hcs => by cases hcs⟩
  | cons node nodes ih =>
    obtain ⟨hmem, hdepth⟩ := hnodes node List.mem_cons_self
    have hgrown := h.expandNode hmem (hdepth ▸ hd)
    have hadds := adds_expandNode h node
    have hrest : AtDepth (q.expandNode node s).2 d nodes := by
      intro t ht
      obtain ⟨hin, heq⟩ := hnodes t (List.mem_cons_of_mem _ ht)
      exact ⟨List.mem_append_left _ hin, heq⟩
    rw [expandEach, bfsLevel]
    generalize q.expandNode node s = expanded at hgrown hadds hrest
    obtain ⟨children, s'⟩ := expanded
    dsimp only at hgrown hadds hrest ⊢
    by_cases hhits : q.hits children = true
    · obtain ⟨child, hchild⟩ := find?_of_hits hhits
      rw [List.find?_cons_of_pos hhits, hchild]
      refine ⟨fun hnone => (by cases hnone), fun cs hcs => ?_⟩
      cases hcs
      exact ⟨child, _, _, rfl, hchild, hgrown, s, _, hbelow, hadds⟩
    · have hlow : q.Below s' := hadds.below hbelow fun t ht hreaches =>
        hhits (List.any_eq_true.2 ⟨t, ht, hreaches⟩)
      rw [List.find?_cons_of_neg hhits, find?_of_not_hits hhits, List.flatten_cons,
        ← List.append_assoc]
      exact ih hgrown hlow hrest (next ++ children)

theorem bfsSearch_spec {frontier : List Thought} (h : q.Grown s) (hbelow : q.Below s)
    (hfrontier : AtDepth s d frontier) (hd : d + n = q.depth.toNat) :
    ((q.expansions n d frontier s).find? q.hits = none →
        ∃ s', q.bfsSearch n d frontier s = (none, s') ∧ q.Grown s') ∧
      ∀ cs, (q.expansions n d frontier s).find? q.hits = some cs → ∃ child s',
        q.bfsSearch n d frontier s = (some child, s') ∧ q.StopsAt cs child s' := by
  induction n generalizing d frontier s with
  | zero => exact ⟨fun _ => ⟨s, rfl, h⟩, fun cs hcs => by cases hcs⟩
  | succ n ih =>
    rw [bfsSearch, expansions]
    obtain ⟨allowed, k, hgate⟩ := gate_spec q (0 < d) d s
    rw [hgate]
    cases allowed with
    | false => exact ⟨fun _ => ⟨_, rfl, h.counted k⟩, fun cs hcs => by cases hcs⟩
    | true =>
      have hlevel := bfsLevel_spec (h.counted k) hbelow
        (show AtDepth { s with guardCalls := k } d frontier from hfrontier) (by omega) []
      obtain ⟨hgrown, hadds⟩ := expandEach_spec (h.counted k)
        (show AtDepth { s with guardCalls := k } d frontier from hfrontier) (by omega)
      simp only [Bool.not_true, Bool.false_eq_true, if_false]
      generalize q.expandEach frontier { s with guardCalls := k } = expanded at *
      obtain ⟨each, s'⟩ := expanded
      dsimp only at hgrown hadds hlevel ⊢
      rw [List.find?_append]
      cases hfind : each.find? q.hits with
      | some cs =>
        obtain ⟨child, next', s'', heq, hstops⟩ := hlevel.2 cs hfind
        rw [heq]
        refine ⟨fun hnone => (by cases hnone), fun cs' hcs => ?_⟩
        cases hcs
        exact ⟨child, s'', rfl, hstops⟩
      | none =>
        rw [hlevel.1 hfind, List.nil_append, Option.none_or]
        by_cases hempty : each.flatten.isEmpty = true
        · simp only [if_pos hempty]
          exact ⟨fun _ => ⟨s', rfl, hgrown⟩, fun cs hcs => by cases hcs⟩
        · simp only [if_neg hempty]
          exact ih hgrown (hadds.below hbelow fun t ht => not_reaches_of_hits hfind ht)
            (hadds.atDepth fun _ ht => ht) (by omega)

end Prismal.Agents.TreeOfThoughts

namespace Prismal.Agents.TreeOfThoughts
open Prismal.Lib
set_option autoImplicit true

/-! What a tree of thoughts returns. -/

variable {q : TreeOfThoughts}

def markTerminal (i : Nat) (t : Thought) : Thought :=
  if t.id = i then { t with isTerminal := true } else t

@[simp] theorem markTerminal_id (i : Nat) (t : Thought) : (markTerminal i t).id = t.id := by
  rw [markTerminal]
  split <;> rfl

@[simp] theorem markTerminal_score (i : Nat) (t : Thought) :
    (markTerminal i t).score = t.score := by
  rw [markTerminal]
  split <;> rfl

@[simp] theorem markTerminal_depth (i : Nat) (t : Thought) :
    (markTerminal i t).depth = t.depth := by
  rw [markTerminal]
  split <;> rfl

@[simp] theorem markTerminal_parentId (i : Nat) (t : Thought) :
    (markTerminal i t).parentId = t.parentId := by
  rw [markTerminal]
  split <;> rfl

@[simp] theorem markTerminal_content (i : Nat) (t : Thought) :
    (markTerminal i t).content = t.content := by
  rw [markTerminal]
  split <;> rfl

theorem Rooted.getElem_id {thoughts : List Thought} (h : Rooted thoughts) (ht : t ∈ thoughts) :
    thoughts[t.id]? = some t := by
  obtain ⟨i, hi⟩ := List.mem_iff_getElem?.1 ht
  rw [h.ids i t hi, hi]

theorem Rooted.set_eq {thoughts : List Thought} (h : Rooted thoughts) (ht : t ∈ thoughts) :
    thoughts.set t.id { t with isTerminal := true } = thoughts.map (markTerminal t.id) := by
  have hfound := h.getElem_id ht
  obtain ⟨hlt, _⟩ := List.getElem?_eq_some_iff.1 hfound
  apply List.ext_getElem?
  intro i
  rw [List.getElem?_map]
  by_cases hi : t.id = i
  · subst hi
    rw [List.getElem?_set_self hlt, hfound, Option.map_some, markTerminal, if_pos rfl]
  · rw [List.getElem?_set_ne hi]
    cases hx : thoughts[i]? with
    | none => rfl
    | some x =>
      have hne : ¬ x.id = t.id := fun heq => hi (heq.symm.trans (h.ids i x hx))
      rw [Option.map_some, markTerminal, if_neg hne]

theorem Rooted.mark {thoughts : List Thought} (h : Rooted thoughts) (k : Nat) :
    Rooted (thoughts.map (markTerminal k)) where
  root := by
    obtain ⟨r, hr, hparent, hdepth⟩ := h.root
    exact ⟨markTerminal k r, by rw [List.getElem?_map, hr]; rfl, by simpa using hparent,
      by simpa using hdepth⟩
  ids i t ht := by
    rw [List.getElem?_map] at ht
    obtain ⟨x, hx, rfl⟩ := Option.map_eq_some_iff.1 ht
    rw [markTerminal_id]
    exact h.ids i x hx
  parents i t ht := by
    rw [List.getElem?_map] at ht
    obtain ⟨x, hx, rfl⟩ := Option.map_eq_some_iff.1 ht
    obtain ⟨p, hp, hfound, hle, hdepth⟩ := h.parents i x hx
    refine ⟨markTerminal k p, by simpa using hp, ?_, by simpa using hle, by simpa using hdepth⟩
    rw [markTerminal_id, List.getElem?_map, hfound, Option.map_some]

theorem Rooted.nonRoot {thoughts : List Thought} (h : Rooted thoughts) :
    thoughts.filter (fun t => decide (t.id ≠ 0)) = thoughts.drop 1 := by
  obtain ⟨r, hr, _⟩ := h.root
  cases thoughts with
  | nil => cases hr
  | cons t rest =>
    have hroot : t.id = 0 := h.ids 0 t rfl
    have hrest : ∀ x ∈ rest, decide (x.id ≠ 0) = true := by
      intro x hx
      obtain ⟨i, hi⟩ := List.mem_iff_getElem?.1 hx
      have hid := h.ids (i + 1) x hi
      exact decide_eq_true (by omega)
    rw [List.filter_cons_of_neg (by simp [hroot]), List.filter_eq_self.2 hrest]
    rfl

theorem Rooted.nodup_ids {thoughts : List Thought} (h : Rooted thoughts) :
    (thoughts.map Thought.id).Nodup := by
  rw [List.nodup_iff_getElem?_ne_getElem?]
  intro i j hij hj heq
  rw [List.getElem?_map, List.getElem?_map] at heq
  rw [List.length_map] at hj
  obtain ⟨x, hx⟩ : ∃ x, thoughts[i]? = some x := ⟨_, List.getElem?_eq_getElem (by omega)⟩
  obtain ⟨y, hy⟩ : ∃ y, thoughts[j]? = some y := ⟨_, List.getElem?_eq_getElem hj⟩
  rw [hx, hy, Option.map_some, Option.map_some, Option.some.injEq, h.ids i x hx,
    h.ids j y hy] at heq
  omega

/-- What a search promises of its result: the best thought, its chain of parents from the root, a
count of every generated thought, and a bound on the calls of a beam search. -/
structure Delivers (q : TreeOfThoughts) (r : ToTResult) : Prop where
  best : IsBest r.bestThought r.allThoughts
  path : PathTo r.allThoughts r.bestPath r.bestThought
  short : r.bestPath.length ≤ q.depth.toNat + 1
  distinct : (r.allThoughts.map Thought.id).Nodup
  contents : (r.allThoughts.drop 1).map Thought.content = q.explore.2.generated.flatten
  counted : r.totalThoughtsGenerated = q.explore.2.generated.flatten.length
  calls : q.strategy = .beam →
    (q.explore.2.generated.length : Int) ≤ 1 + q.beamSize * (q.depth - 1)

/-- The first child at the threshold is the best of its siblings, where breadth-first search first
finds a child at the threshold. -/
def FirstIsGreatest (q : TreeOfThoughts) : Prop :=
  ∀ cs, (q.expansions q.depth.toNat 0 [q.root] q.start).find? q.hits = some cs →
    ∀ first, cs.find? q.reaches = some first → ∀ t ∈ cs, t.score ≤ first.score

theorem below_start (q : TreeOfThoughts) : q.Below q.start := by
  intro t ht hid
  rw [List.mem_singleton.1 ht] at hid
  exact absurd rfl hid

theorem atDepth_start (q : TreeOfThoughts) : AtDepth q.start 0 [q.root] := by
  intro t ht
  rw [List.mem_singleton.1 ht]
  exact ⟨List.mem_singleton_self _, rfl⟩

theorem bfsSearch_start (q : TreeOfThoughts) :
    ((q.expansions q.depth.toNat 0 [q.root] q.start).find? q.hits = none →
        ∃ s', q.bfsSearch q.depth.toNat 0 [q.root] q.start = (none, s') ∧ q.Grown s') ∧
      ∀ cs, (q.expansions q.depth.toNat 0 [q.root] q.start).find? q.hits = some cs →
        ∃ child s', q.bfsSearch q.depth.toNat 0 [q.root] q.start = (some child, s') ∧
          q.StopsAt cs child s' :=
  bfsSearch_spec (.start q) (below_start q) (atDepth_start q) (Nat.zero_add _)

theorem explore_spec (q : TreeOfThoughts) :
    q.Grown q.explore.2 ∧ ∀ t, q.explore.1 = some t →
      (t ∈ q.explore.2.thoughts ∧ t.id ≠ 0) ∧
        (IsBest t q.explore.2.thoughts ↔ (q.strategy = .bfs → q.FirstIsGreatest)) := by
  rw [explore]
  cases hstrategy : q.strategy with
  | beam =>
    obtain ⟨hgrown, hbest⟩ := beamSearch_spec (.start q) (below_start q) (atDepth_start q)
      (Nat.zero_add _)
    refine ⟨hgrown, fun t ht => ?_⟩
    have h := hbest t ht
    exact ⟨⟨h.mem, h.notRoot⟩, ⟨fun _ hne => (by cases hne), fun _ => h⟩⟩
  | dfs =>
    have hsettles := dfsSearch_settles (.start q) (below_start q)
      (List.mem_singleton_self q.root) (Nat.zero_add _)
    refine ⟨hsettles.grown, fun t ht => ?_⟩
    have h := hsettles.best t ht
    exact ⟨⟨h.mem, h.notRoot⟩, ⟨fun _ hne => (by cases hne), fun _ => h⟩⟩
  | bfs =>
    obtain ⟨hnone, hsome⟩ := bfsSearch_start q
    cases hfind : (q.expansions q.depth.toNat 0 [q.root] q.start).find? q.hits with
    | none =>
      obtain ⟨s', heq, hgrown⟩ := hnone hfind
      simp only [heq]
      exact ⟨hgrown, fun t ht => by cases ht⟩
    | some cs =>
      obtain ⟨child, s', heq, hstops⟩ := hsome cs hfind
      simp only [heq]
      refine ⟨hstops.grown, fun t ht => ?_⟩
      cases ht
      obtain ⟨s'', d, _, hadds⟩ := hstops.adds
      have hchild := List.mem_of_find?_eq_some hstops.first
      refine ⟨⟨?_, (hadds.fresh child hchild).1⟩, ?_⟩
      · rw [hadds.thoughts]
        exact List.mem_append_right _ hchild
      · rw [hstops.isBest_iff]
        apply Iff.intro
        · intro hgreatest _ cs' hcs' first hfirst
          rw [hfind, Option.some.injEq] at hcs'
          subst hcs'
          rw [hstops.first, Option.some.injEq] at hfirst
          subst hfirst
          exact hgreatest
        · intro h
          exact h trivial cs hfind child hstops.first

theorem conclude_ok {thoughts : List Thought} (h : Rooted thoughts)
    (hterminal : ∀ t, terminal = some t → t ∈ thoughts ∧ t.id ≠ 0)
    (hr : conclude terminal thoughts = .ok r) :
    ∃ t, terminal.or (greatest (thoughts.drop 1)) = some t ∧ t ∈ thoughts ∧ t.id ≠ 0 ∧
      r.bestThought = markTerminal t.id t ∧
      r.allThoughts = thoughts.map (markTerminal t.id) ∧
      r.bestPath = pathFromRoot r.allThoughts r.bestThought ∧
      r.totalThoughtsGenerated = (thoughts.drop 1).length := by
  rw [conclude, h.nonRoot] at hr
  simp only at hr
  split at hr
  · cases hr
  next t ht =>
    cases hr
    have hmem : t ∈ thoughts ∧ t.id ≠ 0 := by
      cases terminal with
      | some t' =>
        cases ht
        exact hterminal t rfl
      | none =>
        have hin := (greatest_spec ht).1
        rw [← h.nonRoot, List.mem_filter, decide_eq_true_eq] at hin
        exact hin
    refine ⟨t, ht, hmem.1, hmem.2, ?_, h.set_eq hmem.1, rfl, rfl⟩
    rw [markTerminal, if_pos rfl]

theorem isBest_map {thoughts : List Thought} (ht : t ∈ thoughts) (k : Nat) :
    IsBest (markTerminal k t) (thoughts.map (markTerminal k)) ↔ IsBest t thoughts := by
  apply Iff.intro
  · intro h
    refine ⟨ht, by simpa using h.notRoot, fun u hu hid => ?_⟩
    have hle := h.greatest _ (List.mem_map_of_mem hu) (by simpa using hid)
    simpa using hle
  · intro h
    refine ⟨List.mem_map_of_mem ht, by simpa using h.notRoot, fun u hu hid => ?_⟩
    obtain ⟨v, hv, rfl⟩ := List.mem_map.1 hu
    have hle := h.greatest v hv (by simpa using hid)
    simpa using hle

theorem isBest_of_greatest {thoughts : List Thought} (h : Rooted thoughts)
    (ht : greatest (thoughts.drop 1) = some t) : IsBest t thoughts := by
  obtain ⟨hmem, hle⟩ := greatest_spec ht
  rw [← h.nonRoot, List.mem_filter, decide_eq_true_eq] at hmem
  refine ⟨hmem.1, hmem.2, fun u hu hid => hle u ?_⟩
  rw [← h.nonRoot, List.mem_filter]
  exact ⟨hu, decide_eq_true hid⟩

theorem calls_explore (h : q.strategy = .beam) (hdepth : 1 ≤ q.depth) (hbeam : 1 ≤ q.beamSize) :
    (q.explore.2.generated.length : Int) ≤ 1 + q.beamSize * (q.depth - 1) := by
  have hcalls := beamSearch_calls q q.depth.toNat q.start
  rw [explore, h]
  obtain ⟨b, hb⟩ := Int.eq_ofNat_of_zero_le (show 0 ≤ q.beamSize by omega)
  obtain ⟨d, hd⟩ := Int.eq_ofNat_of_zero_le (show 0 ≤ q.depth - 1 by omega)
  have hpred : q.depth.toNat - 1 = d := by omega
  rw [hpred, hb, Int.toNat_natCast] at hcalls
  rw [hb, hd]
  have hstart : q.start.generated.length = 0 := rfl
  rw [hstart, Nat.zero_add] at hcalls
  exact_mod_cast hcalls

/-- A search keeps what it promises in every call that returns, unless breadth-first search stops
at a child with a better sibling. -/
theorem treeOfThoughts_delivers_iff (q : TreeOfThoughts) :
    (∀ r, q.treeOfThoughts = .ok r → q.Delivers r) ↔
      (1 ≤ q.breadth → 1 ≤ q.depth → 1 ≤ q.beamSize → q.strategy = .bfs →
        q.FirstIsGreatest) := by
  obtain ⟨hgrown, hterminal⟩ := explore_spec q
  have hfound : ∀ t, q.explore.1 = some t → t ∈ q.explore.2.thoughts ∧ t.id ≠ 0 :=
    fun t ht => (hterminal t ht).1
  apply Iff.intro
  · intro h hbreadth hdepth hbeam hstrategy
    have hcall : q.treeOfThoughts = conclude q.explore.1 q.explore.2.thoughts := by
      rw [treeOfThoughts, if_neg (by omega), if_neg (by omega), if_neg (by omega)]
    cases hexplored : q.explore.1 with
    | none =>
      intro cs hcs
      obtain ⟨child, s', heq, _⟩ := (bfsSearch_start q).2 cs hcs
      rw [explore, hstrategy, heq] at hexplored
      cases hexplored
    | some t =>
      rw [hexplored] at hcall
      have hdelivers := h _ hcall
      obtain ⟨t', ht', hmem, _, hbest, hall, _⟩ :=
        conclude_ok hgrown.toRooted (hexplored ▸ hfound)
          (show conclude (some t) q.explore.2.thoughts = .ok _ from rfl)
      cases ht'
      have hisBest := hdelivers.best
      rw [hbest, hall, isBest_map hmem] at hisBest
      exact (hterminal t hexplored).2.1 hisBest hstrategy
  · intro h r hr
    rw [treeOfThoughts] at hr
    split at hr
    · cases hr
    split at hr
    · cases hr
    split at hr
    · cases hr
    next hbreadth hdepth hbeam =>
      have hfirst := h (by omega) (by omega) (by omega)
      obtain ⟨t, ht, hmem, hid, hbest, hall, hpath, htotal⟩ :=
        conclude_ok hgrown.toRooted hfound hr
      have hisBest : IsBest t q.explore.2.thoughts := by
        cases hexplored : q.explore.1 with
        | some t' =>
          rw [hexplored] at ht
          cases ht
          exact (hterminal t hexplored).2.2 hfirst
        | none =>
          rw [hexplored] at ht
          exact isBest_of_greatest hgrown.toRooted ht
      have hrooted := hgrown.toRooted.mark t.id
      rw [← hall] at hrooted
      have hin : r.bestThought ∈ r.allThoughts := by
        rw [hbest, hall]
        exact List.mem_map_of_mem hmem
      have hpathTo := hrooted.pathFromRoot hin
      rw [← hpath] at hpathTo
      refine ⟨?_, hpathTo, ?_, hrooted.nodup_ids, ?_, ?_, fun hs =>
        calls_explore hs (by omega) (by omega)⟩
      · rw [hbest, hall, isBest_map hmem]
        exact hisBest
      · rw [hpathTo.length, hbest, markTerminal_depth]
        exact Nat.succ_le_succ (hgrown.deep t hmem)
      · rw [hall, ← List.map_drop, List.map_map, ← hgrown.contents]
        exact List.map_congr_left fun x _ => markTerminal_content _ _
      · rw [htotal, ← hgrown.contents, List.length_map]

def twoAnswers : TreeOfThoughts where
  problem := "plan"
  generate _ _ := ["good", "better"]
  evaluate i _ := if i = 1 then 9 / 10 else 1
  depth := 1
  strategy := .bfs

theorem twoAnswers_result : twoAnswers.treeOfThoughts = .ok
    { bestThought := ⟨"good", 9 / 10, 1, some 0, 1, true⟩
      bestPath := [⟨"plan", 0, 0, none, 0, false⟩, ⟨"good", 9 / 10, 1, some 0, 1, true⟩]
      allThoughts := [⟨"plan", 0, 0, none, 0, false⟩, ⟨"good", 9 / 10, 1, some 0, 1, true⟩,
        ⟨"better", 1, 1, some 0, 2, false⟩]
      totalThoughtsGenerated := 2 } := by
  simp [treeOfThoughts, twoAnswers, explore, bfsSearch, bfsLevel, expandNode, reaches, conclude,
    start, root, pathFromRoot, ancestors]

theorem twoAnswers_not_delivers :
    ¬ ∀ r, twoAnswers.treeOfThoughts = .ok r → twoAnswers.Delivers r := by
  intro h
  have hle := (h _ twoAnswers_result).best.greatest ⟨"better", 1, 1, some 0, 2, false⟩
    (by simp) (by simp)
  norm_num at hle

end Prismal.Agents.TreeOfThoughts
