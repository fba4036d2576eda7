import Mathlib.Data.List.Nodup
import Mathlib.Data.List.Infix
import Mathlib.Data.List.Perm.Subperm
import Mathlib.Logic.Function.Basic

namespace Prismal.Lib
set_option autoImplicit true
set_option linter.unusedSectionVars false

/-! Dependencies taken away layer by layer. A graph is a list of nodes, each with the nodes it
waits for. -/

namespace Layers

variable {κ : Type u} [DecidableEq κ]

abbrev Graph (κ : Type u) := List (κ × List κ)

def ids (g : Graph κ) : List κ := g.map Prod.fst

def ready (g : Graph κ) : List κ := ids (g.filter fun e => e.2.isEmpty)

def strike (done : List κ) (g : Graph κ) : Graph κ :=
  (g.filter fun e => decide (e.1 ∉ done)).map fun e =>
    (e.1, e.2.filter fun d => decide (d ∉ done))

def layers (arrange : List κ → List κ) : Nat → Graph κ → List (List κ)
  | 0, _ => []
  | fuel + 1, g =>
    if ready g = [] then [] else
      arrange (ready g) :: layers arrange fuel (strike (arrange (ready g)) g)

def Ranked (rank : κ → Nat) (g : Graph κ) : Prop :=
  ∀ e ∈ g, ∀ d ∈ e.2, d ∈ ids g ∧ rank d < rank e.1

variable {g : Graph κ} {arrange : List κ → List κ} {done : List κ}

theorem mem_ready : n ∈ ready g ↔ (n, []) ∈ g := by
  simp only [ready, ids, List.mem_map, List.mem_filter, List.isEmpty_iff]
  constructor
  · rintro ⟨⟨m, deps⟩, ⟨hm, hdeps⟩, rfl⟩
    cases hdeps
    exact hm
  · intro h
    exact ⟨(n, []), ⟨h, rfl⟩, rfl⟩

theorem mem_strike : (n, deps) ∈ strike done g ↔
    n ∉ done ∧ ∃ old, (n, old) ∈ g ∧ deps = old.filter fun d => decide (d ∉ done) := by
  simp only [strike, List.mem_map, List.mem_filter, decide_eq_true_eq, Prod.mk.injEq]
  constructor
  · rintro ⟨⟨m, old⟩, ⟨hm, hdone⟩, rfl, rfl⟩
    exact ⟨hdone, old, hm, rfl⟩
  · rintro ⟨hdone, old, hm, rfl⟩
    exact ⟨(n, old), ⟨hm, hdone⟩, rfl, rfl⟩

theorem mem_ids_strike : n ∈ ids (strike done g) ↔ n ∉ done ∧ n ∈ ids g := by
  simp only [ids, List.mem_map, Prod.exists, exists_and_right, exists_eq_right, mem_strike]
  constructor
  · rintro ⟨deps, hdone, old, hold, -⟩
    exact ⟨hdone, old, hold⟩
  · rintro ⟨hdone, old, hold⟩
    exact ⟨_, hdone, old, hold, rfl⟩

theorem ids_strike (done : List κ) (g : Graph κ) :
    ids (strike done g) = (ids g).filter fun n => decide (n ∉ done) := by
  simp only [ids, strike, List.map_map, List.filter_map]
  rfl

theorem nodup_strike (h : (ids g).Nodup) (done : List κ) : (ids (strike done g)).Nodup := by
  rw [ids_strike]
  exact h.filter _

theorem deps_unique (h : (ids g).Nodup) (hd : (n, deps) ∈ g) (hd' : (n, deps') ∈ g) :
    deps = deps' :=
  (Prod.mk.inj (List.inj_on_of_nodup_map h hd hd' rfl)).2

theorem mem_of_mem_layers (ha : ∀ l, (arrange l).Perm l) (hw : wave ∈ layers arrange fuel g)
    (hn : n ∈ wave) : n ∈ ids g := by
  induction fuel generalizing g with
  | zero => cases hw
  | succ fuel ih =>
    rw [layers] at hw
    split at hw
    · cases hw
    · rcases List.mem_cons.1 hw with rfl | hw
      · exact List.mem_map_of_mem (mem_ready.1 ((ha _).mem_iff.1 hn))
      · exact (mem_ids_strike.1 (ih hw)).2

theorem nodup_layers (ha : ∀ l, (arrange l).Perm l) (h : (ids g).Nodup) (fuel : Nat) :
    (layers arrange fuel g).flatten.Nodup := by
  induction fuel generalizing g with
  | zero => exact List.nodup_nil
  | succ fuel ih =>
    rw [layers]
    split
    · exact List.nodup_nil
    · rw [List.flatten_cons]
      have hready : (arrange (ready g)).Nodup := by
        rw [(ha _).nodup_iff]
        exact h.sublist (List.filter_sublist.map _)
      apply hready.append (ih (nodup_strike h _))
      intro n hn hlater
      obtain ⟨wave, hw, hn'⟩ := List.mem_flatten.1 hlater
      exact (mem_ids_strike.1 (mem_of_mem_layers ha hw hn')).1 hn

theorem layers_ordered (ha : ∀ l, (arrange l).Perm l) (h : (ids g).Nodup)
    (hl : layers arrange fuel g = front ++ wave :: back) (hn : n ∈ wave) (hd : (n, deps) ∈ g) :
    deps ⊆ front.flatten := by
  induction fuel generalizing g front deps with
  | zero =>
    rw [layers] at hl
    exact absurd hl (by simp)
  | succ fuel ih =>
    rw [layers] at hl
    split at hl
    · exact absurd hl (by simp)
    · cases front with
      | nil =>
        rw [List.nil_append, List.cons.injEq] at hl
        obtain ⟨rfl, -⟩ := hl
        have hnil := mem_ready.1 ((ha _).mem_iff.1 hn)
        rw [deps_unique h hd hnil]
        exact List.nil_subset _
      | cons first front =>
        rw [List.cons_append, List.cons.injEq] at hl
        obtain ⟨rfl, hl⟩ := hl
        have hw : wave ∈ layers arrange fuel (strike (arrange (ready g)) g) := by
          rw [hl]
          exact List.mem_append_right _ List.mem_cons_self
        have hnot := (mem_ids_strike.1 (mem_of_mem_layers ha hw hn)).1
        have hrest := ih (nodup_strike h _) hl (mem_strike.2 ⟨hnot, deps, hd, rfl⟩)
        intro d hdep
        rw [List.flatten_cons, List.mem_append]
        by_cases hfirst : d ∈ arrange (ready g)
        · exact Or.inl hfirst
        · exact Or.inr (hrest (List.mem_filter.2 ⟨hdep, decide_eq_true hfirst⟩))

theorem Ranked.strike (h : Ranked rank g) (done : List κ) :
    Ranked rank (Layers.strike done g) := by
  rintro ⟨n, deps⟩ he d hd
  obtain ⟨-, old, hold, rfl⟩ := mem_strike.1 he
  obtain ⟨hdep, hdone⟩ := List.mem_filter.1 hd
  obtain ⟨hmem, hlt⟩ := h _ hold d hdep
  exact ⟨mem_ids_strike.2 ⟨of_decide_eq_true hdone, hmem⟩, hlt⟩

theorem Ranked.exists_ready (h : Ranked rank g) (he : e ∈ g) : ∃ n, n ∈ ready g := by
  obtain ⟨n, deps⟩ := e
  induction hr : rank n using Nat.strongRecOn generalizing n deps with
  | ind r ih =>
    cases deps with
    | nil => exact ⟨n, mem_ready.2 he⟩
    | cons d deps =>
      obtain ⟨hmem, hlt⟩ := h _ he d List.mem_cons_self
      obtain ⟨⟨m, deps'⟩, hm, rfl⟩ := List.mem_map.1 hmem
      exact ih (rank m) (hr ▸ hlt) m deps' hm rfl

theorem length_strike_lt (hn : n ∈ done) (hg : n ∈ ids g) :
    (Layers.strike done g).length < g.length := by
  rw [Layers.strike, List.length_map]
  apply List.length_filter_lt_length_iff_exists.2
  obtain ⟨e, he, rfl⟩ := List.mem_map.1 hg
  exact ⟨e, he, by simpa using hn⟩

theorem Ranked.mem_layers (h : Ranked rank g) (ha : ∀ l, (arrange l).Perm l)
    (hfuel : g.length ≤ fuel) (hn : n ∈ ids g) : n ∈ (layers arrange fuel g).flatten := by
  induction fuel generalizing g with
  | zero =>
    rw [List.length_eq_zero_iff.1 (Nat.le_zero.1 hfuel)] at hn
    cases hn
  | succ fuel ih =>
    obtain ⟨e, he, -⟩ := List.mem_map.1 hn
    obtain ⟨m, hm⟩ := h.exists_ready he
    rw [layers, if_neg (List.ne_nil_of_mem hm), List.flatten_cons, List.mem_append]
    by_cases hfirst : n ∈ arrange (ready g)
    · exact Or.inl hfirst
    · right
      have hshorter := length_strike_lt ((ha _).mem_iff.2 hm)
        (List.mem_map_of_mem (mem_ready.1 hm))
      exact ih (h.strike _) (by omega) (mem_ids_strike.2 ⟨hfirst, hn⟩)

/-! Kahn's algorithm. -/

/-- The nodes that wait for `d`, once for every time they name it. -/
def successors (g : Graph κ) (d : κ) : List κ :=
  g.flatMap fun e => (e.2.filter fun x => decide (x = d)).map fun _ => e.1

def release (s : (κ → Int) × List κ) (n : κ) : (κ → Int) × List κ :=
  let degree := s.1 n - 1
  (Function.update s.1 n degree, if degree = 0 then s.2 ++ [n] else s.2)

/-- Process the queue; the degrees that are left, and the nodes in the order they were processed. -/
def kahn (g : Graph κ) : Nat → (κ → Int) × List κ → List κ → (κ → Int) × List κ
  | 0, s, processed => (s.1, processed)
  | fuel + 1, s, processed =>
    match s.2 with
    | [] => (s.1, processed)
    | n :: queue => kahn g fuel ((successors g n).foldl release (s.1, queue)) (processed ++ [n])

def degrees (g : Graph κ) (n : κ) : Int := ((g.lookup n).map List.length).getD 0

def topological (g : Graph κ) : (κ → Int) × List κ :=
  kahn g g.length (degrees g, (ids g).filter fun n => decide (degrees g n = 0)) []

def Sorted (g : Graph κ) (order : List κ) : Prop :=
  ∀ front n back, order = front ++ n :: back → ∀ deps, (n, deps) ∈ g → deps ⊆ front

structure Processing (g : Graph κ) (s : (κ → Int) × List κ) (processed : List κ) : Prop where
  degree : ∀ e ∈ g, s.1 e.1 = e.2.countP fun d => decide (d ∉ processed)
  nodup : (processed ++ s.2).Nodup
  known : ∀ n ∈ processed ++ s.2, n ∈ ids g
  queued : ∀ n ∈ s.2, s.1 n = 0
  complete : ∀ n ∈ ids g, s.1 n = 0 → n ∈ processed ++ s.2
  sorted : Sorted g processed

theorem count_released (deps : List κ) (d m n : κ) :
    ((deps.filter fun x => decide (x = d)).map fun _ => m).count n =
      if m = n then deps.count d else 0 := by
  rw [List.map_const', List.count_replicate, List.count_eq_length_filter]
  simp only [beq_iff_eq]
  rfl

theorem count_successors_of_not_mem (h : n ∉ ids g) (d : κ) : (successors g d).count n = 0 := by
  apply List.count_eq_zero_of_not_mem
  intro hn
  obtain ⟨e, he, hm⟩ := List.mem_flatMap.1 hn
  obtain ⟨-, -, rfl⟩ := List.mem_map.1 hm
  exact h (List.mem_map_of_mem he)

theorem count_successors (h : (ids g).Nodup) (hd : (n, deps) ∈ g) (d : κ) :
    (successors g d).count n = deps.count d := by
  induction g with
  | nil => cases hd
  | cons e g ih =>
    obtain ⟨hnot, hnodup⟩ := List.nodup_cons.1 h
    rw [successors, List.flatMap_cons, List.count_append, count_released]
    rcases List.mem_cons.1 hd with rfl | hd
    · rw [if_pos rfl]
      exact Nat.add_eq_left.2 (count_successors_of_not_mem hnot d)
    · have hne : e.1 ≠ n := by
        rintro rfl
        exact hnot (List.mem_map.2 ⟨_, hd, rfl⟩)
      rw [if_neg hne, Nat.zero_add]
      exact ih hnodup hd

theorem foldl_release (l : List κ) (degree : κ → Int) (queue : List κ)
    (hle : ∀ m ∈ l, (l.count m : Int) ≤ degree m) :
    ∃ new, l.foldl release (degree, queue) = ((fun m => degree m - l.count m), queue ++ new) ∧
      new.Nodup ∧ ∀ m, m ∈ new ↔ m ∈ l ∧ degree m = l.count m := by
  induction l generalizing degree queue with
  | nil => exact ⟨[], by simp, List.nodup_nil, by simp⟩
  | cons n l ih =>
    rw [List.foldl_cons, release]
    have hn := hle n List.mem_cons_self
    rw [List.count_cons_self] at hn
    have hrest : ∀ m ∈ l, (l.count m : Int) ≤ Function.update degree n (degree n - 1) m := by
      intro m hm
      have hm' := hle m (List.mem_cons_of_mem n hm)
      rw [List.count_cons] at hm'
      by_cases hmn : m = n
      · subst hmn
        rw [Function.update_self]
        omega
      · rw [Function.update_of_ne hmn]
        simp [Ne.symm hmn] at hm'
        exact hm'
    have hdegree : (fun m => Function.update degree n (degree n - 1) m - (l.count m : Int)) =
        fun m => degree m - ((n :: l).count m : Int) := by
      funext m
      by_cases hmn : m = n
      · subst hmn
        rw [Function.update_self, List.count_cons_self]
        omega
      · rw [Function.update_of_ne hmn, List.count_cons_of_ne (Ne.symm hmn)]
    have hcount : ∀ m, Function.update degree n (degree n - 1) m = l.count m ↔
        degree m = (n :: l).count m := by
      intro m
      have hm := congrFun hdegree m
      omega
    dsimp only
    split
    · next hzero =>
      have hnot : n ∉ l := by
        intro hmem
        have hpos := List.count_pos_iff.2 hmem
        omega
      obtain ⟨new, hfold, hnodup, hnew⟩ := ih _ (queue ++ [n]) hrest
      refine ⟨n :: new, ?_, List.nodup_cons.2 ⟨fun h => hnot ((hnew n).1 h).1, hnodup⟩, ?_⟩
      · rw [hfold, hdegree, List.append_assoc]
        rfl
      · intro m
        rw [List.mem_cons, List.mem_cons, hnew, hcount]
        by_cases hmn : m = n
        · subst hmn
          rw [List.count_cons_self, List.count_eq_zero_of_not_mem hnot]
          simp
          omega
        · simp [hmn]
    · next hleft =>
      obtain ⟨new, hfold, hnodup, hnew⟩ := ih _ queue hrest
      refine ⟨new, ?_, hnodup, ?_⟩
      · rw [hfold, hdegree]
      · intro m
        rw [List.mem_cons, hnew, hcount]
        by_cases hmn : m = n
        · subst hmn
          have hiff : m ∈ l ↔ 0 < l.count m := List.count_pos_iff.symm
          rw [List.count_cons_self, hiff]
          push_cast
          omega
        · simp [hmn]

theorem countP_processed (deps : List κ) (hn : n ∉ processed) :
    (deps.countP fun d => decide (d ∉ processed)) =
      (deps.countP fun d => decide (d ∉ processed ++ [n])) + deps.count n := by
  induction deps with
  | nil => rfl
  | cons d deps ih =>
    rw [List.countP_cons, List.countP_cons, List.count_cons, ih]
    by_cases hd : d = n
    · subst hd
      simp [hn]
      omega
    · simp [hd]
      omega

theorem mem_ids_of_successors (h : m ∈ successors g n) : m ∈ ids g := by
  obtain ⟨e, he, hm⟩ := List.mem_flatMap.1 h
  obtain ⟨-, -, rfl⟩ := List.mem_map.1 hm
  exact List.mem_map_of_mem he

variable {s : (κ → Int) × List κ}

theorem Processing.subset_of_zero (h : Processing g s processed) (hd : (n, deps) ∈ g)
    (hz : s.1 n = 0) : deps ⊆ processed := by
  have hcount := hz.symm.trans (h.degree _ hd)
  dsimp only at hcount
  intro d hdep
  by_contra hnot
  have hpos : 0 < deps.countP fun d => decide (d ∉ processed) :=
    List.countP_pos_iff.2 ⟨d, hdep, decide_eq_true hnot⟩
  omega

theorem Processing.degree_processed (h : Processing g s processed) (hn : n ∈ processed) :
    s.1 n = 0 := by
  obtain ⟨⟨m, deps⟩, he, rfl⟩ := List.mem_map.1 (h.known n (List.mem_append_left _ hn))
  obtain ⟨front, back, hsplit⟩ := List.append_of_mem hn
  have hsub := h.sorted front m back hsplit deps he
  rw [h.degree _ he, Int.natCast_eq_zero, List.countP_eq_zero]
  intro d hd
  rw [decide_eq_true_eq, not_not, hsplit]
  exact List.mem_append_left _ (hsub hd)

theorem Processing.step {degrees : κ → Int} (h : Processing g (degrees, n :: queue) processed)
    (hg : (ids g).Nodup) :
    Processing g ((successors g n).foldl release (degrees, queue)) (processed ++ [n]) := by
  have hsplit := List.nodup_append.1 h.nodup
  have hn : n ∉ processed := fun hmem => hsplit.2.2 n hmem n List.mem_cons_self rfl
  have hleft : ∀ m deps, (m, deps) ∈ g → degrees m =
      (deps.countP fun d => decide (d ∉ processed ++ [n])) + (successors g n).count m := by
    intro m deps hm
    have hdegree : degrees m = deps.countP fun d => decide (d ∉ processed) := h.degree _ hm
    rw [count_successors hg hm, hdegree, countP_processed deps hn]
    omega
  have hle : ∀ m ∈ successors g n, ((successors g n).count m : Int) ≤ degrees m := by
    intro m hm
    obtain ⟨⟨m', deps⟩, he, rfl⟩ := List.mem_map.1 (mem_ids_of_successors hm)
    have hm' := hleft _ deps he
    dsimp only
    omega
  have hpos : ∀ m ∈ successors g n, 0 < degrees m := by
    intro m hm
    have hcount := List.count_pos_iff.2 hm
    have := hle m hm
    omega
  obtain ⟨new, hfold, hnodup, hnew⟩ := foldl_release (successors g n) degrees queue hle
  rw [hfold]
  constructor
  · intro e he
    have hm := hleft e.1 e.2 he
    dsimp only
    omega
  · dsimp only
    rw [← List.append_assoc, List.append_assoc processed, List.singleton_append]
    apply List.Nodup.append h.nodup hnodup
    intro m hm hmn
    have hp := hpos m ((hnew m).1 hmn).1
    rcases List.mem_append.1 hm with hm | hm
    · have hz := h.degree_processed hm
      dsimp only at hz
      omega
    · have hz := h.queued m hm
      dsimp only at hz
      omega
  · intro m hm
    dsimp only at hm
    rw [← List.append_assoc, List.append_assoc processed, List.singleton_append,
      List.mem_append] at hm
    rcases hm with hm | hm
    · exact h.known m hm
    · exact mem_ids_of_successors ((hnew m).1 hm).1
  · intro m hm
    rcases List.mem_append.1 hm with hm | hm
    · have hz := h.queued m (List.mem_cons_of_mem n hm)
      have hnot : m ∉ successors g n := by
        intro hmem
        have := hpos m hmem
        dsimp only at hz
        omega
      dsimp only at hz ⊢
      rw [hz, List.count_eq_zero_of_not_mem hnot]
      rfl
    · have hz := ((hnew m).1 hm).2
      dsimp only
      omega
  · intro m hm hz
    dsimp only at hz ⊢
    rw [← List.append_assoc, List.append_assoc processed, List.singleton_append, List.mem_append]
    by_cases hsucc : m ∈ successors g n
    · exact Or.inr ((hnew m).2 ⟨hsucc, by omega⟩)
    · rw [List.count_eq_zero_of_not_mem hsucc] at hz
      exact Or.inl (h.complete m hm (by dsimp only; omega))
  · intro front m back heq deps hd
    rcases List.append_eq_append_iff.1 heq with ⟨mid, hfront, hback⟩ | ⟨mid, hproc, hmid⟩
    · cases mid with
      | nil =>
        rw [List.nil_append, List.cons.injEq] at hback
        obtain ⟨rfl, -⟩ := hback
        rw [hfront, List.append_nil]
        exact h.subset_of_zero hd (h.queued n List.mem_cons_self)
      | cons x mid =>
        rw [List.cons_append, List.cons.injEq] at hback
        exact absurd hback.2.symm (by simp)
    · cases mid with
      | nil =>
        rw [List.nil_append, List.cons.injEq] at hmid
        obtain ⟨rfl, -⟩ := hmid
        rw [List.append_nil] at hproc
        rw [← hproc]
        exact h.subset_of_zero hd (h.queued m List.mem_cons_self)
      | cons x mid =>
        rw [List.cons_append, List.cons.injEq] at hmid
        obtain ⟨rfl, -⟩ := hmid
        exact h.sorted front m mid hproc deps hd

theorem Processing.kahn (hg : (ids g).Nodup) (fuel : Nat) (h : Processing g s processed) :
    ∃ queue, Processing g ((Layers.kahn g fuel s processed).1, queue)
        (Layers.kahn g fuel s processed).2 ∧
      (queue = [] ∨ (Layers.kahn g fuel s processed).2.length = processed.length + fuel) := by
  induction fuel generalizing s processed with
  | zero => exact ⟨s.2, h, Or.inr rfl⟩
  | succ fuel ih =>
    obtain ⟨degrees, queue⟩ := s
    cases queue with
    | nil => exact ⟨[], h, Or.inl rfl⟩
    | cons n queue =>
      obtain ⟨rest, hrest, hend⟩ := ih (h.step hg)
      refine ⟨rest, hrest, hend.imp_right fun hlen => ?_⟩
      rw [Layers.kahn, hlen, List.length_append, List.length_singleton]
      omega

theorem degrees_eq (hg : (ids g).Nodup) (hd : (n, deps) ∈ g) : degrees g n = deps.length := by
  have hlookup : g.lookup n = some deps := by
    induction g with
    | nil => cases hd
    | cons e g ih =>
      obtain ⟨hnot, hnodup⟩ := List.nodup_cons.1 hg
      rcases List.mem_cons.1 hd with rfl | hd
      · exact List.lookup_cons_self
      · have hne : n ≠ e.1 := by
          rintro rfl
          exact hnot (List.mem_map.2 ⟨_, hd, rfl⟩)
        rw [List.lookup_cons, beq_false_of_ne hne]
        exact ih hnodup hd
  rw [degrees, hlookup]
  rfl

theorem processing_start (hg : (ids g).Nodup) :
    Processing g (degrees g, (ids g).filter fun n => decide (degrees g n = 0)) [] where
  degree e he := by
    have hdegree := degrees_eq hg he
    simpa using hdegree
  nodup := hg.filter _
  known n hn := (List.mem_filter.1 hn).1
  queued n hn := of_decide_eq_true (List.mem_filter.1 hn).2
  complete n hn hz := List.mem_filter.2 ⟨hn, decide_eq_true hz⟩
  sorted front n back h := absurd h (by simp)

theorem Processing.all_processed {degree : κ → Int} (h : Processing g (degree, []) processed)
    (hsub : order ⊆ ids g) (hsorted : Sorted g order) : order ⊆ processed := by
  have hfront : ∀ front back, order = front ++ back → front ⊆ processed := by
    intro front
    induction front using List.reverseRecOn with
    | nil => exact fun _ _ => List.nil_subset _
    | append_singleton front n ih =>
      intro back hsplit
      rw [List.append_assoc, List.singleton_append] at hsplit
      have hdone := ih (n :: back) hsplit
      have hn : n ∈ ids g := hsub (hsplit ▸ List.mem_append_right _ List.mem_cons_self)
      obtain ⟨⟨m, deps⟩, he, rfl⟩ := List.mem_map.1 hn
      have hdeps := hsorted front m back hsplit deps he
      have hzero : degree m = 0 := by
        have hdegree := h.degree _ he
        rw [List.countP_eq_zero.2] at hdegree
        · exact hdegree
        · intro d hd
          rw [decide_eq_true_eq, not_not]
          exact hdone (hdeps hd)
      have hprocessed := h.complete m hn hzero
      rw [List.append_nil] at hprocessed
      exact List.append_subset.2 ⟨hdone, List.cons_subset.2 ⟨hprocessed, List.nil_subset _⟩⟩
  exact hfront order [] (List.append_nil _).symm

theorem processing_topological (hg : (ids g).Nodup) :
    ∃ queue, Processing g ((topological g).1, queue) (topological g).2 ∧
      (queue = [] ∨ (topological g).2.length = g.length) := by
  obtain ⟨queue, h, hend⟩ := (processing_start hg).kahn hg g.length
  rw [List.length_nil, Nat.zero_add] at hend
  exact ⟨queue, h, hend⟩

theorem nodup_topological (hg : (ids g).Nodup) : (topological g).2.Nodup := by
  obtain ⟨queue, h, -⟩ := processing_topological hg
  exact h.nodup.sublist (List.sublist_append_left _ _)

theorem topological_subset (hg : (ids g).Nodup) : (topological g).2 ⊆ ids g := by
  obtain ⟨queue, h, -⟩ := processing_topological hg
  exact fun n hn => h.known n (List.mem_append_left _ hn)

theorem sorted_topological (hg : (ids g).Nodup) : Sorted g (topological g).2 := by
  obtain ⟨queue, h, -⟩ := processing_topological hg
  exact h.sorted

theorem perm_topological (hg : (ids g).Nodup) (hall : (topological g).2.length = g.length) :
    (topological g).2.Perm (ids g) := by
  apply (List.subperm_of_subset (nodup_topological hg) (topological_subset hg)).perm_of_length_le
  rw [hall, ids, List.length_map]

theorem topological_all_iff (hg : (ids g).Nodup) :
    (topological g).2.length = g.length ↔ ∃ order, order.Perm (ids g) ∧ Sorted g order := by
  apply Iff.intro
  · intro hall
    exact ⟨_, perm_topological hg hall, sorted_topological hg⟩
  · rintro ⟨order, hperm, hsorted⟩
    obtain ⟨queue, h, rfl | hall⟩ := processing_topological hg
    · have hdone := h.all_processed hperm.subset hsorted
      have hlen : g.length = (ids g).length := (List.length_map _).symm
      rw [hlen]
      apply Nat.le_antisymm
      · exact (List.subperm_of_subset (nodup_topological hg) (topological_subset hg)).length_le
      · rw [← hperm.length_eq]
        exact (List.subperm_of_subset (hperm.nodup_iff.2 hg) hdone).length_le
    · exact hall

theorem ranked_of_topological (hg : (ids g).Nodup)
    (hall : (topological g).2.length = g.length) :
    Ranked (fun n => (topological g).2.idxOf n) g := by
  have hnodup := nodup_topological hg
  have hsub := topological_subset hg
  have hperm := perm_topological hg hall
  rintro ⟨n, deps⟩ he d hd
  have hn : n ∈ (topological g).2 := hperm.mem_iff.2 (List.mem_map.2 ⟨_, he, rfl⟩)
  obtain ⟨front, back, hsplit⟩ := List.append_of_mem hn
  have hfront := sorted_topological hg front n back hsplit deps he hd
  have hdall : d ∈ (topological g).2 := by
    rw [hsplit]
    exact List.mem_append_left _ hfront
  refine ⟨hsub hdall, ?_⟩
  have hnot : n ∉ front := by
    rw [hsplit] at hnodup
    intro hmem
    exact (List.nodup_append.1 hnodup).2.2 n hmem n List.mem_cons_self rfl
  dsimp only
  rw [hsplit, List.idxOf_append_of_mem hfront, List.idxOf_append_of_notMem hnot,
    List.idxOf_cons_self]
  have hlt := List.idxOf_lt_length_of_mem hfront
  omega

end Layers

end Prismal.Lib
