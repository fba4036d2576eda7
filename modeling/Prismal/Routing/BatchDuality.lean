import Prismal.Lib.Run
import Prismal.Routing.BatchFeasible

namespace Prismal.Routing
open Prismal.Lib Function
set_option autoImplicit true

/-! The loops of `_upgrade` and `_polish` pass by pass, and what `_polish` makes of an assignment. -/

variable {n k : Nat} {P : Problem n k} {need : Rat} {x y : Assignment n k} {w : Work n k}
  {u : Upgrade n k}

/-- One pass of the loop of `_polish`: the largest saving. -/
def polishPass (P : Problem n k) (need : Rat) (w : Work n k) : Option (Work n k) :=
  (bestSaving P need w).map fun m => w.move P m.item m.model

/-- One pass of the loop of `_upgrade`: an entry is popped. -/
def Upgrade.pass (P : Problem n k) (need : Rat) (u : Upgrade n k) : Option (Upgrade n k) :=
  if u.total < need - tol then
    match u.heap with
    | [] => none
    | e :: es => some (Upgrade.attempt P { u with heap := es } e).2
  else none

/-! Every pass leaves fewer cheaper entries, or more accuracy, or a shorter heap. -/

theorem halts_polishLoop (need : Rat) (w : Work n k) {fuel : Nat} (hf : cheaper P w.x ≤ fuel) :
    Loop.Halts (polishPass P need) w (polishLoop P need fuel w) := by
  have hlt : ∀ w m, bestSaving P need w = some m →
      cheaper P (w.move P m.item m.model).x < cheaper P w.x := by
    intro w m hm
    obtain ⟨hj, hc, _⟩ := bestSaving_spec hm
    exact cheaper_update hj (hc.trans (sub_lt_self _ tol_pos))
  induction fuel generalizing w with
  | zero =>
    apply Loop.Halts.done
    rw [polishPass, Option.map_eq_none_iff]
    by_contra hsome
    obtain ⟨m, hm⟩ := Option.ne_none_iff_exists'.1 hsome
    exact absurd ((hlt w m hm).trans_le hf) (Nat.not_lt_zero _)
  | succ fuel ih =>
    rw [polishLoop]
    split
    next hnone => exact .done (Option.map_eq_none_iff.2 hnone)
    next m hm =>
      have hpass : polishPass P need w = some (w.move P m.item m.model) :=
        Option.map_eq_some_iff.2 ⟨m, hm, rfl⟩
      exact .next hpass (ih _ (Nat.le_of_lt_succ ((hlt w m hm).trans_le hf)))

theorem pass_cons (hlt : u.total < need - tol) (e : HeapEntry n k) (es : List (HeapEntry n k)) :
    Upgrade.pass P need { u with heap := e :: es } =
      some (Upgrade.attempt P { u with heap := es } e).2 := by
  rw [Upgrade.pass, if_pos hlt]

theorem halts_seek {es : List (HeapEntry n k)} (hlt : u.total < need - tol) (h : Queued P u)
    (hes : ∀ e ∈ es, e.Good P) :
    ((u.seek P es).1 = true → Loop.Halts (Upgrade.pass P need) (u.seek P es).2 r →
        Loop.Halts (Upgrade.pass P need) { u with heap := es } r) ∧
      ((u.seek P es).1 = false →
        Loop.Halts (Upgrade.pass P need) { u with heap := es } (u.seek P es).2) := by
  induction es generalizing u with
  | nil =>
    refine ⟨(fun h => by cases h), fun _ => .done ?_⟩
    rw [Upgrade.pass, if_pos hlt]
  | cons e es ih =>
    have hrest : ∀ e' ∈ es, e'.Good P := fun e' he' => hes e' (List.mem_cons_of_mem e he')
    have hpop : Queued P { u with heap := es } := ⟨hrest, h.parked⟩
    obtain ⟨hok, -, hstay⟩ := attempt_gains hpop (hes e List.mem_cons_self)
    have hpass := pass_cons (P := P) hlt e es
    rw [Upgrade.seek]
    split
    next u' hu =>
      rw [hu] at hpass
      exact ⟨fun _ hrun => .next hpass hrun, fun h => by cases h⟩
    next u' hu =>
      rw [hu] at hpass hok hstay
      obtain ⟨htotal, hheap⟩ := hstay rfl
      have hsame : u' = { u' with heap := es } := by
        cases u'
        cases hheap
        rfl
      have hlt' : u'.total < need - tol := htotal.trans_lt hlt
      obtain ⟨hmoves, hends⟩ := ih hlt' hok hrest
      rw [← hsame] at hmoves hends
      exact ⟨fun ht hrun => .next hpass (hmoves ht hrun), fun hf => .next hpass (hends hf)⟩

theorem halts_upgradeLoop (h : Queued P u) {moves : Nat} (hm : moveBound need u.total ≤ moves) :
    Loop.Halts (Upgrade.pass P need) u (upgradeLoop P need moves u) := by
  induction moves generalizing u with
  | zero =>
    have hdiv : (need - u.total) / tol ≤ moveBound need u.total := Nat.le_ceil _
    rw [Nat.le_zero.1 hm, Nat.cast_zero, div_le_iff₀ tol_pos, zero_mul] at hdiv
    have htol := tol_pos
    apply Loop.Halts.done
    rw [Upgrade.pass, if_neg (by linarith)]
  | succ moves ih =>
    rw [upgradeLoop]
    split
    next hlt =>
      obtain ⟨hmoves, hends⟩ := halts_seek (r := upgradeLoop P need moves (u.seek P u.heap).2)
        hlt h h.heap
      obtain ⟨hok, hgain⟩ := seek_gains h h.heap
      split
      next u' hu =>
        rw [hu] at hmoves hok hgain
        refine hmoves rfl (ih hok (Nat.ceil_le.2 ?_))
        have hdiv : (need - u.total) / tol ≤ ((moves + 1 : Nat) : Rat) :=
          (Nat.le_ceil _).trans (Nat.cast_le.2 hm)
        rw [div_le_iff₀ tol_pos] at hdiv ⊢
        push_cast at hdiv
        have hmore := hgain rfl
        dsimp only at hmore ⊢
        linarith
      next u' hu =>
        rw [hu] at hends
        exact hends rfl
    next hge =>
      apply Loop.Halts.done
      rw [Upgrade.pass, if_neg hge]

theorem start_queued (P : Problem n k) (x : Assignment n k) : Queued P (Upgrade.start P x) := by
  have hpush : ∀ (is : List (Fin n)) u, Queued P u → Queued P (is.foldl (Upgrade.push P) u) := by
    intro is
    induction is with
    | nil => exact fun u h => h
    | cons i is ih => exact fun u h => ih _ (h.push i)
  exact hpush _ _ ⟨List.forall_mem_nil _, fun _ => List.forall_mem_nil _⟩

theorem start_total (P : Problem n k) (x : Assignment n k) :
    (Upgrade.start P x).total = totalOf P.acc x := by
  have hpush : ∀ (is : List (Fin n)) u, (is.foldl (Upgrade.push P) u).total = u.total := by
    intro is
    induction is with
    | nil => exact fun u => rfl
    | cons i is ih => exact fun u => ih _
  exact hpush _ _

/-! What a descent does to cost, counts and accuracy. -/

/-- What `_polish` makes of an assignment: it costs no more, no model is pushed above its cap, the
accuracy floor is kept, and no single move onto a cheaper model is left. -/
structure Descends (P : Problem n k) (need : Rat) (x y : Assignment n k) : Prop where
  cost : P.assignmentCost y ≤ P.assignmentCost x
  caps : ∀ j, load y j ≤ max (load x j) (P.caps j)
  floor : need - tol ≤ totalOf P.acc x → need - tol ≤ totalOf P.acc y
  optimal : ∀ i j, P.allows i j = true → P.cost i j < P.cost i (y i) - tol →
    load y j < P.caps j → totalOf P.acc (update y i j) < need - tol

/-- What holds of the state while an assignment `x` is polished. -/
structure Polishing (P : Problem n k) (need : Rat) (x : Assignment n k) (w : Work n k) : Prop where
  count : w.count = load w.x
  total : w.total = totalOf P.acc w.x
  cost : P.assignmentCost w.x ≤ P.assignmentCost x
  caps : ∀ j, load w.x j ≤ max (load x j) (P.caps j)
  floor : need - tol ≤ totalOf P.acc x → need - tol ≤ totalOf P.acc w.x

theorem polishing_start (P : Problem n k) (need : Rat) (x : Assignment n k) :
    Polishing P need x (Work.start P x) :=
  ⟨rfl, rfl, le_refl _, fun _ => le_max_left _ _, fun h => h⟩

theorem Polishing.pass (h : Polishing P need x w) (hw : polishPass P need w = some w') :
    Polishing P need x w' := by
  obtain ⟨m, hm, rfl⟩ := Option.map_eq_some_iff.1 hw
  obtain ⟨-, hcost, hcap, hfloor⟩ := bestSaving_spec hm
  have htotal : (w.move P m.item m.model).total =
      totalOf P.acc (w.move P m.item m.model).x := by
    rw [Work.move, h.total]
    exact (totalOf_update P.acc w.x m.item m.model).symm
  constructor
  · rw [Work.move, h.count]
    exact (load_update w.x m.item m.model).symm
  · exact htotal
  · have hmove := totalOf_update P.cost w.x m.item m.model
    have hstart := h.cost
    have htol := tol_pos
    rw [Problem.assignmentCost, Problem.assignmentCost] at hstart ⊢
    rw [Work.move, hmove]
    linarith
  · intro j
    rw [Work.move, load_update]
    by_cases hj : j = m.model
    · subst hj
      rw [h.count] at hcap
      exact (shiftLoad_target _ _ _).trans (hcap.trans_le (le_max_right _ _))
    · exact (shiftLoad_le _ _ _ _ hj).trans (h.caps j)
  · intro _
    rw [← htotal]
    exact hfloor

/-! Local optimality: the scan of a row stops behind all entries that save something. -/

/-- `(cost, model)` order of a row. -/
def Entry.before (e f : Entry k) : Prop := e.cost < f.cost ∨ (e.cost = f.cost ∧ e.model ≤ f.model)

instance : DecidableRel (Entry.before (k := k)) := fun _ _ => inferInstanceAs (Decidable (_ ∨ _))

theorem Entry.before_total (e f : Entry k) : e.before f ∨ f.before e := by
  rcases lt_trichotomy e.cost f.cost with h | h | h
  · exact .inl (.inl h)
  · exact (le_total e.model f.model).imp (fun hm => .inr ⟨h, hm⟩) fun hm => .inr ⟨h.symm, hm⟩
  · exact .inr (.inl h)

theorem Entry.before_trans {e f g : Entry k} (h : e.before f) (h' : f.before g) : e.before g := by
  rcases h with h | ⟨h, hm⟩
  · rcases h' with h' | ⟨h', -⟩
    · exact .inl (h.trans h')
    · exact .inl (h.trans_eq h')
  · rcases h' with h' | ⟨h', hm'⟩
    · exact .inl (h.trans_lt h')
    · exact .inr ⟨h.trans h', hm.trans hm'⟩

theorem rows_sorted (P : Problem n k) (i : Fin n) :
    (P.rows i).Pairwise fun e f => e.cost ≤ f.cost := by
  have : Std.Total (Entry.before (k := k)) := ⟨Entry.before_total⟩
  have : IsTrans (Entry k) Entry.before := ⟨fun _ _ _ => Entry.before_trans⟩
  have hsorted : (P.rows i).Pairwise Entry.before := List.pairwise_insertionSort Entry.before _
  exact hsorted.imp fun h => h.elim le_of_lt fun h => h.1.le

theorem mem_takeWhile_of_lt {l : List (Entry k)} (hl : l.Pairwise fun e f => e.cost ≤ f.cost)
    (he : e ∈ l) (hlt : e.cost < c) : e ∈ l.takeWhile fun f => ¬ c ≤ f.cost := by
  induction l with
  | nil => cases he
  | cons f l ih =>
    obtain ⟨hhead, htail⟩ := List.pairwise_cons.1 hl
    have hf : f.cost < c := by
      rcases List.mem_cons.1 he with rfl | he
      · exact hlt
      · exact (hhead e he).trans_lt hlt
    have hkeep : decide (¬ c ≤ f.cost) = true := decide_eq_true (not_le.2 hf)
    rw [List.takeWhile_cons, hkeep, if_pos rfl, List.mem_cons]
    exact (List.mem_cons.1 he).imp_right fun he => ih htail he

theorem exists_saving (ha : P.allows i j = true) (hc : P.cost i j < P.cost i (w.x i) - tol)
    (hcap : w.count j < P.caps j) (hf : need - tol ≤ w.total - P.acc i (w.x i) + P.acc i j) :
    bestSaving P need w ≠ none := by
  have hrow := mem_takeWhile_of_lt (rows_sorted P i) (mem_rows_of_allows ha) hc
  have hsaving : (⟨P.cost i j - P.cost i (w.x i), i, j⟩ : Move n k) ∈ savings P need w i := by
    apply List.mem_map.2
    refine ⟨_, List.mem_filter.2 ⟨hrow, decide_eq_true ?_⟩, rfl⟩
    rw [not_or, not_le, not_lt]
    exact ⟨hcap, hf⟩
  intro hnone
  have hempty := pickMin_eq_none.1 hnone
  exact List.not_mem_nil (hempty ▸ List.mem_flatMap.2 ⟨i, List.mem_finRange i, hsaving⟩)

theorem Polishing.descends (h : Polishing P need x w) (hw : polishPass P need w = none) :
    Descends P need x w.x := by
  refine ⟨h.cost, h.caps, h.floor, fun i j ha hc hcap => ?_⟩
  rw [totalOf_update, ← h.total]
  rw [← h.count] at hcap
  by_contra hfloor
  exact exists_saving ha hc hcap (not_lt.1 hfloor) (Option.map_eq_none_iff.1 hw)

/-- Both loops end for every start, and `_polish` descends to a local optimum. -/
theorem upgrade_polish_halt (P : Problem n k) (need : Rat) (x : Assignment n k) :
    (∃ u, Loop.Halts (Upgrade.pass P need) (Upgrade.start P x) u ∧
      upgrade P need x = (u.x, decide (need - tol ≤ u.total))) ∧
    (∃ w, Loop.Halts (polishPass P need) (Work.start P x) w ∧ polish P need x = w.x) ∧
    Descends P need x (polish P need x) := by
  have hbound : moveBound need (Upgrade.start P x).total ≤ moveBound need (totalOf P.acc x) := by
    rw [start_total]
  have hpolish := halts_polishLoop (P := P) need (Work.start P x) (le_refl (cheaper P x))
  have hkept := hpolish.invariant (polishing_start P need x) fun _ _ h => h.pass
  exact ⟨⟨_, halts_upgradeLoop (start_queued P x) hbound, rfl⟩, ⟨_, hpolish, rfl⟩,
    hkept.descends hpolish.stuck⟩

def nearlyEqual : Problem 1 2 where
  cost _ j := if j.val = 0 then 0 else 1 / 10 ^ 10
  acc _ _ := 1
  caps _ := 1
  eligible := none

/-- A move that saves less than the tolerance is left. -/
theorem polish_leaves_saving :
    ¬∀ (n k : Nat) (P : Problem n k) (need : Rat) (x : Assignment n k) (i : Fin n) (j : Fin k),
      P.allows i j = true → P.cost i j < P.cost i (polish P need x i) →
        load (polish P need x) j < P.caps j → totalOf P.acc (update (polish P need x) i j) < need := by
  intro h
  have hstay : polish nearlyEqual 1 (fun _ => 1) = fun _ => 1 := by decide +kernel
  have hcap : load (fun _ : Fin 1 => (1 : Fin 2)) 0 < nearlyEqual.caps 0 := by decide
  have hlt := h 1 2 nearlyEqual 1 (fun _ => 1) 0 0 rfl
  rw [hstay] at hlt
  have hshort := hlt (by decide +kernel) hcap
  rw [totalOf] at hshort
  exact absurd hshort (by decide +kernel)

end Prismal.Routing

namespace Prismal.Routing
open Prismal.Lib Function
set_option autoImplicit true

/-! How far the assignment of `solve_dual` can be from an optimal one. -/

variable {n k : Nat} {P : Problem n k} {need : Rat} {x y : Assignment n k} {m : Multipliers k}

/-- An assignment that respects eligibility, caps and the accuracy floor, without any tolerance. -/
structure Problem.Exact (P : Problem n k) (need : Rat) (x : Assignment n k) : Prop where
  allowed : P.Allowed x
  fits : Fits P.caps (load x)
  reaches : need ≤ totalOf P.acc x

structure Multipliers.Nonneg (m : Multipliers k) : Prop where
  lam : 0 ≤ m.lam
  mu : ∀ j, 0 ≤ m.mu j

def penalty (P : Problem n k) (need : Rat) (m : Multipliers k) (total : Rat) (counts : Fin k → Nat) :
    Rat :=
  m.lam * (total - need) + ∑ j, m.mu j * ((P.caps j : Rat) - counts j)

/-! Weak duality. -/

theorem leastReduced_le (m : Multipliers k) {row : List (Entry k)} (h : row ≠ []) (he : e ∈ row) :
    m.reduced (leastReduced m row h) ≤ m.reduced e := by
  have hpick : pickMin (fun a b => m.reduced a < m.reduced b) row = some (leastReduced m row h) := by
    rw [leastReduced, Option.some_get]
  exact pickMin_le hpick he

theorem reduced_row (h : e ∈ P.rows i) :
    m.reduced e = P.cost i e.model - m.lam * P.acc i e.model + m.mu e.model := by
  rw [Multipliers.reduced, cost_of_mem h, acc_of_mem h]

theorem sum_reduced (need : Rat) (m : Multipliers k) (x : Assignment n k) :
    ∑ i, (P.cost i (x i) - m.lam * P.acc i (x i) + m.mu (x i)) +
        (m.lam * need - ∑ j, m.mu j * P.caps j) =
      P.assignmentCost x - penalty P need m (totalOf P.acc x) (load x) := by
  have hmu : ∑ i, m.mu (x i) = ∑ j, m.mu j * load x j := sum_eq_load m.mu x
  have hpenalty : ∑ j, m.mu j * ((P.caps j : Rat) - load x j) =
      ∑ j, m.mu j * P.caps j - ∑ j, m.mu j * load x j := by
    rw [← Finset.sum_sub_distrib]
    exact Finset.sum_congr rfl fun j _ => mul_sub _ _ _
  rw [penalty, hpenalty, Finset.sum_add_distrib, Finset.sum_sub_distrib, ← Finset.mul_sum, hmu,
    Problem.assignmentCost, totalOf, totalOf]
  ring

theorem dual_iterate (hr : P.Routable) (need : Rat) (m : Multipliers k) :
    (lagrangianIterate P hr need m).dual = (lagrangianIterate P hr need m).totalC -
      penalty P need m (lagrangianIterate P hr need m).totalA
        (lagrangianIterate P hr need m).counts := by
  have hmem := fun i => leastReduced_mem m (P.rows i) (hr i)
  have hcost : (lagrangianIterate P hr need m).totalC =
      P.assignmentCost (lagrangianIterate P hr need m).x :=
    Finset.sum_congr (rfl : Finset.univ = _) fun i _ => cost_of_mem (hmem i)
  rw [hcost, lagrangianIterate_total]
  refine Eq.trans ?_ (sum_reduced need m _)
  exact congrArg (· + _) (Finset.sum_congr rfl fun i _ => reduced_row (hmem i))

theorem penalty_nonneg (hm : m.Nonneg) (hy : P.Exact need y) :
    0 ≤ penalty P need m (totalOf P.acc y) (load y) := by
  have hfloor : 0 ≤ totalOf P.acc y - need := sub_nonneg.2 hy.reaches
  have hcap : ∀ j, 0 ≤ (P.caps j : Rat) - load y j := fun j =>
    sub_nonneg.2 (Nat.cast_le.2 (hy.fits j))
  exact add_nonneg (mul_nonneg hm.lam hfloor)
    (Finset.sum_nonneg fun j _ => mul_nonneg (hm.mu j) (hcap j))

theorem weak_duality (hr : P.Routable) (hm : m.Nonneg) (hy : P.Exact need y) :
    (lagrangianIterate P hr need m).dual ≤ P.assignmentCost y := by
  have hleast : ∀ i, m.reduced (leastReduced m (P.rows i) (hr i)) ≤
      P.cost i (y i) - m.lam * P.acc i (y i) + m.mu (y i) := fun i =>
    leastReduced_le m (hr i) (mem_rows_of_allows (hy.allowed i))
  calc (lagrangianIterate P hr need m).dual
      ≤ ∑ i, (P.cost i (y i) - m.lam * P.acc i (y i) + m.mu (y i)) +
          (m.lam * need - ∑ j, m.mu j * P.caps j) :=
        add_le_add_left (Finset.sum_le_sum fun i _ => hleast i) _
    _ = P.assignmentCost y - penalty P need m (totalOf P.acc y) (load y) := sum_reduced need m y
    _ ≤ P.assignmentCost y := sub_le_self _ (penalty_nonneg hm hy)

theorem totalC_le_of_slack (hr : P.Routable)
    (h : isSlackOptimal P need m (lagrangianIterate P hr need m) = true) :
    (lagrangianIterate P hr need m).totalC ≤
      (lagrangianIterate P hr need m).dual + (k + 1) * tol := by
  obtain ⟨hfloor, hcaps⟩ := of_decide_eq_true h
  have hsum : ∑ j, m.mu j * ((P.caps j : Rat) - (lagrangianIterate P hr need m).counts j) ≤
      k * tol := by
    calc _ ≤ ∑ _j : Fin k, tol := Finset.sum_le_sum fun j _ => (le_abs_self _).trans (hcaps j)
      _ = k * tol := by rw [Finset.sum_const, Finset.card_univ, Fintype.card_fin, nsmul_eq_mul]
  have hlam := (le_abs_self _).trans hfloor
  rw [dual_iterate, penalty]
  linarith

/-! The search. -/

def Below (P : Problem n k) (need d : Rat) : Prop :=
  ∀ y, P.Exact need y → d ≤ P.assignmentCost y + (k + 2) * tol

/-- What the search keeps: multipliers that are not negative, and a sound bound, which is there as
soon as there is an incumbent. -/
structure Bounding (P : Problem n k) (need : Rat) (s : DualSearch n k) : Prop where
  nonneg : s.m.Nonneg
  bound : ∀ d, s.maxD = some d → Below P need d
  known : s.best.isSome → s.maxD.isSome

variable {s : DualSearch n k}

theorem below_of_le (h : ∀ y, P.Exact need y → d ≤ P.assignmentCost y) : Below P need d := by
  intro y hy
  have hk : (0 : Rat) ≤ k := Nat.cast_nonneg k
  have hle := h y hy
  have htol := tol_pos
  nlinarith

theorem m_repairDue (s : DualSearch n k) (t : Nat) : (s.repairDue t).2.m = s.m := by
  rw [DualSearch.repairDue]
  split <;> rfl

theorem maxD_repairDue (s : DualSearch n k) (t : Nat) : (s.repairDue t).2.maxD = s.maxD := by
  rw [DualSearch.repairDue]
  split <;> rfl

theorem m_trackDual (s : DualSearch n k) (d : Rat) : (s.trackDual d).m = s.m := by
  rw [DualSearch.trackDual]
  split
  · rfl
  · split <;> rfl

theorem maxD_trackDual (s : DualSearch n k) (d : Rat) :
    ((s.trackDual d).maxD = some d ∨ (s.trackDual d).maxD = s.maxD) ∧
      (s.trackDual d).maxD.isSome := by
  rw [DualSearch.trackDual]
  split
  · exact ⟨.inl rfl, rfl⟩
  next hnot =>
    have hsome : s.maxD.isSome := by
      rw [Option.isSome_iff_ne_none]
      intro hnone
      rw [hnone] at hnot
      exact hnot rfl
    split
    · exact ⟨.inr rfl, hsome⟩
    · exact ⟨.inr rfl, hsome⟩

theorem Bounding.track (h : Bounding P need s) (hr : P.Routable) (t : Nat) :
    Bounding P need ((s.repairDue t).2.trackDual (lagrangianIterate P hr need s.m).dual) := by
  obtain ⟨hcase, hsome⟩ := maxD_trackDual (s.repairDue t).2 (lagrangianIterate P hr need s.m).dual
  rw [maxD_repairDue] at hcase
  constructor
  · rw [m_trackDual, m_repairDue]
    exact h.nonneg
  · intro d hd
    rcases hcase with hnew | hold
    · cases hnew.symm.trans hd
      exact below_of_le fun y hy => weak_duality hr h.nonneg hy
    · exact h.bound d (hold.symm.trans hd)
  · exact fun _ => hsome

theorem m_offer (s : DualSearch n k) (x : Assignment n k) (c : Rat) : (s.offer x c).m = s.m := by
  rw [DualSearch.offer]
  split <;> rfl

theorem maxD_offer (s : DualSearch n k) (x : Assignment n k) (c : Rat) :
    (s.offer x c).maxD = s.maxD := by
  rw [DualSearch.offer]
  split <;> rfl

theorem best_offer_le (h : (s.offer x c).best = some b) : b.2 ≤ c + 1 / 10 ^ 12 := by
  rw [DualSearch.offer] at h
  split at h
  · cases h
    exact le_add_of_nonneg_right (by norm_num)
  next hbeats =>
    rw [DualSearch.beats, h, Option.all_some, decide_eq_true_eq, not_lt] at hbeats
    exact sub_le_iff_le_add.1 hbeats

theorem Bounding.offer (h : Bounding P need s) (hd : s.maxD.isSome) (x : Assignment n k) (c : Rat) :
    Bounding P need (s.offer x c) := by
  constructor
  · rw [m_offer]
    exact h.nonneg
  · rw [maxD_offer]
    exact h.bound
  · rw [maxD_offer]
    exact fun _ => hd

theorem below_of_slack (hr : P.Routable) (hm : m.Nonneg)
    (hslack : isSlackOptimal P need m (lagrangianIterate P hr need m) = true)
    (hb : b ≤ (lagrangianIterate P hr need m).totalC + 1 / 10 ^ 12) : Below P need b := by
  intro y hy
  have hdual := weak_duality hr hm hy
  have hcost := totalC_le_of_slack hr hslack
  have hmargin : (1 : Rat) / 10 ^ 12 ≤ tol := by norm_num [tol]
  linarith

theorem max_eq_some {a b : Option Rat} (h : max a b = some d) : a = some d ∨ b = some d := by
  cases a with
  | none =>
    cases b with
    | none => cases h
    | some b => exact .inr h
  | some a =>
    cases b with
    | none => exact .inl h
    | some b =>
      change some (max a b) = some d at h
      rcases max_choice a b with hmax | hmax
      · exact .inl (hmax ▸ h)
      · exact .inr (hmax ▸ h)

theorem max_isSome {a : Option Rat} (h : a.isSome) (b : Option Rat) : (max a b).isSome := by
  obtain ⟨a, rfl⟩ := Option.isSome_iff_exists.1 h
  cases b <;> rfl

theorem Bounding.recover (h : Bounding P need s) (hd : s.maxD.isSome) (hr : P.Routable)
    (due : Bool) :
    Bounding P need (recover P need s (lagrangianIterate P hr need s.m) due).2 := by
  rw [Routing.recover]
  split
  · have hoffer := h.offer hd (lagrangianIterate P hr need s.m).x
      (lagrangianIterate P hr need s.m).totalC
    dsimp only
    split
    next hslack =>
      rw [m_offer] at hslack
      refine ⟨hoffer.nonneg, fun d hmax => ?_, fun _ => ?_⟩
      · rcases max_eq_some hmax with hmax | hmax
        · exact hoffer.bound d hmax
        · obtain ⟨b, hb, rfl⟩ := Option.map_eq_some_iff.1 hmax
          exact below_of_slack hr h.nonneg hslack (best_offer_le hb)
      · exact max_isSome (by rwa [maxD_offer]) _
    · exact hoffer
  · split
    · split
      · exact h
      · exact h.offer hd _ _
    · exact h

theorem Bounding.step (h : Bounding P need s) (eta : Rat) (g : Subgradient k) :
    Bounding P need (s.step eta g) :=
  ⟨⟨le_max_left _ _, fun _ => le_max_left _ _⟩, h.bound, h.known⟩

theorem Bounding.dualLoop (hr : P.Routable) (scale : Rat) (p : DualParams) (left t : Nat)
    (h : Bounding P need s) : Bounding P need (dualLoop P hr need scale p left t s).1 := by
  induction left generalizing t s with
  | zero => exact h
  | succ left ih =>
    have htrack := h.track hr (t + 1)
    have hsome := (maxD_trackDual (s.repairDue (t + 1)).2 (lagrangianIterate P hr need s.m).dual).2
    have hm : ((s.repairDue (t + 1)).2.trackDual (lagrangianIterate P hr need s.m).dual).m = s.m := by
      rw [m_trackDual, m_repairDue]
    have hrec := htrack.recover hsome hr (s.repairDue (t + 1)).1
    rw [hm] at hrec
    simp only [Routing.dualLoop]
    split
    · exact hrec
    split
    · exact hrec
    split
    · exact hrec
    · exact ih _ (hrec.step _ _)

/-- The gap that `solve_dual` reports bounds the distance to every assignment that meets the
constraints. -/
theorem gap_certificate (P : Problem n k) (alpha : Rat) (p : DualParams)
    (h : solveDual P alpha p = (some x, t, gap)) :
    ∃ g, gap = some g ∧ ∀ y, P.Exact (n * alpha) y →
      P.assignmentCost x - P.assignmentCost y ≤
        g * max (P.assignmentCost x) (1 / 10 ^ 9) + (k + 2) * tol := by
  rw [solveDual] at h
  split at h
  · cases h
  split at h
  next hr =>
    have hstart : Bounding P (n * alpha) { m := ⟨0, fun _ => 0⟩ } :=
      ⟨⟨le_refl _, fun _ => le_refl _⟩, (fun d hd => by cases hd), fun hb => by cases hb⟩
    have hok := hstart.dualLoop hr (multiplierScale P) p p.maxIter 0
    dsimp only at h
    split at h
    · cases h
    next b c hb =>
      obtain ⟨d, hd⟩ := Option.isSome_iff_exists.1 (hok.known (Option.isSome_of_eq_some hb))
      rw [DualSearch.gap, hd] at h
      cases h
      refine ⟨_, rfl, fun y hy => ?_⟩
      have hpos : (0 : Rat) < max (P.assignmentCost (polish P (n * alpha) b)) (1 / 10 ^ 9) :=
        lt_max_of_lt_right (by norm_num)
      have hgap := mul_le_mul_of_nonneg_right (le_max_right (0 : Rat)
        ((P.assignmentCost (polish P (n * alpha) b) - d) /
          max (P.assignmentCost (polish P (n * alpha) b)) (1 / 10 ^ 9))) hpos.le
      rw [div_mul_cancel₀ _ hpos.ne'] at hgap
      have hbound := hok.bound d hd y hy
      linarith
  next => cases h

def roomy : Problem 2 2 where
  cost _ j := if j.val = 0 then 1 / 4 else 1
  acc _ j := if j.val = 0 then 1 / 2 else 9 / 10
  caps _ := 2
  eligible := none

theorem gap_certificate_roomy : ∃ g, some (0 : Rat) = some g ∧
    ∀ y, roomy.Exact ((2 : Nat) * (1 / 2)) y →
      roomy.assignmentCost ![0, 0] - roomy.assignmentCost y ≤
        g * max (roomy.assignmentCost ![0, 0]) (1 / 10 ^ 9) + ((2 : Nat) + 2) * tol :=
  gap_certificate (t := 1) roomy (1 / 2) ⟨5, 1, 1 / 100, fun _ => 1⟩ (by decide +kernel)

end Prismal.Routing
