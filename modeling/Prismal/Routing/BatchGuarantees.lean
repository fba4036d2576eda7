import Prismal.Lib.SerialChoice
import Prismal.Lib.State
import Prismal.Routing.BatchPolicy

namespace Prismal.Routing
open Prismal.Lib
set_option autoImplicit true

namespace BatchPolicy

variable {policy : BatchPolicy}

/-- What a cell that may be used says about its candidate. -/
structure CellOk (policy : BatchPolicy) (f : TaskFeatures) (c : Candidate) (cell : Cell) :
    Prop where
  eligible : policy.eligible f c = .ok true
  accuracy : ∃ p, policy.config.pSuccess f c.ref = .ok p ∧ cell.acc = min 1 (max 0 p)

theorem cell_ok (he : policy.eligible f c = .ok true) (h : policy.cell f c true = .ok cl) :
    CellOk policy f c cl := by
  rw [cell, if_pos rfl] at h
  obtain ⟨p, hp, h₁⟩ := except_bind_ok h
  obtain ⟨out, _, h₂⟩ := except_bind_ok h₁
  obtain ⟨price, _, h₃⟩ := except_bind_ok h₂
  rw [except_pure_ok h₃]
  exact ⟨he, p, hp, rfl⟩

theorem cells_ok {cs : List Candidate} (hm : cs.mapM (policy.eligible f) = .ok mask)
    (h : policy.cells f cs mask = .ok row) (j : Fin cs.length)
    (hok : (row.getD j ⟨false, 0, 0⟩).ok = true) :
    CellOk policy f (cs.get j) (row.getD j ⟨false, 0, 0⟩) := by
  induction cs generalizing mask row with
  | nil => exact j.elim0
  | cons c cs ih =>
    obtain ⟨ok, mask', hc, hmask, rfl⟩ := mapM_cons_ok hm
    rw [cells] at h
    obtain ⟨first, hfirst, h₁⟩ := except_bind_ok h
    obtain ⟨rest, hrest, h₂⟩ := except_bind_ok h₁
    rw [except_pure_ok h₂] at hok ⊢
    cases j using Fin.cases with
    | zero =>
      cases ok with
      | true => exact cell_ok hc hfirst
      | false =>
        cases hfirst
        cases hok
    | succ j => exact ih hmask hrest j hok

theorem quotes_ok (h : policy.quotes items = .ok qs) :
    (qs.map Prod.fst).Sublist items ∧ ∀ q ∈ qs, ∀ j : Fin policy.candidates.length,
      (q.2.getD j ⟨false, 0, 0⟩).ok = true →
        CellOk policy q.1.features (policy.candidates.get j) (q.2.getD j ⟨false, 0, 0⟩) := by
  induction items generalizing qs with
  | nil =>
    rw [except_pure_ok h]
    exact ⟨List.nil_sublist _, by simp⟩
  | cons item items ih =>
    obtain ⟨first, hfirst, h₁⟩ := except_bind_ok h
    obtain ⟨rest, hrest, h₂⟩ := except_bind_ok h₁
    obtain ⟨hsub, hcells⟩ := ih hrest
    rw [except_pure_ok h₂]
    obtain ⟨mask, hmask, h₃⟩ := except_bind_ok hfirst
    split at h₃
    · obtain ⟨row, hrow, h₄⟩ := except_bind_ok h₃
      rw [except_pure_ok h₄]
      refine ⟨hsub.cons_cons item, fun q hq => ?_⟩
      rcases List.mem_cons.1 hq with rfl | hq
      · exact cells_ok hmask hrow
      · exact hcells q hq
    · rw [except_pure_ok h₃]
      exact ⟨hsub.cons item, hcells⟩

theorem solve_feasible {P : Problem n k} (h : (solve P target p).reached = true) :
    ∃ y, (solve P target p).x = (fun i => some (y i)) ∧ P.Feasible (n * target) y := by
  unfold solve at h ⊢
  dsimp only at h ⊢
  split
  next x hx => exact ⟨x, rfl, solveDual_feasible P target p hx⟩
  next hnone =>
    rw [hnone] at h
    dsimp only at h
    split
    next hn =>
      subst hn
      refine ⟨fun i => i.elim0, funext fun i => i.elim0, fun i => i.elim0, fun j => ?_, ?_⟩
      · exact Nat.zero_le _
      · have ht := tol_pos
        simp only [Nat.cast_zero, zero_mul, totalOf, Finset.univ_eq_empty, Finset.sum_empty]
        linarith
    next hn =>
      rw [if_neg hn] at h
      split
      next x hx => exact ⟨x, rfl, solveGreedy_feasible P target hx⟩
      next hx =>
        split at h
        next x hx' => exact (hx x hx').elim
        next => cases h

def predicted (policy : BatchPolicy) (r : BatchAssignment) (item : BatchItem) : Rat :=
  match r.choices.get? item.itemId with
  | none => 0
  | some ch =>
    match policy.config.pSuccess item.features ch.modelRef with
    | .ok p => min 1 (max 0 p)
    | .error _ => 0

/-- What a feasible result promises for a batch. -/
structure Meets (policy : BatchPolicy) (items : List BatchItem) (target : Rat)
    (concurrency : Option (Dict String Int)) (r : BatchAssignment) : Prop where
  routed : ∀ id, id ∈ r.choices ↔ id ∈ items.map BatchItem.itemId
  served : ∀ item ∈ items, ∃ c ∈ policy.candidates, r.choices.get? item.itemId = some (choice c) ∧
    policy.meetsFloor item.features c = .ok true ∧ policy.hasCapabilities item.features c = true
  mean : r.predictedMeanAccuracy * items.length = (items.map (predicted policy r)).sum
  accuracy : items.length * target - tol ≤ items.length * r.predictedMeanAccuracy
  caps : ∀ c ∈ policy.candidates, (items.countP fun item =>
    (r.choices.get? item.itemId).any fun ch => ch.modelRef = c.ref) ≤
      policy.cap c.ref concurrency * r.waves

theorem eligible_ok (h : policy.eligible f c = .ok true) :
    policy.meetsFloor f c = .ok true ∧ policy.hasCapabilities f c = true := by
  obtain ⟨b, hb, h₁⟩ := except_bind_ok h
  split at h₁
  next hbt =>
    split at h₁
    next hc => exact ⟨hbt ▸ hb, hc⟩
    next => cases h₁
  next => cases h₁

section

variable {qs : List (BatchItem × List Cell)} {caps : Fin policy.candidates.length → Nat}
  {y : Assignment qs.length policy.candidates.length}

theorem candidates_injective (policy : BatchPolicy) {i j : Fin policy.candidates.length}
    (h : (policy.candidates.get i).ref = (policy.candidates.get j).ref) : i = j := by
  have hget := List.inj_on_of_nodup_map policy.distinct (List.get_mem _ i) (List.get_mem _ j) h
  exact (List.Nodup.get_inj_iff (policy.distinct.of_map _)).1 hget

theorem load_eq_countP (x : Assignment n k) (j : Fin k) :
    load x j = (List.finRange n).countP fun i => x i = j := by
  rw [List.countP_eq_length_filter]
  rfl

def pairs (policy : BatchPolicy) (qs : List (BatchItem × List Cell))
    (y : Assignment qs.length policy.candidates.length) : List (String × ModelChoice) :=
  (List.finRange qs.length).map fun i =>
    ((qs.get i).1.itemId, choice (policy.candidates.get (y i)))

theorem map_get (f : BatchItem × List Cell → β) :
    ((List.finRange qs.length).map fun i => f (qs.get i)) = qs.map f := by
  conv_rhs => rw [← List.map_get_finRange qs, List.map_map]
  rfl

theorem keys_pairs : (pairs policy qs y).map Prod.fst = qs.map fun q => q.1.itemId := by
  rw [pairs, List.map_map]
  exact map_get fun q => q.1.itemId

theorem get?_pairs (hn : (qs.map fun q => q.1.itemId).Nodup) (i : Fin qs.length) :
    (Dict.collect (pairs policy qs y)).get? (qs.get i).1.itemId =
      some (choice (policy.candidates.get (y i))) :=
  Dict.get?_collect (keys_pairs ▸ hn) (List.mem_map.2 ⟨i, List.mem_finRange i, rfl⟩)

theorem picks_eq {r : Solved qs.length policy.candidates.length} (hx : r.x = fun i => some (y i)) :
    ((List.finRange qs.length).filterMap fun i => (r.x i).map fun j => (i, j)) =
      (List.finRange qs.length).map fun i => (i, y i) := by
  rw [hx]
  exact congrFun (List.filterMap_eq_map (f := fun i => (i, y i))) _

theorem sum_finRange (f : Fin n → Rat) : ((List.finRange n).map f).sum = ∑ i, f i := by
  rw [← List.ofFn_eq_map, List.sum_ofFn]

theorem sum_map_items (hp : (qs.map Prod.fst).Perm items) (f : BatchItem → Rat) :
    (items.map f).sum = ∑ i : Fin qs.length, f (qs.get i).1 := by
  rw [← (hp.map f).sum_eq, List.map_map, ← sum_finRange]
  exact congrArg List.sum (map_get fun q => f q.1).symm

theorem countP_items (hp : (qs.map Prod.fst).Perm items) (p : BatchItem → Bool) :
    items.countP p = (List.finRange qs.length).countP fun i => p (qs.get i).1 := by
  rw [← hp.countP_eq p, List.countP_map]
  conv_lhs => rw [← List.map_get_finRange qs, List.countP_map]
  rfl

theorem nodup_ids (hp : (qs.map Prod.fst).Perm items) (hids : (items.map BatchItem.itemId).Nodup) :
    (qs.map fun q => q.1.itemId).Nodup := by
  have hm := (hp.map BatchItem.itemId).nodup_iff.2 hids
  rwa [List.map_map] at hm

variable {r : Solved qs.length policy.candidates.length} (all : Bool) (waves : Nat)

theorem report_choices (hx : r.x = fun i => some (y i)) :
    (policy.report qs r all waves).choices = Dict.collect (pairs policy qs y) := by
  simp only [report]
  rw [picks_eq hx, List.map_map]
  rfl

theorem report_mean (hx : r.x = fun i => some (y i)) (hn : (qs.map fun q => q.1.itemId).Nodup) :
    (policy.report qs r all waves).predictedMeanAccuracy * qs.length =
      ∑ i, (cellAt qs i (y i)).acc := by
  have hlen : (Dict.collect (pairs policy qs y)).entries.length = qs.length := by
    rw [Dict.length_collect (keys_pairs ▸ hn), pairs, List.length_map, List.length_finRange]
  have hc := report_choices all waves hx
  simp only [report] at hc ⊢
  rw [hc, picks_eq hx, List.map_map, ← sum_finRange]
  split
  next he =>
    have h0 : qs.length = 0 := by rw [← hlen, List.isEmpty_iff.1 he, List.length_nil]
    rw [List.finRange_eq_nil_iff.2 h0, zero_mul]
    rfl
  next he =>
    have h0 : (qs.length : Rat) ≠ 0 := by
      rw [← hlen]
      exact Nat.cast_ne_zero.2 fun hl => he (List.isEmpty_iff.2 (List.length_eq_zero_iff.1 hl))
    rw [hlen, div_mul_cancel₀ _ h0]
    rfl

theorem predicted_eq {rep : BatchAssignment} {i : Fin qs.length} {c : Candidate}
    (hg : rep.choices.get? (qs.get i).1.itemId = some (choice c))
    (hc : CellOk policy (qs.get i).1.features c cl) :
    predicted policy rep (qs.get i).1 = cl.acc := by
  obtain ⟨p, hp, hacc⟩ := hc.accuracy
  have href : (choice c).modelRef = c.ref := rfl
  rw [predicted, hg]
  dsimp only
  rw [href, hp, hacc]

theorem report_meets {concurrency : Option (Dict String Int)}
    (hp : (qs.map Prod.fst).Perm items) (hids : (items.map BatchItem.itemId).Nodup)
    (hcells : ∀ q ∈ qs, ∀ j : Fin policy.candidates.length,
      (q.2.getD j ⟨false, 0, 0⟩).ok = true →
        CellOk policy q.1.features (policy.candidates.get j) (q.2.getD j ⟨false, 0, 0⟩))
    (hx : r.x = fun i => some (y i))
    (hf : (policy.problem qs fun j =>
      policy.cap (policy.candidates.get j).ref concurrency * waves).Feasible (qs.length * target) y) :
    Meets policy items target concurrency (policy.report qs r all waves) := by
  have hn := nodup_ids hp hids
  have hlen : items.length = qs.length := by rw [← hp.length_eq, List.length_map]
  have hget : ∀ i : Fin qs.length,
      (policy.report qs r all waves).choices.get? (qs.get i).1.itemId =
        some (choice (policy.candidates.get (y i))) := fun i => by
    rw [report_choices all waves hx]
    exact get?_pairs hn i
  have hcell : ∀ i : Fin qs.length,
      CellOk policy (qs.get i).1.features (policy.candidates.get (y i)) (cellAt qs i (y i)) :=
    fun i => hcells _ (List.get_mem qs i) (y i) (hf.allowed i)
  have hmean := report_mean all waves hx hn
  refine ⟨fun id => ?_, fun item hi => ?_, ?_, ?_, fun c hc => ?_⟩
  · rw [report_choices all waves hx, Dict.mem_collect, keys_pairs]
    have hm := (hp.map BatchItem.itemId).mem_iff (a := id)
    rwa [List.map_map] at hm
  · obtain ⟨q, hq, rfl⟩ := List.mem_map.1 (hp.mem_iff.2 hi)
    obtain ⟨i, rfl⟩ := List.get_of_mem hq
    exact ⟨_, List.get_mem _ _, hget i, eligible_ok (hcell i).eligible⟩
  · rw [hlen, hmean, sum_map_items hp]
    exact Finset.sum_congr rfl fun i _ => (predicted_eq (hget i) (hcell i)).symm
  · rw [hlen, mul_comm (qs.length : Rat) (BatchAssignment.predictedMeanAccuracy _), hmean]
    exact hf.reaches
  · obtain ⟨j, rfl⟩ := List.get_of_mem hc
    rw [countP_items hp]
    refine le_trans ?_ (hf.fits j)
    rw [load_eq_countP]
    refine List.countP_mono_left fun i _ hi => ?_
    rw [hget i] at hi
    have href : (policy.candidates.get (y i)).ref = (policy.candidates.get j).ref := by
      simpa [choice] using hi
    exact decide_eq_true (candidates_injective policy href)

end

theorem assignBatch_meets (hids : (items.map BatchItem.itemId).Nodup)
    (h : policy.assignBatch items alpha concurrency = .ok r) (hf : r.feasible = true) :
    Meets policy items (alpha.getD policy.config.batchAlpha) concurrency r := by
  unfold assignBatch at h
  dsimp only at h
  have hperm : (sortItems items).Perm items := List.perm_insertionSort _ _
  split at h
  next he =>
    rw [List.isEmpty_iff.1 he] at hperm
    rw [except_pure_ok h, List.nil_perm.1 hperm]
    have ht := tol_pos
    refine ⟨fun id => ?_, by simp, by simp, ?_, by simp⟩
    · simp [infeasible]
    · simp only [List.length_nil, Nat.cast_zero, zero_mul]
      linarith
  split at h
  · rw [except_pure_ok h] at hf
    cases hf
  obtain ⟨qs, hqs, h₁⟩ := except_bind_ok h
  obtain ⟨hsub, hcells⟩ := quotes_ok hqs
  rw [except_pure_ok h₁] at hf ⊢
  simp only [report, Bool.and_eq_true, decide_eq_true_eq] at hf
  obtain ⟨y, hy, hfeas⟩ := solve_feasible hf.1.1
  have heq : qs.map Prod.fst = sortItems items :=
    hsub.eq_of_length (by rw [List.length_map]; exact hf.1.2)
  exact report_meets _ _ (heq ▸ hperm) hids hcells hy hfeas

theorem assignBatch_of_feasible (h : (policy.assign items alpha concurrency).feasible = true) :
    policy.assignBatch items alpha concurrency = .ok (policy.assign items alpha concurrency) := by
  unfold assign at h ⊢
  split
  next r hr => exact hr
  next e he =>
    rw [he] at h
    cases h

/-- Whatever the solvers return as feasible is feasible, and so is what `_assign` makes of it. -/
theorem batch_assignment_feasible :
    (∀ (n k : Nat) (P : Problem n k) (alpha : Rat) (p : DualParams) (x : Assignment n k),
      (solveDual P alpha p).1 = some x → P.Feasible (n * alpha) x) ∧
    (∀ (n k : Nat) (P : Problem n k) (alpha : Rat) (x : Assignment n k),
      solveGreedy P alpha = (some x, true) → P.Feasible (n * alpha) x) ∧
    ∀ (policy : BatchPolicy) (items : List BatchItem) (alpha : Option Rat)
      (concurrency : Option (Dict String Int)) (r : BatchAssignment),
      (items.map BatchItem.itemId).Nodup → policy.assignBatch items alpha concurrency = .ok r →
        r.feasible = true →
          Meets policy items (alpha.getD policy.config.batchAlpha) concurrency r :=
  ⟨fun _ _ P alpha p _ => solveDual_feasible P alpha p, fun _ _ P alpha _ => solveGreedy_feasible P alpha,
    fun _ _ _ _ _ hids h hf => assignBatch_meets hids h hf⟩

def pair : Problem 2 2 where
  cost _ j := if j = 0 then 1 / 4 else 1
  acc _ j := if j = 0 then 1 / 2 else 9 / 10
  caps _ := 1
  eligible := none

def pairConfig : BatchConfig where
  candidates := ["small-model", "big-model"]
  tierOf ref := .ok (if ref = "big-model" then "frontier" else "small")
  floor := Dict.collect [("critical", "frontier")]
  capabilities := Dict.collect [("small", ["tools"]), ("frontier", ["tools"])]
  eligibleFn := none
  pSuccess _ ref := .ok (if ref = "big-model" then 9 / 10 else 1 / 2)
  expectedOutputTokens _ _ := .ok 100
  price ref _ _ := .ok (if ref = "big-model" then 1 else 1 / 4)
  modelConcurrency := ∅
  parallelMaxWorkers := 1
  batchAlpha := 3 / 5
  batchMaxIter := 1
  batchEps := 1 / 100
  sqrt _ := 1

def pairPolicy : BatchPolicy where
  config := pairConfig
  candidates := sortedCandidates pairConfig
  floor := Dict.collect [("critical", .frontier)]
  nonempty := by decide
  distinct := sortedCandidates_distinct pairConfig

def pairItems : List BatchItem :=
  [⟨"b", ⟨"worker", none, 10, true, false, .low, "en", false⟩⟩,
    ⟨"a", ⟨"worker", none, 10, true, false, .critical, "en", false⟩⟩]

theorem batch_assignment_feasible_pair :
    pair.Feasible ((2 : Nat) * (3 / 5)) ![1, 0] ∧ pair.Feasible ((2 : Nat) * (3 / 5)) ![0, 1] ∧
      Meets pairPolicy pairItems (3 / 5) none (pairPolicy.assign pairItems none none) :=
  ⟨batch_assignment_feasible.1 2 2 pair (3 / 5) ⟨1, 1, 1 / 100, fun _ => 1⟩ _ (by decide +kernel),
    batch_assignment_feasible.2.1 2 2 pair (3 / 5) _ (by decide +kernel),
    batch_assignment_feasible.2.2 pairPolicy pairItems none none _ (by decide)
      (assignBatch_of_feasible (by decide +kernel)) (by decide +kernel)⟩

end BatchPolicy

end Prismal.Routing

namespace Prismal.Routing
open Prismal.Lib Function
set_option autoImplicit true

/-! Which items of a batch `_assign` leaves out when no solver reaches the target. -/

def spreadOrder (P : Problem n k) : List (Fin n) :=
  (List.finRange n).insertionSort fun i h =>
    spread (P.rows h) < spread (P.rows i) ∨ (spread (P.rows i) = spread (P.rows h) ∧ i ≤ h)

def byAccuracy (P : Problem n k) (i : Fin n) : List (Fin k) :=
  ((P.rows i).insertionSort fun e f => f.acc < e.acc ∨ (e.acc = f.acc ∧
    (e.cost < f.cost ∨ (e.cost = f.cost ∧ e.model ≤ f.model)))).map Entry.model

/-- A solver reaches the target, so that the batch does not fall back on the most accurate
models. -/
def Reached (P : Problem n k) (target : Rat) (p : DualParams) : Prop :=
  (solveDual P target p).1.isSome ∨ ∃ x, solveGreedy P target = (some x, true)

theorem foldl_place (P : Problem n k) (is : List (Fin n)) (s : Placement n k) :
    (is.foldl (fun s i => (place s i (byAccuracy P i)).getD s) s).x =
      SerialChoice.run (byAccuracy P) is s.residual s.x := by
  induction is generalizing s with
  | nil => rfl
  | cons i is ih =>
    rw [List.foldl_cons, ih, SerialChoice.run, place]
    cases (byAccuracy P i).find? fun j => decide (0 < s.residual j) with
    | none => rfl
    | some j => rfl

theorem maxAccuracy_eq_run (P : Problem n k) : maxAccuracy P =
    SerialChoice.run (byAccuracy P) (spreadOrder P) P.caps fun _ => none :=
  foldl_place P (spreadOrder P) ⟨P.caps, fun _ => none⟩

theorem spreadOrder_perm (P : Problem n k) : (spreadOrder P).Perm (List.finRange n) :=
  List.perm_insertionSort _ _

theorem nodup_spreadOrder (P : Problem n k) : (spreadOrder P).Nodup :=
  (spreadOrder_perm P).nodup_iff.2 (List.nodup_finRange n)

theorem settled_iff {P : Problem n k} {y : Fin n → Option (Fin k)} :
    SerialChoice.Settled (byAccuracy P) P.caps (spreadOrder P) y ↔ y = maxAccuracy P := by
  have hrun : SerialChoice.Settled (byAccuracy P) P.caps (spreadOrder P) (maxAccuracy P) := by
    rw [maxAccuracy_eq_run]
    exact SerialChoice.settled_run (nodup_spreadOrder P)
  constructor
  · intro h
    funext i
    exact h.unique hrun i ((spreadOrder_perm P).mem_iff.2 (List.mem_finRange i))
  · rintro rfl
    exact hrun

namespace BatchPolicy

variable {policy : BatchPolicy} {qs : List (BatchItem × List Cell)}

def Routes (items : List BatchItem) (r : BatchAssignment) : Prop :=
  ∀ item ∈ items, item.itemId ∈ r.choices

def Completable (policy : BatchPolicy) (items : List BatchItem)
    (concurrency : Option (Dict String Int)) (waves : Nat) : Prop :=
  ∃ f : Fin items.length → Fin policy.candidates.length,
    (∀ i, policy.eligible (items.get i).features (policy.candidates.get (f i)) = .ok true) ∧
      ∀ j, load f j ≤ policy.cap (policy.candidates.get j).ref concurrency * waves

def batchProblem (policy : BatchPolicy) (qs : List (BatchItem × List Cell)) (items : Nat)
    (concurrency : Option (Dict String Int)) : Problem qs.length policy.candidates.length :=
  policy.problem qs fun j =>
    policy.cap (policy.candidates.get j).ref concurrency *
      wavesFor items (policy.totalCap concurrency)

def dualParams (policy : BatchPolicy) : DualParams :=
  ⟨policy.config.batchMaxIter, 1, policy.config.batchEps, policy.config.sqrt⟩

def Covers (qs : List (BatchItem × List Cell)) (y : Fin qs.length → Option (Fin k)) : Prop :=
  ∀ i : Fin qs.length, ∃ h : Fin qs.length, (qs.get h).1.itemId = (qs.get i).1.itemId ∧
    (y h).isSome

/-- A solver reaches the target, or the items find room when one after the other, by descending
spread, takes the most accurate model that is left. -/
def Suffices (policy : BatchPolicy) (items : List BatchItem) (alpha : Option Rat)
    (concurrency : Option (Dict String Int)) : Prop :=
  ∀ qs, policy.quotes (sortItems items) = .ok qs →
    Reached (batchProblem policy qs items.length concurrency)
        (alpha.getD policy.config.batchAlpha) (dualParams policy) ∨
      ∃ y, SerialChoice.Settled (byAccuracy (batchProblem policy qs items.length concurrency))
          (batchProblem policy qs items.length concurrency).caps
          (spreadOrder (batchProblem policy qs items.length concurrency)) y ∧ Covers qs y

theorem covers_some {k : Nat} (x : Fin qs.length → Fin k) : Covers qs fun i => some (x i) :=
  fun i => ⟨i, rfl, rfl⟩

theorem covers_solve (P : Problem qs.length k) (target : Rat) (p : DualParams) :
    Covers qs (solve P target p).x ↔ Reached P target p ∨ Covers qs (maxAccuracy P) := by
  rw [solve, Reached]
  cases hdual : (solveDual P target p).1 with
  | some x => exact ⟨fun _ => .inl (.inl rfl), fun _ => covers_some x⟩
  | none =>
    dsimp only
    split
    next hn =>
      have hempty : ∀ y : Fin qs.length → Option (Fin k), Covers qs y := fun _ i =>
        absurd i.2 (by omega)
      exact ⟨fun _ => .inr (hempty _), fun _ => hempty _⟩
    next hn =>
      split
      next x hx => exact ⟨fun _ => .inl (.inr ⟨x, hx⟩), fun _ => covers_some x⟩
      next hx =>
        constructor
        · exact .inr
        · rintro ((h | ⟨x, h⟩) | h)
          · cases h
          · exact absurd h (hx x)
          · exact h

theorem mem_report_choices (r : Solved qs.length policy.candidates.length) (all : Bool)
    (waves : Nat) : key ∈ (policy.report qs r all waves).choices ↔
      ∃ i : Fin qs.length, (qs.get i).1.itemId = key ∧ (r.x i).isSome := by
  simp only [report]
  rw [Dict.mem_collect, List.map_map, List.mem_map]
  constructor
  · rintro ⟨⟨i, j⟩, hpick, rfl⟩
    obtain ⟨i', -, hsome⟩ := List.mem_filterMap.1 hpick
    obtain ⟨j', hj, heq⟩ := Option.map_eq_some_iff.1 hsome
    cases heq
    exact ⟨i, rfl, Option.isSome_of_eq_some hj⟩
  · rintro ⟨i, rfl, hsome⟩
    obtain ⟨j, hj⟩ := Option.isSome_iff_exists.1 hsome
    refine ⟨(i, j), List.mem_filterMap.2 ⟨i, List.mem_finRange i, ?_⟩, rfl⟩
    rw [hj]
    rfl

theorem mem_of_mapM {f : α → Except ε β} {as : List α} (h : as.mapM f = .ok bs) (ha : a ∈ as)
    (hb : f a = .ok b) : b ∈ bs := by
  induction as generalizing bs with
  | nil => cases ha
  | cons c as ih =>
    obtain ⟨b', bs', hc, hbs, rfl⟩ := mapM_cons_ok h
    rcases List.mem_cons.1 ha with rfl | ha
    · cases hc.symm.trans hb
      exact List.mem_cons_self
    · exact List.mem_cons_of_mem b' (ih hbs ha)

theorem quotes_eq (h : policy.quotes items = .ok qs)
    (heligible : ∀ item ∈ items, ∃ c ∈ policy.candidates,
      policy.eligible item.features c = .ok true) : qs.map Prod.fst = items := by
  induction items generalizing qs with
  | nil =>
    rw [except_pure_ok h]
    rfl
  | cons item items ih =>
    obtain ⟨first, hfirst, h₁⟩ := except_bind_ok h
    obtain ⟨rest, hrest, h₂⟩ := except_bind_ok h₁
    obtain ⟨mask, hmask, h₃⟩ := except_bind_ok hfirst
    obtain ⟨c, hc, htrue⟩ := heligible item List.mem_cons_self
    have hany : mask.any id = true :=
      List.any_eq_true.2 ⟨true, mem_of_mapM hmask hc htrue, rfl⟩
    rw [if_pos hany] at h₃
    obtain ⟨row, -, h₄⟩ := except_bind_ok h₃
    have hrows := ih hrest fun item' hitem => heligible item' (List.mem_cons_of_mem item hitem)
    rw [except_pure_ok h₂, except_pure_ok h₄, List.map_append, hrows]
    rfl

theorem sortItems_perm (items : List BatchItem) : (sortItems items).Perm items :=
  List.perm_insertionSort _ items

theorem routes_report (hqs : qs.map Prod.fst = sortItems items)
    (r : Solved qs.length policy.candidates.length) (all : Bool) (waves : Nat) :
    Routes items (policy.report qs r all waves) ↔ Covers qs r.x := by
  simp only [Routes, mem_report_choices, Covers]
  constructor
  · intro h i
    have hmem : (qs.get i).1 ∈ sortItems items := by
      rw [← hqs]
      exact List.mem_map_of_mem (List.get_mem qs i)
    exact h _ ((sortItems_perm items).mem_iff.1 hmem)
  · intro h item hitem
    have hmem := (sortItems_perm items).mem_iff.2 hitem
    rw [← hqs] at hmem
    obtain ⟨q, hq, rfl⟩ := List.mem_map.1 hmem
    obtain ⟨i, rfl⟩ := List.get_of_mem hq
    exact h i

theorem pair_completable : Completable pairPolicy pairItems none 1 := by
  refine ⟨fun i => if i.val = 0 then ⟨1, by decide⟩ else ⟨0, by decide⟩, fun i => ?_, by decide⟩
  match i with
  | ⟨0, _⟩ => rfl
  | ⟨1, _⟩ => rfl

end BatchPolicy

end Prismal.Routing
