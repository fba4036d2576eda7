import Mathlib.Algebra.BigOperators.Group.List.Basic
import Mathlib.Algebra.Order.Field.Basic
import Mathlib.Data.List.Induction
import Mathlib.Tactic.Linarith
import Mathlib.Tactic.Ring

namespace Prismal.Lib.Isotonic
set_option autoImplicit true
set_option linter.unusedSectionVars false

/-! Isotonic regression over places in a row: each has a weight and the total of its values. -/

variable {K : Type u} [Field K] [LinearOrder K] {α : Type v} {w t : α → K}

def excess (w t : α → K) (m : K) (xs : List α) : K := (xs.map fun x => t x - m * w x).sum

def mean (w t : α → K) (xs : List α) : K := (xs.map t).sum / (xs.map w).sum

@[simp] theorem excess_nil : excess w t m [] = 0 := List.sum_nil

@[simp] theorem excess_cons :
    excess w t m (x :: xs) = t x - m * w x + excess w t m xs := List.sum_cons

@[simp] theorem excess_append :
    excess w t m (xs ++ ys) = excess w t m xs + excess w t m ys := by
  rw [excess, List.map_append, List.sum_append]
  rfl

theorem excess_eq (m : K) (xs : List α) :
    excess w t m xs = (xs.map t).sum - m * (xs.map w).sum := by
  induction xs with
  | nil => simp
  | cons x xs ih =>
    rw [excess_cons, ih, List.map_cons, List.sum_cons, List.map_cons, List.sum_cons]
    ring

/-- A level for a run: its mean, and no front part of the run falls below it. -/
structure Pooled (w t : α → K) (m : K) (xs : List α) : Prop where
  balanced : excess w t m xs = 0
  above : ∀ front back, xs = front ++ back → 0 ≤ excess w t m front

def settle (w t : α → K) : List α → List (List α) → List (List α)
  | run, [] => [run]
  | run, prev :: rest =>
    if mean w t run < mean w t prev then settle w t (prev ++ run) rest else run :: prev :: rest

def runs (w t : α → K) (xs : List α) : List (List α) :=
  xs.foldl (fun stack x => settle w t [x] stack) []

def level [DecidableEq α] (w t : α → K) (rows : List (List α)) (x : α) : K :=
  ((rows.find? fun run => decide (x ∈ run)).map (mean w t)).getD 0

theorem level_eq [DecidableEq α] {rows : List (List α)} (hn : rows.flatten.Nodup)
    (hrun : run ∈ rows) (hx : x ∈ run) : level w t rows x = mean w t run := by
  induction rows with
  | nil => cases hrun
  | cons row rows ih =>
    rw [List.flatten_cons, List.nodup_append] at hn
    rw [level, List.find?_cons]
    cases List.mem_cons.1 hrun with
    | inl heq =>
      rw [← heq, decide_eq_true hx]
      rfl
    | inr hmem =>
      have hrow : x ∉ row := fun hin =>
        hn.2.2 x hin x (List.mem_flatten.2 ⟨run, hmem, hx⟩) rfl
      rw [decide_eq_false hrow]
      exact ih hn.2.1 hmem

/-- A run that has values, with its mean as its level. -/
structure Run (w t : α → K) (run : List α) : Prop where
  nonempty : run ≠ []
  weighs : ∀ x ∈ run, 0 < w x
  pooled : Pooled w t (mean w t run) run

/-- Runs with rising levels, the last one first. -/
structure Fitted (w t : α → K) (stack : List (List α)) : Prop where
  runs : ∀ run ∈ stack, Run w t run
  rising : stack.Pairwise fun run prev => mean w t prev ≤ mean w t run

section Ordered

variable [IsStrictOrderedRing K]

theorem weight_pos {xs : List α} (hne : xs ≠ []) (hw : ∀ x ∈ xs, 0 < w x) :
    0 < (xs.map w).sum := by
  induction xs with
  | nil => exact absurd rfl hne
  | cons x xs ih =>
    have hx := hw x List.mem_cons_self
    rw [List.map_cons, List.sum_cons]
    cases xs with
    | nil =>
      rw [List.map_nil, List.sum_nil, add_zero]
      exact hx
    | cons y ys =>
      exact add_pos hx (ih (List.cons_ne_nil y ys) fun z hz => hw z (List.mem_cons_of_mem x hz))

theorem excess_mean {xs : List α} (hw : 0 < (xs.map w).sum) :
    excess w t (mean w t xs) xs = 0 := by
  rw [excess_eq, mean, div_mul_cancel₀ _ hw.ne', sub_self]

theorem mean_le {xs : List α} (hw : 0 < (xs.map w).sum) (h : ∀ x ∈ xs, t x ≤ m * w x) :
    mean w t xs ≤ m := by
  have hsum : excess w t m xs ≤ 0 := by
    clear hw
    induction xs with
    | nil => exact le_refl _
    | cons x xs ih =>
      have hx := h x List.mem_cons_self
      have hxs := ih fun y hy => h y (List.mem_cons_of_mem x hy)
      rw [excess_cons]
      linarith
  rw [excess_eq] at hsum
  rw [mean, div_le_iff₀ hw]
  linarith

theorem le_mean {xs : List α} (hw : 0 < (xs.map w).sum) (h : ∀ x ∈ xs, m * w x ≤ t x) :
    m ≤ mean w t xs := by
  have hsum : 0 ≤ excess w t m xs := by
    clear hw
    induction xs with
    | nil => exact le_refl _
    | cons x xs ih =>
      have hx := h x List.mem_cons_self
      have hxs := ih fun y hy => h y (List.mem_cons_of_mem x hy)
      rw [excess_cons]
      linarith
  rw [excess_eq] at hsum
  rw [mean, le_div_iff₀ hw]
  linarith

theorem excess_anti {xs : List α} (hw : ∀ x ∈ xs, 0 < w x) (hm : m ≤ m') :
    excess w t m' xs ≤ excess w t m xs := by
  induction xs with
  | nil => exact le_refl _
  | cons x xs ih =>
    have hx := mul_le_mul_of_nonneg_right hm (hw x List.mem_cons_self).le
    have hxs := ih fun y hy => hw y (List.mem_cons_of_mem x hy)
    rw [excess_cons, excess_cons]
    linarith

theorem Pooled.append (hx : Pooled w t a xs) (hy : Pooled w t b ys) (hbm : b ≤ m) (hma : m ≤ a)
    (hwx : ∀ x ∈ xs, 0 < w x) (hwy : ∀ y ∈ ys, 0 < w y) (hm : excess w t m (xs ++ ys) = 0) :
    Pooled w t m (xs ++ ys) := by
  apply Pooled.mk hm
  intro front back h
  cases List.append_eq_append_iff.1 h with
  | inl hlong =>
    obtain ⟨mid, rfl, rfl⟩ := hlong
    have hback := excess_anti (t := t) (fun y hy => hwy y (List.mem_append_right mid hy)) hbm
    have hmid := hy.above mid back rfl
    have hbal := hy.balanced
    rw [excess_append] at hbal hm ⊢
    rw [excess_append] at hm
    linarith
  | inr hshort =>
    obtain ⟨mid, rfl, rfl⟩ := hshort
    have hfront := excess_anti (t := t) (fun x hx => hwx x (List.mem_append_left mid hx)) hma
    exact (hx.above front mid rfl).trans hfront

theorem mean_append_between {xs ys : List α} (hx : 0 < (xs.map w).sum) (hy : 0 < (ys.map w).sum)
    (h : mean w t ys < mean w t xs) :
    mean w t ys ≤ mean w t (xs ++ ys) ∧ mean w t (xs ++ ys) ≤ mean w t xs := by
  have hcross := (div_lt_div_iff₀ hy hx).1 h
  have hxy : 0 < (xs.map w).sum + (ys.map w).sum := add_pos hx hy
  rw [mean, mean, mean, List.map_append, List.map_append, List.sum_append, List.sum_append,
    div_le_div_iff₀ hy hxy, div_le_div_iff₀ hxy hx]
  exact ⟨by linarith, by linarith⟩

theorem Run.append (hx : Run w t xs) (hy : Run w t ys) (h : mean w t ys < mean w t xs) :
    Run w t (xs ++ ys) := by
  have hweighs : ∀ x ∈ xs ++ ys, 0 < w x := by
    intro x hmem
    cases List.mem_append.1 hmem with
    | inl hmem => exact hx.weighs x hmem
    | inr hmem => exact hy.weighs x hmem
  have hne : xs ++ ys ≠ [] := List.append_ne_nil_of_left_ne_nil hx.nonempty ys
  have hbetween := mean_append_between (weight_pos hx.nonempty hx.weighs)
    (weight_pos hy.nonempty hy.weighs) h
  exact ⟨hne, hweighs, hx.pooled.append hy.pooled hbetween.1 hbetween.2 hx.weighs hy.weighs
    (excess_mean (weight_pos hne hweighs))⟩

theorem Run.single (hx : 0 < w x) : Run w t [x] := by
  have hweighs : ∀ y ∈ [x], 0 < w y := by
    intro y hy
    rw [List.mem_singleton.1 hy]
    exact hx
  have hbalanced := excess_mean (t := t) (weight_pos (List.cons_ne_nil x []) hweighs)
  refine ⟨List.cons_ne_nil x [], hweighs, hbalanced, ?_⟩
  intro front back h
  cases front with
  | nil => rw [excess_nil]
  | cons y front =>
    rw [List.cons_append, List.cons.injEq, List.nil_eq, List.append_eq_nil_iff] at h
    rw [← h.1, h.2.1]
    exact hbalanced.ge

theorem Fitted.settle (h : Fitted w t stack) (hrun : Run w t run) :
    Fitted w t (settle w t run stack) ∧
      (Isotonic.settle w t run stack).reverse.flatten = stack.reverse.flatten ++ run := by
  induction stack generalizing run with
  | nil =>
    refine ⟨⟨?_, List.pairwise_singleton _ _⟩, ?_⟩
    · intro run' hmem
      rw [List.mem_singleton.1 hmem]
      exact hrun
    · rw [Isotonic.settle, List.reverse_singleton, List.flatten_singleton]
      rfl
  | cons prev rest ih =>
    have hprev := h.runs prev List.mem_cons_self
    have hrising := List.pairwise_cons.1 h.rising
    have hrest : Fitted w t rest :=
      ⟨fun run' hmem => h.runs run' (List.mem_cons_of_mem prev hmem), hrising.2⟩
    rw [Isotonic.settle]
    split
    next hlt =>
      obtain ⟨hfitted, hflat⟩ := ih hrest (hprev.append hrun hlt)
      apply And.intro hfitted
      rw [hflat, List.reverse_cons, List.flatten_append, List.flatten_singleton,
        List.append_assoc]
    next hge =>
      have hle := not_lt.1 hge
      refine ⟨⟨?_, List.pairwise_cons.2 ⟨?_, h.rising⟩⟩, ?_⟩
      · intro run' hmem
        cases List.mem_cons.1 hmem with
        | inl heq =>
          rw [heq]
          exact hrun
        | inr hmem => exact h.runs run' hmem
      · intro run' hmem
        cases List.mem_cons.1 hmem with
        | inl heq =>
          rw [heq]
          exact hle
        | inr hmem => exact (hrising.1 run' hmem).trans hle
      · rw [List.reverse_cons, List.flatten_append, List.flatten_singleton]

theorem runs_spec {xs : List α} (hw : ∀ x ∈ xs, 0 < w x) :
    Fitted w t (runs w t xs) ∧ (runs w t xs).reverse.flatten = xs := by
  induction xs using List.reverseRecOn with
  | nil => exact ⟨⟨fun run hmem => (List.not_mem_nil hmem).elim, List.Pairwise.nil⟩, rfl⟩
  | append_singleton xs x ih =>
    obtain ⟨hfitted, hflat⟩ := ih fun y hy => hw y (List.mem_append_left [x] hy)
    have hx : 0 < w x := hw x (List.mem_append_right xs List.mem_cons_self)
    obtain ⟨hfitted', hflat'⟩ := hfitted.settle (Run.single (t := t) hx)
    rw [hflat] at hflat'
    rw [runs, List.foldl_append]
    exact ⟨hfitted', hflat'⟩

theorem sum_mul_le {e g : α → K} {xs : List α} (hc : 0 ≤ c)
    (habove : ∀ front back, xs = front ++ back → 0 ≤ c + (front.map e).sum)
    (hend : c + (xs.map e).sum = 0) (hg : xs.Pairwise fun x y => g x ≤ g y)
    (hlow : ∀ x ∈ xs, l ≤ g x) : c * l + (xs.map fun x => e x * g x).sum ≤ 0 := by
  induction xs generalizing c l with
  | nil =>
    rw [List.map_nil, List.sum_nil, add_zero] at hend
    rw [hend, List.map_nil, List.sum_nil, zero_mul, add_zero]
  | cons x xs ih =>
    rw [List.pairwise_cons] at hg
    rw [List.map_cons, List.sum_cons] at hend ⊢
    have hx : 0 ≤ c + e x := by
      have hone := habove [x] xs rfl
      rwa [List.map_singleton, List.sum_singleton] at hone
    have hrest := ih hx (fun front back h => by
      have hmore := habove (x :: front) back (by rw [h, List.cons_append])
      rw [List.map_cons, List.sum_cons] at hmore
      linarith) (by linarith) hg.2 hg.1
    have hstep := mul_le_mul_of_nonneg_left (hlow x List.mem_cons_self) hc
    linarith

theorem Pooled.pull (h : Pooled w t m xs) {g : α → K}
    (hg : xs.Pairwise fun x y => g x ≤ g y) :
    (xs.map fun x => (t x - m * w x) * (g x - m)).sum ≤ 0 := by
  have hshift : xs.Pairwise fun x y => g x - m ≤ g y - m :=
    hg.imp fun hxy => sub_le_sub_right hxy m
  cases xs with
  | nil => exact le_refl _
  | cons x xs =>
    have hsum := sum_mul_le (c := 0) (l := g x - m) (e := fun x => t x - m * w x) (le_refl 0)
      (fun front back hxs => by
        rw [zero_add]
        exact h.above front back hxs)
      (by
        rw [zero_add]
        exact h.balanced) hshift (fun y hy => by
        cases List.mem_cons.1 hy with
        | inl heq => rw [heq]
        | inr hy => exact (List.pairwise_cons.1 hshift).1 y hy)
    rwa [zero_mul, zero_add] at hsum

theorem pull_flatten {rows : List (List α)} {f g : α → K}
    (h : ∀ run ∈ rows, Pooled w t (mean w t run) run ∧ ∀ x ∈ run, f x = mean w t run)
    (hg : rows.flatten.Pairwise fun x y => g x ≤ g y) :
    (rows.flatten.map fun x => (t x - f x * w x) * (g x - f x)).sum ≤ 0 := by
  induction rows with
  | nil => exact le_refl _
  | cons run rows ih =>
    rw [List.flatten_cons, List.pairwise_append] at hg
    obtain ⟨hpooled, hlevel⟩ := h run List.mem_cons_self
    have hrun := hpooled.pull hg.1
    have hrows := ih (fun run' hmem => h run' (List.mem_cons_of_mem run hmem)) hg.2.1
    have hsame : (run.map fun x => (t x - f x * w x) * (g x - f x)) =
        run.map fun x => (t x - mean w t run * w x) * (g x - mean w t run) :=
      List.map_congr_left fun x hx => by rw [hlevel x hx]
    rw [List.flatten_cons, List.map_append, List.sum_append, hsame]
    linarith

end Ordered

end Prismal.Lib.Isotonic
