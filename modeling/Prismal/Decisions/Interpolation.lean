import Mathlib.Algebra.Order.Field.Rat
import Mathlib.Algebra.Order.Field.Basic
import Mathlib.Data.Rat.Floor
import Mathlib.Tactic.Linarith

namespace Prismal.Decisions
set_option autoImplicit true

/-! The isotonic map of a calibration record, and the rounding of its points. -/

/-- The loop of `_interp` over the segments between two points. -/
def interpBetween (x : Rat) : List (Rat × Rat) → Rat
  | [] => 0
  | [p] => p.2
  | p :: q :: rest =>
    if x ≤ q.1 then
      if q.1 = p.1 then p.2 else p.2 + (q.2 - p.2) * (x - p.1) / (q.1 - p.1)
    else interpBetween x (q :: rest)

def interp (x : Rat) (xs ys : List Rat) : Rat :=
  if xs.isEmpty then x
  else if x ≤ xs.headD 0 then ys.headD 0
  else if xs.getLastD 0 ≤ x then ys.getLastD 0
  else interpBetween x (xs.zip ys)

def roundHalfEven (q : Rat) : Int :=
  let below := ⌊q⌋
  let rest := q - below
  if rest < 1 / 2 then below
  else if 1 / 2 < rest then below + 1
  else if below % 2 = 0 then below else below + 1

/-- `round(q, 6)` -/
def round6 (q : Rat) : Rat := roundHalfEven (q * 1000000) / 1000000

theorem roundHalfEven_between (q : Rat) : ⌊q⌋ ≤ roundHalfEven q ∧ roundHalfEven q ≤ ⌊q⌋ + 1 := by
  rw [roundHalfEven]
  split
  · exact ⟨le_refl _, by omega⟩
  · split
    · exact ⟨by omega, le_refl _⟩
    · split
      · exact ⟨le_refl _, by omega⟩
      · exact ⟨by omega, le_refl _⟩

theorem roundHalfEven_mono (h : p ≤ q) : roundHalfEven p ≤ roundHalfEven q := by
  have hfloor := Int.floor_le_floor h
  cases lt_or_eq_of_le hfloor with
  | inl hlt =>
    have hp := (roundHalfEven_between p).2
    have hq := (roundHalfEven_between q).1
    omega
  | inr heq =>
    have hrest : p - ⌊p⌋ ≤ q - ⌊p⌋ := sub_le_sub_right h _
    rw [roundHalfEven, roundHalfEven, ← heq]
    split
    · split
      · exact le_refl _
      · split
        · omega
        · split <;> omega
    next hp =>
      have hq : ¬ q - ⌊p⌋ < 1 / 2 := fun hlt => hp (lt_of_le_of_lt hrest hlt)
      rw [if_neg hq]
      split
      next hup =>
        rw [if_pos (lt_of_lt_of_le hup hrest)]
      next =>
        split
        · split
          · omega
          · exact le_refl _
        · split <;> exact le_refl _

theorem round6_mono (h : p ≤ q) : round6 p ≤ round6 q := by
  have hscaled : p * 1000000 ≤ q * 1000000 := mul_le_mul_of_nonneg_right h (by norm_num)
  have hrounded : (roundHalfEven (p * 1000000) : Rat) ≤ roundHalfEven (q * 1000000) :=
    Int.cast_le.2 (roundHalfEven_mono hscaled)
  exact div_le_div_of_nonneg_right hrounded (by norm_num)

def Rising (points : List (Rat × Rat)) : Prop :=
  points.Pairwise fun p q => p.1 ≤ q.1 ∧ p.2 ≤ q.2

theorem segment_mono {p q : Rat × Rat} (hx : p.1 ≤ q.1) (hy : p.2 ≤ q.2) (h : x ≤ x') :
    p.2 + (q.2 - p.2) * (x - p.1) / (q.1 - p.1) ≤
      p.2 + (q.2 - p.2) * (x' - p.1) / (q.1 - p.1) := by
  have hmul : (q.2 - p.2) * (x - p.1) ≤ (q.2 - p.2) * (x' - p.1) :=
    mul_le_mul_of_nonneg_left (sub_le_sub_right h p.1) (sub_nonneg.2 hy)
  have hdiv := div_le_div_of_nonneg_right hmul (sub_nonneg.2 hx)
  linarith

theorem segment_start (p q : Rat × Rat) :
    p.2 + (q.2 - p.2) * (p.1 - p.1) / (q.1 - p.1) = p.2 := by
  rw [sub_self, mul_zero, zero_div, add_zero]

theorem segment_end {p q : Rat × Rat} (h : q.1 ≠ p.1) :
    p.2 + (q.2 - p.2) * (q.1 - p.1) / (q.1 - p.1) = q.2 := by
  rw [mul_div_cancel_right₀ _ (sub_ne_zero.2 h)]
  linarith

theorem interpBetween_ge (h : Rising (p :: rest)) (hx : p.1 ≤ x) :
    p.2 ≤ interpBetween x (p :: rest) := by
  induction rest generalizing p with
  | nil => exact le_refl _
  | cons q rest ih =>
    obtain ⟨hfirst, hrest⟩ := List.pairwise_cons.1 h
    obtain ⟨hpq, hpq'⟩ := hfirst q List.mem_cons_self
    rw [interpBetween]
    split
    · split
      · exact le_refl _
      · have hmono := segment_mono hpq hpq' hx
        rwa [segment_start] at hmono
    next hlt => exact hpq'.trans (ih hrest (not_le.1 hlt).le)

theorem interpBetween_le (h : Rising points) (hpos : points ≠ [])
    (htop : ∀ p ∈ points, p.2 ≤ top) : interpBetween x points ≤ top := by
  induction points with
  | nil => exact absurd rfl hpos
  | cons p rest ih =>
    cases rest with
    | nil => exact htop p List.mem_cons_self
    | cons q rest =>
      obtain ⟨hfirst, hrest⟩ := List.pairwise_cons.1 h
      obtain ⟨hpq, hpq'⟩ := hfirst q List.mem_cons_self
      have hq := htop q (List.mem_cons_of_mem p List.mem_cons_self)
      rw [interpBetween]
      split
      next hx =>
        split
        · exact htop p List.mem_cons_self
        next hne =>
          have hmono := segment_mono hpq hpq' hx
          rw [segment_end hne] at hmono
          exact hmono.trans hq
      · exact ih hrest (List.cons_ne_nil q rest) fun r hr => htop r (List.mem_cons_of_mem p hr)

theorem interpBetween_mono (h : Rising (p :: rest)) (hx : p.1 ≤ x) (hxx : x ≤ x') :
    interpBetween x (p :: rest) ≤ interpBetween x' (p :: rest) := by
  induction rest generalizing p with
  | nil => exact le_refl _
  | cons q rest ih =>
    obtain ⟨hfirst, hrest⟩ := List.pairwise_cons.1 h
    obtain ⟨hpq, hpq'⟩ := hfirst q List.mem_cons_self
    rw [interpBetween, interpBetween]
    by_cases hx' : x' ≤ q.1
    · rw [if_pos (hxx.trans hx'), if_pos hx']
      split
      · exact le_refl _
      · exact segment_mono hpq hpq' hxx
    · rw [if_neg hx']
      split
      next hxq =>
        have hup := interpBetween_ge hrest (not_le.1 hx').le
        split
        · exact hpq'.trans hup
        next hne =>
          have hmono := segment_mono hpq hpq' hxq
          rw [segment_end hne] at hmono
          exact hmono.trans hup
      next hxq => exact ih hrest (not_le.1 hxq).le

theorem rising_zip (hx : xs.Pairwise (· ≤ ·)) (hy : ys.Pairwise (· ≤ ·)) :
    Rising (List.zip xs ys) := by
  induction xs generalizing ys with
  | nil => exact List.Pairwise.nil
  | cons x xs ih =>
    cases ys with
    | nil => exact List.Pairwise.nil
    | cons y ys =>
      rw [List.pairwise_cons] at hx hy
      apply List.pairwise_cons.2
      refine ⟨fun p hp => ?_, ih hx.2 hy.2⟩
      exact ⟨hx.1 p.1 (List.of_mem_zip hp).1, hy.1 p.2 (List.of_mem_zip hp).2⟩

theorem le_getLastD {ys : List Rat} (h : ys.Pairwise (· ≤ ·)) (hy : y ∈ ys) :
    y ≤ ys.getLastD 0 := by
  induction ys generalizing y with
  | nil => cases hy
  | cons z ys ih =>
    rw [List.pairwise_cons] at h
    cases ys with
    | nil =>
      rw [List.mem_singleton.1 hy]
      exact le_refl _
    | cons u ys =>
      have hlast : ∀ {v}, v ∈ u :: ys → v ≤ (u :: ys).getLastD 0 := ih h.2
      cases List.mem_cons.1 hy with
      | inl heq =>
        rw [heq]
        exact (h.1 u List.mem_cons_self).trans (hlast List.mem_cons_self)
      | inr hmem => exact hlast hmem

theorem interp_monotone (hlen : xs.length = ys.length) (hx : xs.Pairwise (· ≤ ·))
    (hy : ys.Pairwise (· ≤ ·)) : Monotone fun x => interp x xs ys := by
  intro a b hab
  change interp a xs ys ≤ interp b xs ys
  cases xs with
  | nil => exact hab
  | cons x xs =>
    cases ys with
    | nil => cases hlen
    | cons y ys =>
      have hrising := rising_zip hx hy
      have hbelow : y ≤ (y :: ys).getLastD 0 := le_getLastD hy List.mem_cons_self
      have htop : ∀ p ∈ List.zip (x :: xs) (y :: ys), p.2 ≤ (y :: ys).getLastD 0 :=
        fun p hp => le_getLastD hy (List.of_mem_zip hp).2
      have hne : List.zip (x :: xs) (y :: ys) ≠ [] := List.cons_ne_nil _ _
      rw [interp, interp, List.isEmpty_cons, if_neg Bool.false_ne_true, if_neg Bool.false_ne_true,
        List.headD_cons, List.headD_cons]
      by_cases ha : a ≤ x
      · rw [if_pos ha]
        split
        · exact le_refl _
        next hb =>
          split
          · exact hbelow
          · exact interpBetween_ge hrising (not_le.1 hb).le
      · have hb : ¬ b ≤ x := fun hb => ha (hab.trans hb)
        rw [if_neg ha, if_neg hb]
        split
        next hlast => rw [if_pos (hlast.trans hab)]
        · split
          · exact interpBetween_le hrising hne htop
          · exact interpBetween_mono hrising (not_le.1 ha).le hab

end Prismal.Decisions
