import Mathlib.Algebra.BigOperators.Group.Finset.Basic
import Mathlib.Algebra.BigOperators.Fin
import Mathlib.Data.Fintype.Basic
import Mathlib.Tactic.Abel

namespace Prismal.Lib
open Finset Function
set_option autoImplicit true
set_option linter.unusedSectionVars false

section

variable {ι κ : Type} [Fintype ι] [DecidableEq ι] [DecidableEq κ]

def fiber (x : ι → κ) (j : κ) : Finset ι := univ.filter fun i => x i = j

def load (x : ι → κ) (j : κ) : ℕ := (fiber x j).card

/-- The fibres after one item has left `a` for `b`. -/
def shiftFiber (m : κ → Finset ι) (i : ι) (a b : κ) : κ → Finset ι :=
  update (update m a ((m a).erase i)) b (insert i (update m a ((m a).erase i) b))

/-- The loads after one item has left `a` for `b`. -/
def shiftLoad (c : κ → ℕ) (a b : κ) : κ → ℕ :=
  update (update c a (c a - 1)) b (update c a (c a - 1) b + 1)

theorem mem_fiber {x : ι → κ} : i ∈ fiber x j ↔ x i = j := by simp [fiber]

theorem fiber_update (x : ι → κ) (i : ι) (b : κ) :
    fiber (update x i b) = shiftFiber (fiber x) i (x i) b := by
  funext j
  ext h
  rw [mem_fiber, shiftFiber]
  by_cases hj : j = b
  · subst hj
    simp only [update_self, update_apply, mem_insert]
    grind [mem_fiber]
  · rw [update_of_ne hj]
    simp only [update_apply]
    grind [mem_fiber]

theorem load_pos (x : ι → κ) (i : ι) : 0 < load x (x i) :=
  card_pos.2 ⟨i, mem_fiber.2 rfl⟩

theorem load_update (x : ι → κ) (i : ι) (b : κ) :
    load (update x i b) = shiftLoad (load x) (x i) b := by
  have hi : i ∈ fiber x (x i) := mem_fiber.2 rfl
  have hp := load_pos x i
  funext j
  rw [load, fiber_update, shiftFiber, shiftLoad]
  by_cases hj : j = b
  · subst hj
    by_cases ha : j = x i
    · subst ha
      simp [load, card_erase_of_mem hi]
    · have hn : i ∉ fiber x j := fun h => ha (mem_fiber.1 h).symm
      simp [load, ha, hn]
  · by_cases ha : j = x i
    · subst ha
      simp [load, hj, card_erase_of_mem hi]
    · simp [load, hj, ha]

theorem shiftLoad_le (c : κ → ℕ) (a b j : κ) (h : j ≠ b) : shiftLoad c a b j ≤ c j := by
  rw [shiftLoad, update_of_ne h]
  by_cases ha : j = a
  · subst ha
    simp
  · simp [ha]

theorem shiftLoad_target (c : κ → ℕ) (a b : κ) : shiftLoad c a b b ≤ c b + 1 := by
  rw [shiftLoad, update_self]
  by_cases ha : b = a
  · subst ha
    simp
  · simp [ha]

def Fits (caps : κ → ℕ) (c : κ → ℕ) : Prop := ∀ j, c j ≤ caps j

theorem Fits.shift {c : κ → ℕ} (h : Fits caps c) (hb : c b < caps b) (a : κ) :
    Fits caps (shiftLoad c a b) := by
  intro j
  by_cases hj : j = b
  · subst hj
    exact (shiftLoad_target c a j).trans hb
  · exact (shiftLoad_le c a b j hj).trans (h j)

theorem load_swap (x : ι → κ) (i h : ι) (hne : x i ≠ x h) :
    load (update (update x h (x i)) i (x h)) = load x := by
  have hih : i ≠ h := fun e => hne (congrArg x e)
  rw [load_update, load_update, update_of_ne hih]
  have hi := load_pos x i
  have hh := load_pos x h
  funext j
  simp only [shiftLoad, update_apply]
  grind

end

section

variable {ι κ R : Type} [Fintype ι] [DecidableEq ι] [AddCommGroup R]

def totalOf (w : ι → κ → R) (x : ι → κ) : R := ∑ i, w i (x i)

theorem totalOf_update (w : ι → κ → R) (x : ι → κ) (i : ι) (b : κ) :
    totalOf w (update x i b) = totalOf w x - w i (x i) + w i b := by
  have hsum : ∀ y : ι → κ, totalOf w y = w i (y i) + ∑ h ∈ univ.erase i, w h (y h) := fun y =>
    (add_sum_erase univ (fun h => w h (y h)) (mem_univ i)).symm
  have hrest : ∑ h ∈ univ.erase i, w h (update x i b h) = ∑ h ∈ univ.erase i, w h (x h) :=
    sum_congr rfl fun h hh => by rw [update_of_ne (ne_of_mem_erase hh)]
  rw [hsum, hsum x, update_self, hrest]
  abel

end

section

variable {ι κ R : Type} [Fintype ι] [Fintype κ] [DecidableEq κ] [CommSemiring R]

theorem sum_eq_load (price : κ → R) (x : ι → κ) :
    ∑ i, price (x i) = ∑ j, price j * load x j := by
  rw [← sum_fiberwise' univ x price]
  apply sum_congr rfl
  intro j _
  rw [sum_const, nsmul_eq_mul, mul_comm]
  rfl

end

end Prismal.Lib
