import Mathlib.Data.Finset.Card
import Mathlib.Data.List.Nodup

namespace Prismal.Lib.Sweep
set_option autoImplicit true

/-! Flags that are raised one key after another, and how many of them were down. -/

variable {κ : Type u} [DecidableEq κ]

def mark (flag : κ → Bool) (k : κ) : κ → Bool := fun j => flag j || decide (j = k)

def markAll (flag : κ → Bool) (ks : List κ) : κ → Bool := ks.foldl mark flag

def risen (flag : κ → Bool) : List κ → Nat
  | [] => 0
  | k :: ks => (if flag k then 0 else 1) + risen (mark flag k) ks

theorem mark_of_up {flag : κ → Bool} (h : flag k = true) : mark flag k = flag := by
  funext j
  rw [mark]
  by_cases hj : j = k
  · rw [hj, h, Bool.true_or]
  · rw [decide_eq_false hj, Bool.or_false]

theorem mark_self (flag : κ → Bool) (k : κ) : mark flag k k = true := by
  rw [mark, decide_eq_true rfl, Bool.or_true]

theorem le_mark {flag : κ → Bool} (h : flag j = true) : mark flag k j = true := by
  rw [mark, h, Bool.true_or]

theorem markAll_eq (flag : κ → Bool) (ks : List κ) (j : κ) :
    markAll flag ks j = (flag j || decide (j ∈ ks)) := by
  induction ks generalizing flag with
  | nil => simp [markAll]
  | cons k ks ih =>
    have h := ih (mark flag k)
    simp only [markAll, List.foldl_cons] at h ⊢
    rw [h, mark, Bool.or_assoc, ← Bool.decide_or]
    congr 1
    exact decide_eq_decide.2 List.mem_cons.symm

theorem markAll_append (flag : κ → Bool) (xs ys : List κ) :
    markAll flag (xs ++ ys) = markAll (markAll flag xs) ys := List.foldl_append

theorem risen_append (flag : κ → Bool) (xs ys : List κ) :
    risen flag (xs ++ ys) = risen flag xs + risen (markAll flag xs) ys := by
  induction xs generalizing flag with
  | nil => exact (Nat.zero_add _).symm
  | cons x xs ih =>
    rw [List.cons_append, risen, risen, ih, Nat.add_assoc]
    rfl

theorem risen_le_countP (flag : κ → Bool) (ks : List κ) :
    risen flag ks ≤ ks.countP fun k => !flag k := by
  induction ks generalizing flag with
  | nil => exact Nat.le_refl 0
  | cons k ks ih =>
    have hmono : (ks.countP fun j => !mark flag k j) ≤ ks.countP fun j => !flag j := by
      apply List.countP_mono_left
      intro j _ hj
      rw [mark, Bool.not_or, Bool.and_eq_true] at hj
      exact hj.1
    have hle := (ih (mark flag k)).trans hmono
    rw [risen, List.countP_cons]
    cases flag k with
    | true => simpa using hle
    | false => simpa [Nat.add_comm] using hle

theorem risen_le_length (flag : κ → Bool) (ks : List κ) : risen flag ks ≤ ks.length :=
  (risen_le_countP flag ks).trans List.countP_le_length

theorem risen_eq_countP_iff (flag : κ → Bool) (ks : List κ) :
    risen flag ks = ks.countP (fun k => !flag k) ↔ (ks.filter fun k => !flag k).Nodup := by
  induction ks generalizing flag with
  | nil => simp [risen]
  | cons k ks ih =>
    cases hk : flag k with
    | true =>
      rw [risen, mark_of_up hk, List.countP_cons, List.filter_cons]
      simpa [hk] using ih flag
    | false =>
      have hfilter : (ks.filter fun j => !mark flag k j) =
          (ks.filter fun j => !flag j).filter fun j => !decide (j = k) := by
        rw [List.filter_filter]
        apply List.filter_congr
        intro j _
        rw [mark, Bool.not_or, Bool.and_comm]
      have hle := risen_le_countP (mark flag k) ks
      have hih := ih (mark flag k)
      rw [List.countP_eq_length_filter, hfilter] at hle hih
      have hsub := List.length_filter_le (fun j => !decide (j = k)) (ks.filter fun j => !flag j)
      rw [risen, List.countP_cons, List.filter_cons]
      simp only [hk, Bool.not_false, if_true, Bool.false_eq_true, if_false, List.nodup_cons]
      rw [List.countP_eq_length_filter]
      by_cases hmem : k ∈ ks.filter fun j => !flag j
      · have hlt : ((ks.filter fun j => !flag j).filter fun j => !decide (j = k)).length <
            (ks.filter fun j => !flag j).length :=
          List.length_filter_lt_length_iff_exists.2 ⟨k, hmem, by simp⟩
        apply iff_of_false
        · omega
        · exact fun h => h.1 hmem
      · have hself : (ks.filter fun j => !flag j).filter (fun j => !decide (j = k)) =
            ks.filter fun j => !flag j := by
          apply List.filter_eq_self.2
          intro j hj
          have hne : j ≠ k := fun he => hmem (he ▸ hj)
          simp [hne]
        rw [hself] at hih
        rw [Nat.add_comm 1, Nat.add_right_cancel_iff, hih]
        exact (and_iff_right hmem).symm

theorem risen_eq_card (flag : κ → Bool) (ks : List κ) :
    risen flag ks = (ks.toFinset.filter fun k => flag k = false).card := by
  induction ks generalizing flag with
  | nil => rfl
  | cons k ks ih =>
    rw [risen, ih]
    cases hk : flag k with
    | true =>
      rw [mark_of_up hk, List.toFinset_cons, Finset.filter_insert]
      simp [hk]
    | false =>
      have hinsert : (insert k ks.toFinset).filter (fun j => flag j = false) =
          insert k (ks.toFinset.filter fun j => mark flag k j = false) := by
        ext j
        simp only [Finset.mem_filter, Finset.mem_insert, List.mem_toFinset, mark,
          Bool.or_eq_false_iff, decide_eq_false_iff_not]
        by_cases hj : j = k
        · simp [hj, hk]
        · simp [hj]
      have hnot : k ∉ ks.toFinset.filter fun j => mark flag k j = false := by
        simp [mark_self]
      rw [List.toFinset_cons, hinsert, Finset.card_insert_of_notMem hnot, if_neg (by simp),
        Nat.add_comm]

theorem risen_eq_length {flag : κ → Bool} {ks down : List κ} (hn : down.Nodup)
    (h : ∀ k, k ∈ down ↔ k ∈ ks ∧ flag k = false) : risen flag ks = down.length := by
  rw [risen_eq_card, ← List.toFinset_card_of_nodup hn]
  congr 1
  ext k
  rw [Finset.mem_filter, List.mem_toFinset, List.mem_toFinset, h]

end Prismal.Lib.Sweep
