import Mathlib.Data.List.Nodup
import Mathlib.Data.List.Sort
import Mathlib.Order.Basic

namespace Prismal.Lib
set_option autoImplicit true

/-! Sorting by a key. -/

variable {α : Type u} {κ : Type v} [LinearOrder κ]

def sortBy (key : α → κ) (xs : List α) : List α := xs.mergeSort fun a b => decide (key a ≤ key b)

theorem perm_sortBy (key : α → κ) (xs : List α) : (sortBy key xs).Perm xs :=
  List.mergeSort_perm _ _

theorem pairwise_sortBy (key : α → κ) (xs : List α) :
    (sortBy key xs).Pairwise fun a b => key a ≤ key b := by
  have hle : ∀ a b c : α, decide (key a ≤ key b) = true → decide (key b ≤ key c) = true →
      decide (key a ≤ key c) = true := by
    intro a b c hab hbc
    exact decide_eq_true (le_trans (of_decide_eq_true hab) (of_decide_eq_true hbc))
  have htotal : ∀ a b : α, (decide (key a ≤ key b) || decide (key b ≤ key a)) = true := by
    intro a b
    rw [Bool.or_eq_true, decide_eq_true_eq, decide_eq_true_eq]
    exact le_total _ _
  exact (List.pairwise_mergeSort hle htotal xs).imp fun h => of_decide_eq_true h

@[simp] theorem sortBy_singleton (key : α → κ) (a : α) : sortBy key [a] = [a] :=
  List.mergeSort_singleton a

theorem sortBy_map {β : Type w} {f : β → α} {key : α → κ} {key' : β → κ} {l : List β}
    (h : ∀ b ∈ l, key (f b) = key' b) : sortBy key (l.map f) = (sortBy key' l).map f := by
  apply (List.map_mergeSort _).symm
  intro a ha b hb
  rw [h a ha, h b hb]

theorem sortBy_prefix_iff {key : α → κ} {xs ys zs : List α} (hperm : zs.Perm (xs ++ ys))
    (hn : (zs.map key).Nodup) :
    sortBy key xs <+: sortBy key zs ↔ ∀ x ∈ xs, ∀ y ∈ ys, key x < key y := by
  have hkeys : ((xs ++ ys).map key).Nodup := (hperm.map key).nodup_iff.1 hn
  constructor
  · intro ⟨rest, hrest⟩ x hx y hy
    have hall : (sortBy key xs ++ rest).Perm (sortBy key xs ++ ys) := by
      rw [hrest]
      exact (perm_sortBy key zs).trans (hperm.trans ((perm_sortBy key xs).symm.append_right ys))
    have hyrest : y ∈ rest := ((List.perm_append_left_iff _).1 hall).mem_iff.2 hy
    have hsorted := pairwise_sortBy key zs
    rw [← hrest, List.pairwise_append] at hsorted
    have hle := hsorted.2.2 x ((perm_sortBy key xs).mem_iff.2 hx) y hyrest
    refine lt_of_le_of_ne hle fun heq => ?_
    rw [List.map_append] at hkeys
    exact (List.nodup_append.1 hkeys).2.2 _ (List.mem_map_of_mem hx) _ (List.mem_map_of_mem hy) heq
  · intro hlt
    refine ⟨sortBy key ys, ?_⟩
    have hperm' : (sortBy key xs ++ sortBy key ys).Perm (sortBy key zs) :=
      ((perm_sortBy key xs).append (perm_sortBy key ys)).trans
        (hperm.symm.trans (perm_sortBy key zs).symm)
    apply @List.Perm.eq_of_pairwise _ (fun a b => key a ≤ key b) _ _ ?_ ?_
      (pairwise_sortBy key zs) hperm'
    · intro a b ha hb hab hba
      have hmem : ∀ c ∈ sortBy key zs, c ∈ zs := fun c hc => (perm_sortBy key zs).mem_iff.1 hc
      exact List.inj_on_of_nodup_map hn (hmem a (hperm'.mem_iff.1 ha)) (hmem b hb)
        (le_antisymm hab hba)
    · rw [List.pairwise_append]
      refine ⟨pairwise_sortBy key xs, pairwise_sortBy key ys, ?_⟩
      intro x hx y hy
      exact le_of_lt (hlt x ((perm_sortBy key xs).mem_iff.1 hx) y
        ((perm_sortBy key ys).mem_iff.1 hy))

end Prismal.Lib

namespace Prismal.Lib
set_option autoImplicit true

/-! Sorting and the first elements of what is sorted. -/

def Strict (r : α → α → Prop) (xs : List α) : Prop :=
  ∀ a ∈ xs, ∀ b ∈ xs, r a b → r b a → a = b

theorem Strict.mono {r : α → α → Prop} (h : Strict r ys) (hsub : ∀ a ∈ xs, a ∈ ys) : Strict r xs :=
  fun a ha b hb => h a (hsub a ha) b (hsub b hb)

theorem take_filter_of_all {p : α → Bool} {xs : List α} (h : ∀ a ∈ xs.take k, p a = true) :
    (xs.filter p).take k = xs.take k := by
  have hhead : (xs.take k).filter p = xs.take k := List.filter_eq_self.2 h
  have hsplit : xs.filter p = xs.take k ++ (xs.drop k).filter p := by
    conv_lhs => rw [← List.take_append_drop k xs, List.filter_append, hhead]
  by_cases hk : k ≤ xs.length
  · rw [hsplit, List.take_left' (List.length_take_of_le hk)]
  · have hle : xs.length ≤ k := le_of_not_ge hk
    rw [List.take_of_length_le hle] at hhead ⊢
    rw [hhead, List.take_of_length_le hle]

section

variable {r : α → α → Prop} [DecidableRel r]

/-- `a` is behind `k` others. -/
def Outranked [DecidableEq α] (r : α → α → Prop) [DecidableRel r] (xs : List α) (k : Nat) (a : α) :
    Prop := k ≤ xs.countP fun b => decide (b ≠ a ∧ r b a)

instance [DecidableEq α] (xs : List α) (k : Nat) (a : α) : Decidable (Outranked r xs k a) :=
  inferInstanceAs (Decidable (_ ≤ _))

theorem not_mem_take_of_outranked [DecidableEq α] {xs : List α} (hsorted : xs.Pairwise r)
    (hstrict : Strict r xs) (h : Outranked r xs k a) : a ∉ xs.take k := by
  intro ha
  have hrest : (xs.drop k).countP (fun b => decide (b ≠ a ∧ r b a)) = 0 := by
    rw [List.countP_eq_zero]
    intro b hb hahead
    obtain ⟨hne, hba⟩ := of_decide_eq_true hahead
    have hab : r a b := by
      rw [← List.take_append_drop k xs, List.pairwise_append] at hsorted
      exact hsorted.2.2 a ha b hb
    exact hne (hstrict b (List.mem_of_mem_drop hb) a (List.mem_of_mem_take ha) hba hab)
  have hhead : (xs.take k).countP (fun b => decide (b ≠ a ∧ r b a)) <
      (xs.take k).countP (fun _ => true) := by
    have hperm := List.perm_cons_erase ha
    rw [hperm.countP_eq, hperm.countP_eq fun _ => true, List.countP_cons_of_neg (by simp),
      List.countP_cons_of_pos rfl]
    exact Nat.lt_succ_of_le (List.countP_mono_left fun _ _ _ => rfl)
  rw [List.countP_true] at hhead
  have hall : Outranked r (xs.take k ++ xs.drop k) k a := by
    rw [List.take_append_drop]
    exact h
  rw [Outranked, List.countP_append, hrest] at hall
  have hlen := List.length_take_le k xs
  omega

variable [Std.Total r] [IsTrans α r]

theorem insertionSort_eq_of_perm {xs ys : List α} (h : xs.Perm ys) (hstrict : Strict r xs) :
    xs.insertionSort r = ys.insertionSort r := by
  have hperm : (xs.insertionSort r).Perm (ys.insertionSort r) :=
    (List.perm_insertionSort r xs).trans (h.trans (List.perm_insertionSort r ys).symm)
  apply List.Perm.eq_of_pairwise _ (List.pairwise_insertionSort r xs)
    (List.pairwise_insertionSort r ys) hperm
  intro a b ha hb
  exact hstrict a ((List.mem_insertionSort r).1 ha) b
    (h.mem_iff.2 ((List.mem_insertionSort r).1 hb))

theorem insertionSort_filter {xs : List α} (hstrict : Strict r xs) (p : α → Bool) :
    (xs.filter p).insertionSort r = (xs.insertionSort r).filter p := by
  have hperm : ((xs.filter p).insertionSort r).Perm ((xs.insertionSort r).filter p) :=
    (List.perm_insertionSort r _).trans ((List.perm_insertionSort r xs).symm.filter p)
  apply List.Perm.eq_of_pairwise _ (List.pairwise_insertionSort r _)
    ((List.pairwise_insertionSort r xs).filter p) hperm
  intro a b ha hb
  have hsub : ∀ c ∈ (xs.filter p).insertionSort r, c ∈ xs := fun c hc =>
    List.mem_of_mem_filter ((List.mem_insertionSort r).1 hc)
  exact hstrict a (hsub a ha) b (hsub b (hperm.mem_iff.2 hb))

theorem take_insertionSort_filter [DecidableEq α] {xs : List α} (hstrict : Strict r xs)
    {p : α → Bool} (h : ∀ a ∈ xs, p a = false → Outranked r xs k a) :
    ((xs.filter p).insertionSort r).take k = (xs.insertionSort r).take k := by
  have hperm := List.perm_insertionSort r xs
  rw [insertionSort_filter hstrict]
  apply take_filter_of_all
  intro a ha
  have hmem : a ∈ xs := hperm.mem_iff.1 (List.mem_of_mem_take ha)
  cases hp : p a with
  | true => rfl
  | false =>
    have houtranked : Outranked r (xs.insertionSort r) k a := by
      rw [Outranked, hperm.countP_eq]
      exact h a hmem hp
    exact absurd ha (not_mem_take_of_outranked (List.pairwise_insertionSort r xs)
      (hstrict.mono fun c hc => hperm.mem_iff.1 hc) houtranked)

end

end Prismal.Lib
