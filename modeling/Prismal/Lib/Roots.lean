import Mathlib.Data.Finset.Card
import Mathlib.Data.Finset.Dedup
import Mathlib.Logic.Function.Basic
import Mathlib.Logic.Relation

namespace Prismal.Lib.Roots
set_option autoImplicit true

/-! Forests of parent pointers: a root is its own parent. -/

variable {κ : Type u} {par par' : κ → κ}

/-- `r` is the root above `x`, `n` steps up. -/
inductive Up (par : κ → κ) (r : κ) : Nat → κ → Prop
  | here (hr : par r = r) : Up par r 0 r
  | step (hx : par x ≠ x) (h : Up par r n (par x)) : Up par r (n + 1) x

/-- `r` is the root of the tree of `x`. -/
def Root (par : κ → κ) (x r : κ) : Prop := ∃ n, Up par r n x

def SameTree (par : κ → κ) (x y : κ) : Prop := ∃ r, Root par x r ∧ Root par y r

theorem Up.root (h : Up par r n x) : par r = r := by
  induction h with
  | here hr => exact hr
  | step _ _ ih => exact ih

theorem Up.unique (h : Up par r n x) (h' : Up par r' n' x) : r = r' ∧ n = n' := by
  induction h generalizing n' with
  | here hr =>
    cases h' with
    | here => exact ⟨rfl, rfl⟩
    | step hx => exact absurd hr hx
  | step hx _ ih =>
    cases h' with
    | here hr => exact absurd hr hx
    | step _ h' =>
      obtain ⟨rfl, rfl⟩ := ih h'
      exact ⟨rfl, rfl⟩

theorem Root.unique (h : Root par x r) (h' : Root par x r') : r = r' := by
  obtain ⟨n, h⟩ := h
  obtain ⟨n', h'⟩ := h'
  exact (h.unique h').1

theorem Root.self (hr : par r = r) : Root par r r := ⟨0, .here hr⟩

theorem SameTree.refl (h : Root par x r) : SameTree par x x := ⟨r, h, h⟩

theorem SameTree.symm (h : SameTree par x y) : SameTree par y x := by
  obtain ⟨r, hx, hy⟩ := h
  exact ⟨r, hy, hx⟩

theorem SameTree.trans (h : SameTree par x y) (h' : SameTree par y z) : SameTree par x z := by
  obtain ⟨r, hx, hy⟩ := h
  obtain ⟨r', hy', hz⟩ := h'
  rw [← hy.unique hy'] at hz
  exact ⟨r, hx, hz⟩

theorem Up.visited [DecidableEq κ] {d : Finset κ} (hd : ∀ x ∈ d, par x ∈ d) (h : Up par r n x)
    (hx : x ∈ d) : ∃ l : List κ, l.Nodup ∧ l.length = n + 1 ∧
      ∀ y ∈ l, y ∈ d ∧ ∃ k ≤ n, Up par r k y := by
  induction h with
  | here hr =>
    refine ⟨[r], List.nodup_singleton r, rfl, ?_⟩
    intro y hy
    rw [List.mem_singleton.1 hy]
    exact ⟨hx, 0, Nat.le_refl 0, .here hr⟩
  | @step x n hne h ih =>
    obtain ⟨l, hn, hlen, hl⟩ := ih (hd x hx)
    refine ⟨x :: l, List.nodup_cons.2 ⟨fun hmem => ?_, hn⟩, by rw [List.length_cons, hlen], ?_⟩
    · obtain ⟨-, k, hk, hup⟩ := hl x hmem
      have hdepth := (hup.unique (.step hne h)).2
      omega
    · intro y hy
      rcases List.mem_cons.1 hy with rfl | hy
      · exact ⟨hx, n + 1, Nat.le_refl _, .step hne h⟩
      · obtain ⟨hyd, k, hk, hup⟩ := hl y hy
        exact ⟨hyd, k, Nat.le_succ_of_le hk, hup⟩

theorem Up.depth_lt [DecidableEq κ] {d : Finset κ} (hd : ∀ x ∈ d, par x ∈ d) (h : Up par r n x)
    (hx : x ∈ d) : n < d.card := by
  obtain ⟨l, hn, hlen, hl⟩ := h.visited hd hx
  have hsub : l.toFinset ⊆ d := fun y hy => (hl y (List.mem_toFinset.1 hy)).1
  have hcard := Finset.card_le_card hsub
  rw [List.toFinset_card_of_nodup hn] at hcard
  omega

section Update

variable [DecidableEq κ]

theorem Up.update (h : Up par r n y) (hx : ∀ k ≤ n, ¬Up par r k x) (u : κ) :
    Up (Function.update par x u) r n y := by
  induction h with
  | here hr =>
    have hne : r ≠ x := fun he => hx 0 (Nat.le_refl 0) (he ▸ .here hr)
    exact .here (by rwa [Function.update_of_ne hne])
  | @step y n hy h ih =>
    have hne : y ≠ x := fun he => hx (n + 1) (Nat.le_refl _) (he ▸ .step hy h)
    apply Up.step
    · rwa [Function.update_of_ne hne]
    · rw [Function.update_of_ne hne]
      exact ih fun k hk => hx k (Nat.le_succ_of_le hk)

theorem Up.shortcut (hx : Up par r (n + 1) x) (hu : Up par r k u) (hk : k ≤ n)
    (h : Up par s m y) : ∃ m' ≤ m, Up (Function.update par x u) s m' y := by
  have hux : Up (Function.update par x u) r k u := by
    apply hu.update
    intro j hj hup
    have hdepth := (hup.unique hx).2
    omega
  have hne : u ≠ x := by
    rintro rfl
    have hdepth := (hu.unique hx).2
    omega
  induction h with
  | here hs =>
    have hsx : s ≠ x := by
      rintro rfl
      have hdepth := ((Up.here hs).unique hx).2
      omega
    exact ⟨0, Nat.le_refl 0, .here (by rwa [Function.update_of_ne hsx])⟩
  | @step y m hy h ih =>
    by_cases hyx : y = x
    · subst hyx
      obtain ⟨rfl, hm⟩ := hx.unique (.step hy h)
      refine ⟨k + 1, by omega, .step ?_ ?_⟩
      · rwa [Function.update_self]
      · rwa [Function.update_self]
    · obtain ⟨m', hm', hup⟩ := ih
      refine ⟨m' + 1, by omega, .step ?_ ?_⟩
      · rwa [Function.update_of_ne hyx]
      · rwa [Function.update_of_ne hyx]

theorem Root.link (ha : par a = a) (hb : par b = b) (h : Root par x r) :
    Root (Function.update par a b) x (if r = a then b else r) := by
  by_cases hab : a = b
  · subst hab
    have hsame : Function.update par a a = par := Function.update_eq_self_iff.2 ha.symm
    rw [hsame]
    split
    next hr => exact hr ▸ h
    next => exact h
  · have hba : Function.update par a b b = b := by rwa [Function.update_of_ne (Ne.symm hab)]
    obtain ⟨n, h⟩ := h
    induction h with
    | here hr =>
      split
      next he =>
        subst he
        refine ⟨1, .step ?_ ?_⟩
        · rw [Function.update_self]
          exact Ne.symm hab
        · rw [Function.update_self]
          exact .here hba
      next hne => exact ⟨0, .here (by rwa [Function.update_of_ne hne])⟩
    | @step x n hx h ih =>
      have hxa : x ≠ a := by
        rintro rfl
        exact hx ha
      obtain ⟨m, hm⟩ := ih
      refine ⟨m + 1, .step ?_ ?_⟩
      · rwa [Function.update_of_ne hxa]
      · rwa [Function.update_of_ne hxa]

end Update

section Pointers

variable {R R' : κ → κ → Prop}

def Acyclic (R : κ → κ → Prop) : Prop := ∀ x, ¬ Relation.TransGen R x x

theorem Acyclic.mono (h : Acyclic R) (hsub : ∀ x y, R' x y → R x y) : Acyclic R' :=
  fun x hx => h x (Relation.TransGen.mono hsub x x hx)

theorem Acyclic.link (h : Acyclic R) (hne : a ≠ b) (hb : ∀ y, ¬ R b y)
    (hsub : ∀ x y, R' x y → R x y ∨ x = a ∧ y = b) : Acyclic R' := by
  have hend : ∀ y, ¬ R' b y := by
    intro y hy
    rcases hsub b y hy with hy | ⟨rfl, -⟩
    · exact hb y hy
    · exact hne rfl
  have hwalk : ∀ x y, Relation.TransGen R' x y → Relation.TransGen R x y ∨ y = b := by
    intro x y hxy
    induction hxy with
    | single hxy =>
      rcases hsub _ _ hxy with hxy | ⟨-, rfl⟩
      · exact Or.inl (.single hxy)
      · exact Or.inr rfl
    | tail _ hyz ih =>
      rcases ih with ih | rfl
      · rcases hsub _ _ hyz with hyz | ⟨-, rfl⟩
        · exact Or.inl (ih.tail hyz)
        · exact Or.inr rfl
      · exact absurd hyz (hend _)
  intro x hx
  rcases hwalk x x hx with hx' | rfl
  · exact h x hx'
  · obtain ⟨y, hy, -⟩ := Relation.TransGen.head'_iff.1 hx
    exact hend y hy

end Pointers

end Prismal.Lib.Roots
