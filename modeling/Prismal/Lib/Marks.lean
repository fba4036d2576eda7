import Mathlib.Data.Finset.Basic
import Mathlib.Data.Finset.Image

namespace Prismal.Lib
set_option autoImplicit true

/-- One mark of a stream of brackets that are told apart by a key. -/
inductive Mark (κ : Type u) where
  | opens (k : κ)
  | uses (k : κ)
  | closes (k : κ)

namespace Mark

variable {κ : Type u} [DecidableEq κ]

def step (s : Finset κ) : Mark κ → Option (Finset κ)
  | opens k => if k ∈ s then none else some (insert k s)
  | uses k => if k ∈ s then some s else none
  | closes k => if k ∈ s then some (s.erase k) else none

def run (s : Finset κ) : List (Mark κ) → Option (Finset κ)
  | [] => some s
  | m :: ms => (step s m).bind fun t => run t ms

def Balanced (ms : List (Mark κ)) : Prop := run ∅ ms = some ∅

instance (ms : List (Mark κ)) : Decidable (Balanced ms) :=
  inferInstanceAs (Decidable (run ∅ ms = some ∅))

def nest (s : List κ) : List (Mark κ) → Option (List κ)
  | [] => some s
  | opens k :: ms => nest (k :: s) ms
  | uses k :: ms => if s.head? = some k then nest s ms else none
  | closes k :: ms => if s.head? = some k then nest s.tail ms else none

def Nested (ms : List (Mark κ)) : Prop := nest [] ms = some []

instance (ms : List (Mark κ)) : Decidable (Nested ms) :=
  inferInstanceAs (Decidable (nest [] ms = some []))

@[simp] theorem run_nil (s : Finset κ) : run s [] = some s := rfl

theorem run_append (s : Finset κ) (xs ys : List (Mark κ)) :
    run s (xs ++ ys) = (run s xs).bind fun t => run t ys := by
  induction xs generalizing s with
  | nil => rfl
  | cons x xs ih =>
    simp only [List.cons_append, run, Option.bind_assoc]
    cases step s x with
    | none => rfl
    | some t => exact ih t

theorem run_trans {xs ys : List (Mark κ)} (hx : run s xs = some t) (hy : run t ys = some u) :
    run s (xs ++ ys) = some u := by
  rw [run_append, hx]
  exact hy

theorem run_fail {xs ys : List (Mark κ)} (hx : run s xs = some t) (hy : run t ys = none) :
    run s (xs ++ ys) = none := by
  rw [run_append, hx]
  exact hy

theorem run_none_append {xs : List (Mark κ)} (h : run s xs = none) (ys : List (Mark κ)) :
    run s (xs ++ ys) = none := by
  rw [run_append, h]
  rfl

theorem nest_append (s : List κ) (xs ys : List (Mark κ)) :
    nest s (xs ++ ys) = (nest s xs).bind fun t => nest t ys := by
  induction xs generalizing s with
  | nil => rfl
  | cons x xs ih => cases x <;> simp only [List.cons_append, nest, ih] <;> split <;> rfl

theorem nest_trans {xs ys : List (Mark κ)} (hx : nest s xs = some t) (hy : nest t ys = some u) :
    nest s (xs ++ ys) = some u := by
  rw [nest_append, hx]
  exact hy

theorem run_opens {s : Finset κ} (h : k ∉ s) : run s [opens k] = some (insert k s) := by
  simp [run, step, h]

theorem run_uses {s : Finset κ} (h : k ∈ s) : run s [uses k] = some s := by
  simp [run, step, h]

theorem run_closes {s : Finset κ} (h : k ∈ s) : run s [closes k] = some (s.erase k) := by
  simp [run, step, h]

theorem run_opens_uses {s : Finset κ} (h : k ∉ s) :
    run s [opens k, uses k] = some (insert k s) :=
  (run_trans (run_opens h) (run_uses (Finset.mem_insert_self k s)) :)

theorem run_opens_uses_closes {s : Finset κ} (h : k ∉ s) :
    run s [opens k, uses k, closes k] = some s := by
  have hc : run (insert k s) [closes k] = some s := by
    rw [run_closes (Finset.mem_insert_self k s), Finset.erase_insert h]
  exact (run_trans (run_opens_uses h) hc :)

theorem run_reopens {s : Finset κ} (h : k ∈ s) (ms : List (Mark κ)) :
    run s (opens k :: ms) = none := by
  simp [run, step, h]

theorem run_closeAll {ks : List κ} (hn : ks.Nodup) {s : Finset κ} (h : ∀ k ∈ ks, k ∈ s) :
    run s (ks.map closes) = some (s \ ks.toFinset) := by
  induction ks generalizing s with
  | nil => simp
  | cons k ks ih =>
    rw [List.nodup_cons] at hn
    have hks : ∀ j ∈ ks, j ∈ s.erase k := by
      intro j hj
      have hne : j ≠ k := fun he => hn.1 (he ▸ hj)
      exact Finset.mem_erase.2 ⟨hne, h j (List.mem_cons_of_mem _ hj)⟩
    have hk : s \ (insert k ks.toFinset) = s.erase k \ ks.toFinset := by
      ext j
      simp only [Finset.mem_sdiff, Finset.mem_insert, Finset.mem_erase]
      grind
    simp only [List.map_cons, run, step, h k List.mem_cons_self, if_true, Option.bind_some,
      List.toFinset_cons, hk]
    exact ih hn.2 hks

theorem run_drain {ks : List κ} (hn : ks.Nodup) : run ks.toFinset (ks.map closes) = some ∅ := by
  rw [run_closeAll hn fun k hk => List.mem_toFinset.2 hk, Finset.sdiff_self]

end Mark

end Prismal.Lib
