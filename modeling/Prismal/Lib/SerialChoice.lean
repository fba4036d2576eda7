import Mathlib.Data.List.Induction
import Mathlib.Data.List.Nodup
import Mathlib.Logic.Function.Basic

namespace Prismal.Lib
open Function
set_option autoImplicit true
set_option linter.unusedSectionVars false

/-! Items that choose one after the other. Each takes the first of its options that has room. -/

namespace SerialChoice

variable {ι : Type u} {κ : Type v} [DecidableEq ι] [DecidableEq κ]

def run (options : ι → List κ) : List ι → (κ → Nat) → (ι → Option κ) → ι → Option κ
  | [], _, x => x
  | i :: is, room, x =>
    match (options i).find? fun j => decide (0 < room j) with
    | none => run options is room x
    | some j => run options is (update room j (room j - 1)) (update x i (some j))

def taken (y : ι → Option κ) (is : List ι) (j : κ) : Nat := is.countP fun i => decide (y i = some j)

def best (options : ι → List κ) (caps : κ → Nat) (y : ι → Option κ) (before : List ι) (i : ι) :
    Option κ :=
  (options i).find? fun j => decide (taken y before j < caps j)

def Settled (options : ι → List κ) (caps : κ → Nat) (order : List ι) (y : ι → Option κ) : Prop :=
  ∀ front i back, order = front ++ i :: back → y i = best options caps y front i

variable {options : ι → List κ} {caps room : κ → Nat} {x y z : ι → Option κ} {before is : List ι}

theorem taken_congr (h : ∀ i ∈ is, y i = z i) (j : κ) : taken y is j = taken z is j :=
  List.countP_congr fun i hi => by rw [h i hi]

theorem best_congr (h : ∀ i ∈ before, y i = z i) (i : ι) :
    best options caps y before i = best options caps z before i := by
  rw [best, best]
  congr 1
  funext j
  rw [taken_congr h]

theorem taken_concat (y : ι → Option κ) (is : List ι) (i : ι) (j : κ) :
    taken y (is ++ [i]) j = taken y is j + if y i = some j then 1 else 0 := by
  rw [taken, List.countP_append, List.countP_singleton, taken]
  simp only [decide_eq_true_eq]

/-- What holds before a choice: the room is what the items that have chosen leave, and the others
are nowhere. -/
structure Choosing (caps room : κ → Nat) (x : ι → Option κ) (chosen : List ι) : Prop where
  room : ∀ j, room j + taken x chosen j = caps j
  nowhere : ∀ i, i ∉ chosen → x i = none

theorem Choosing.start (caps : κ → Nat) : Choosing caps caps (fun _ : ι => none) [] :=
  ⟨fun _ => rfl, fun _ _ => rfl⟩

theorem Choosing.stay (h : Choosing caps room x before) (hi : i ∉ before) :
    Choosing caps room x (before ++ [i]) := by
  constructor
  · intro j
    rw [taken_concat, h.nowhere i hi, if_neg (by simp)]
    exact h.room j
  · intro i' hi'
    exact h.nowhere i' fun hmem => hi' (List.mem_append_left _ hmem)

theorem update_before (hi : i ∉ before) (j : κ) : ∀ h ∈ before, update x i (some j) h = x h := by
  intro h hmem
  apply update_of_ne
  rintro rfl
  exact hi hmem

theorem Choosing.take (h : Choosing caps room x before) (hi : i ∉ before) (hroom : 0 < room j) :
    Choosing caps (update room j (room j - 1)) (update x i (some j)) (before ++ [i]) := by
  constructor
  · intro j'
    rw [taken_concat, taken_congr (update_before hi j), update_self]
    have hj := h.room j'
    by_cases hjj : j' = j
    · subst hjj
      rw [update_self, if_pos rfl]
      omega
    · have hne : some j ≠ some j' := fun heq => hjj (Option.some.inj heq).symm
      rw [update_of_ne hjj, if_neg hne]
      exact hj
  · intro i' hi'
    rw [List.mem_append, List.mem_singleton, not_or] at hi'
    rw [update_of_ne hi'.2]
    exact h.nowhere i' hi'.1

theorem Choosing.best_eq (h : Choosing caps room x before) (i : ι) :
    best options caps x before i = (options i).find? fun j => decide (0 < room j) := by
  rw [best]
  congr 1
  funext j
  have hj := h.room j
  congr 1
  apply propext
  omega

theorem run_spec (h : Choosing caps room x before) (hn : (before ++ is).Nodup) :
    (∀ i ∈ before, run options is room x i = x i) ∧
      ∀ front i back, is = front ++ i :: back →
        run options is room x i = best options caps (run options is room x) (before ++ front) i := by
  induction is generalizing room x before with
  | nil => exact ⟨fun _ _ => rfl, fun front i back h => absurd h (by simp)⟩
  | cons i is ih =>
    have hi : i ∉ before := fun hmem =>
      (List.nodup_append.1 hn).2.2 i hmem i List.mem_cons_self rfl
    rw [List.append_cons] at hn
    -- The choice of `i` settles it and leaves a state of the same kind.
    obtain ⟨room', x', hrun, hchoosing, hx', hold⟩ : ∃ room' x',
        run options (i :: is) room x = run options is room' x' ∧
        Choosing caps room' x' (before ++ [i]) ∧ x' i = best options caps x before i ∧
        ∀ h ∈ before, x' h = x h := by
      rw [h.best_eq, run]
      split
      next hnone => exact ⟨room, x, rfl, h.stay hi, (h.nowhere i hi).trans hnone.symm, fun _ _ => rfl⟩
      next j hj =>
        have hroom : 0 < room j := by
          have hfound := List.find?_some hj
          exact of_decide_eq_true hfound
        exact ⟨_, _, rfl, h.take hi hroom, (update_self i (some j) x).trans hj.symm,
          update_before hi j⟩
    obtain ⟨hkeep, hrest⟩ := ih hchoosing hn
    rw [hrun]
    have hbefore : ∀ h ∈ before, run options is room' x' h = x h := fun h hmem =>
      (hkeep h (List.mem_append_left _ hmem)).trans (hold h hmem)
    refine ⟨hbefore, fun front i' back heq => ?_⟩
    cases front with
    | nil =>
      rw [List.nil_append, List.cons.injEq] at heq
      obtain ⟨rfl, rfl⟩ := heq
      rw [List.append_nil, best_congr hbefore, ← hx']
      exact hkeep i (List.mem_append_right _ (List.mem_singleton_self i))
    | cons f front =>
      rw [List.cons_append, List.cons.injEq] at heq
      obtain ⟨rfl, heq⟩ := heq
      rw [List.append_cons]
      exact hrest front i' back heq

theorem settled_run (hn : order.Nodup) :
    Settled options caps order (run options order caps fun _ => none) :=
  (run_spec (Choosing.start caps) hn).2

theorem Settled.unique (h : Settled options caps order y) (h' : Settled options caps order z) :
    ∀ i ∈ order, y i = z i := by
  have hfront : ∀ front back, order = front ++ back → ∀ i ∈ front, y i = z i := by
    intro front
    induction front using List.reverseRecOn with
    | nil => exact fun _ _ => List.forall_mem_nil _
    | append_singleton front i ih =>
      intro back heq
      rw [List.append_assoc, List.singleton_append] at heq
      have hbefore := ih (i :: back) heq
      intro i' hi'
      rcases List.mem_append.1 hi' with hi' | hi'
      · exact hbefore i' hi'
      · rw [List.mem_singleton.1 hi', h front i back heq, h' front i back heq, best_congr hbefore]
  exact hfront order [] (List.append_nil _).symm

end SerialChoice

end Prismal.Lib
