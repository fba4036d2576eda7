import Mathlib.Data.List.DropRight
import Mathlib.Data.List.Induction

namespace Prismal.Lib
set_option autoImplicit true

/-- A queue that holds the last `cap` entries. -/
structure Deque (cap : Nat) (α : Type u) where
  toList : List α
  bounded : toList.length ≤ cap

namespace Deque

variable {α : Type u} {cap : Nat}

theorem length_rtake_le (xs : List α) (n : Nat) : (xs.rtake n).length ≤ n := by
  rw [List.rtake, List.length_drop]
  omega

theorem rtake_concat_rtake (xs : List α) (a : α) (n : Nat) :
    (xs.rtake n ++ [a]).rtake n = (xs ++ [a]).rtake n := by
  cases n with
  | zero => rw [List.rtake_zero, List.rtake_zero]
  | succ n =>
    rw [List.rtake_concat_succ, List.rtake_concat_succ, List.rtake, List.rtake, List.rtake,
      List.drop_drop, List.length_drop]
    congr 2
    omega

def empty : Deque cap α := ⟨[], Nat.zero_le _⟩

def push (d : Deque cap α) (a : α) : Deque cap α :=
  ⟨(d.toList ++ [a]).rtake cap, length_rtake_le _ _⟩

def last (cap : Nat) (xs : List α) : Deque cap α := ⟨xs.rtake cap, length_rtake_le _ _⟩

@[simp] theorem toList_last (xs : List α) : (last cap xs).toList = xs.rtake cap := rfl

theorem last_nil : last cap ([] : List α) = empty := by
  rw [last, empty]
  congr 1
  exact List.rtake_nil cap

theorem push_last (xs : List α) (a : α) : (last cap xs).push a = last cap (xs ++ [a]) := by
  rw [push, last, last]
  congr 1
  exact rtake_concat_rtake xs a cap

end Deque

end Prismal.Lib

namespace Prismal.Lib
set_option autoImplicit true

/-- Something happened, as `P` says of it and of what went before, and nothing since undid it. -/
def Since (P : List α → α → Prop) (undone : α → Prop) (events : List α) : Prop :=
  ∃ before a rest, events = before ++ a :: rest ∧ P before a ∧ ∀ c ∈ rest, ¬ undone c

variable {P Q : List α → α → Prop} {undone : α → Prop} {events : List α} {a : α}

theorem not_since_nil : ¬ Since P undone [] := by
  intro ⟨before, a, rest, hnil, _⟩
  exact List.append_ne_nil_of_right_ne_nil before (List.cons_ne_nil a rest) hnil.symm

theorem since_concat :
    Since P undone (events ++ [a]) ↔ P events a ∨ Since P undone events ∧ ¬ undone a := by
  constructor
  · intro ⟨before, b, rest, heq, hb, hrest⟩
    rcases List.eq_nil_or_concat rest with rfl | ⟨rest, c, rfl⟩
    · obtain ⟨rfl, htail⟩ := List.append_inj' heq rfl
      obtain rfl := (List.cons.inj htail).1
      exact .inl hb
    · rw [List.concat_eq_append, ← List.cons_append, ← List.append_assoc] at heq
      obtain ⟨rfl, htail⟩ := List.append_inj' heq rfl
      obtain rfl := (List.cons.inj htail).1
      rw [List.concat_eq_append] at hrest
      refine .inr ⟨⟨before, b, rest, rfl, hb, ?_⟩, ?_⟩
      · exact fun c hc => hrest c (List.mem_append_left _ hc)
      · exact hrest a (List.mem_append_right _ List.mem_cons_self)
  · intro h
    rcases h with hnow | ⟨⟨before, b, rest, rfl, hb, hrest⟩, ha⟩
    · exact ⟨events, a, [], rfl, hnow, nofun⟩
    · refine ⟨before, b, rest ++ [a], by rw [List.append_assoc, List.cons_append], hb, ?_⟩
      intro c hc
      rcases List.mem_append.1 hc with hc | hc
      · exact hrest c hc
      · exact List.mem_singleton.1 hc ▸ ha

end Prismal.Lib
