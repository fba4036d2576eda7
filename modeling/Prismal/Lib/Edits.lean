import Mathlib.Algebra.Ring.Int.Defs
import Mathlib.Data.List.Basic

namespace Prismal.Lib
set_option autoImplicit true

/-! Edits of a list by position. -/

structure Edit (α : Type) where
  index : Nat
  old : α
  new : α

/-- `out[idx] = new`, one after the other. -/
def setAll (l : List α) (sets : List (Nat × α)) : List α :=
  sets.foldl (fun out s => out.set s.1 s.2) l

def Edit.replacement (e : Edit α) : Nat × α := (e.index, e.new)

def edited (l : List α) (edits : List (Edit α)) : List α := setAll l (edits.map Edit.replacement)

/-- Each edit replaces what is at its position, and no position is edited twice. -/
structure Applicable (l : List α) (edits : List (Edit α)) : Prop where
  here : ∀ e ∈ edits, l[e.index]? = some e.old
  apart : (edits.map Edit.index).Nodup

theorem edited_nil (l : List α) : edited l [] = l := rfl

theorem edited_cons (l : List α) (e : Edit α) (edits : List (Edit α)) :
    edited l (e :: edits) = edited (l.set e.index e.new) edits := rfl

@[simp] theorem length_edited (l : List α) (edits : List (Edit α)) :
    (edited l edits).length = l.length := by
  induction edits generalizing l with
  | nil => rfl
  | cons e edits ih => simp [edited_cons, ih]

theorem edited_elsewhere {l : List α} {edits : List (Edit α)} {i : Nat}
    (h : ∀ e ∈ edits, e.index ≠ i) : (edited l edits)[i]? = l[i]? := by
  induction edits generalizing l with
  | nil => rfl
  | cons e edits ih =>
    have hne : e.index ≠ i := h e List.mem_cons_self
    rw [edited_cons, ih fun e' he' => h e' (List.mem_cons_of_mem e he'), List.getElem?_set_ne hne]

theorem Applicable.tail {l : List α} {e : Edit α} {edits : List (Edit α)}
    (h : Applicable l (e :: edits)) : Applicable (l.set e.index e.new) edits := by
  have hapart := List.nodup_cons.1 h.apart
  apply Applicable.mk
  · intro e' he'
    have hne : e.index ≠ e'.index := fun heq => hapart.1 (heq ▸ List.mem_map_of_mem he')
    rw [List.getElem?_set_ne hne]
    exact h.here e' (List.mem_cons_of_mem e he')
  · exact hapart.2

theorem Applicable.edited_here {l : List α} {edits : List (Edit α)} (h : Applicable l edits)
    {e : Edit α} (he : e ∈ edits) : (edited l edits)[e.index]? = some e.new := by
  induction edits generalizing l with
  | nil => cases he
  | cons d edits ih =>
    rw [edited_cons]
    cases List.mem_cons.1 he with
    | inl heq =>
      cases heq
      have hlt : e.index < l.length :=
        (List.getElem?_eq_some_iff.1 (h.here e List.mem_cons_self)).1
      rw [edited_elsewhere, List.getElem?_set_self hlt]
      intro e' he' heq
      exact (List.nodup_cons.1 h.apart).1 (heq ▸ List.mem_map_of_mem he')
    | inr hmem => exact ih h.tail hmem

theorem Applicable.getElem?_edited {l : List α} {edits : List (Edit α)} (h : Applicable l edits)
    (i : Nat) :
    (∃ e ∈ edits, e.index = i ∧ l[i]? = some e.old ∧ (edited l edits)[i]? = some e.new) ∨
      (∀ e ∈ edits, e.index ≠ i) ∧ (edited l edits)[i]? = l[i]? := by
  by_cases hedit : ∃ e ∈ edits, e.index = i
  · obtain ⟨e, he, rfl⟩ := hedit
    exact .inl ⟨e, he, rfl, h.here e he, h.edited_here he⟩
  · have hnone : ∀ e ∈ edits, e.index ≠ i := fun e he heq => hedit ⟨e, he, heq⟩
    exact .inr ⟨hnone, edited_elsewhere hnone⟩

theorem sum_map_set (f : α → Int) {l : List α} {i : Nat} {a : α} (h : l[i]? = some a) (b : α) :
    ((l.set i b).map f).sum = (l.map f).sum + (f b - f a) := by
  induction l generalizing i with
  | nil => cases h
  | cons c l ih =>
    cases i with
    | zero =>
      cases h
      rw [List.set_cons_zero, List.map_cons, List.map_cons, List.sum_cons, List.sum_cons]
      omega
    | succ i =>
      have hset := ih h
      rw [List.set_cons_succ, List.map_cons, List.map_cons, List.sum_cons, List.sum_cons, hset]
      omega

theorem Applicable.sum_edited (f : α → Int) {l : List α} {edits : List (Edit α)}
    (h : Applicable l edits) :
    ((edited l edits).map f).sum = (l.map f).sum + (edits.map fun e => f e.new - f e.old).sum := by
  induction edits generalizing l with
  | nil => simp [edited_nil]
  | cons e edits ih =>
    rw [edited_cons, ih h.tail, sum_map_set f (h.here e List.mem_cons_self), List.map_cons,
      List.sum_cons]
    omega

end Prismal.Lib
