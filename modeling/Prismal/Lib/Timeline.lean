import Mathlib.Data.List.Forall2
import Mathlib.Order.Lattice
import Prismal.Lib.Run

namespace Prismal.Lib
set_option autoImplicit true
set_option linter.unusedSectionVars false

/-! Facts that hold from one time to another. They are recorded at the end of a timeline and
closed there, and a timeline can be read as of any time. -/

/-- Something that holds from `since` on, and ends at `ends`. -/
structure Fact (α : Type u) (τ : Type v) where
  what : α
  since : τ
  ends : Option τ

namespace Timeline

variable {α : Type u} {τ : Type v} [LinearOrder τ]

def isOpen (f : Fact α τ) : Bool := f.ends.isNone

def holdsAt (t : τ) (f : Fact α τ) : Bool := decide (f.since ≤ t) && f.ends.all fun u => decide (t < u)

def view (asOf : Option τ) (fs : List (Fact α τ)) : List (Fact α τ) :=
  match asOf with
  | none => fs.filter isOpen
  | some t => fs.filter (holdsAt t)

def Fact.ended (u : τ) (f : Fact α τ) : Fact α τ := { f with ends := f.ends.or (some u) }

def close (p : α → Bool) (u : τ) (fs : List (Fact α τ)) : List (Fact α τ) :=
  fs.map fun f => if p f.what then Fact.ended u f else f

/-- What may be done to a timeline: a fact is recorded, some end, and some are struck out. -/
inductive Edit (α : Type u) (τ : Type v) where
  | record (f : Fact α τ)
  | close (p : α → Bool) (u : τ)
  | strike (p : α → Bool)

def apply (fs : List (Fact α τ)) : Edit α τ → List (Fact α τ)
  | .record f => fs ++ [f]
  | .close p u => close p u fs
  | .strike p => fs.filter fun f => !p f.what

def Edit.After (t : τ) (keep : α → Bool) : Edit α τ → Prop
  | .record f => keep f.what = true → t < f.since
  | .close p u => ∀ a, keep a = true → p a = true → t < u
  | .strike p => ∀ a, keep a = true → p a = false

/-- What became of a fact: it ended later, or nothing happened to it. -/
structure Aged (t : τ) (f g : Fact α τ) : Prop where
  what : g.what = f.what
  since : g.since = f.since
  ending : g.ends = f.ends ∨ f.ends = none ∧ ∃ u, g.ends = some u ∧ t < u

namespace Aged
variable {t : τ} {f g h : Fact α τ}

theorem refl (t : τ) (f : Fact α τ) : Aged t f f := ⟨rfl, rfl, Or.inl rfl⟩

theorem holdsAt_eq (hfg : Aged t f g) : holdsAt t g = holdsAt t f := by
  rw [holdsAt, holdsAt, hfg.since]
  rcases hfg.ending with heq | ⟨hnone, u, hu, hlt⟩
  · rw [heq]
  · rw [hnone, hu, Option.all_some, Option.all_none, decide_eq_true hlt]

end Aged

def seenAt (t : τ) (keep : α → Bool) (fs : List (Fact α τ)) : List (Fact α τ) :=
  (view (some t) fs).filter fun f => keep f.what

theorem seenAt_eq (t : τ) (keep : α → Bool) (fs : List (Fact α τ)) :
    seenAt t keep fs = fs.filter fun f => holdsAt t f && keep f.what := by
  rw [seenAt, view, List.filter_filter]
  congr 1
  funext f
  exact Bool.and_comm _ _

variable {t u : τ} {keep p : α → Bool} {fs gs : List (Fact α τ)}

theorem seenAt_append (t : τ) (keep : α → Bool) (fs gs : List (Fact α τ)) :
    seenAt t keep (fs ++ gs) = seenAt t keep fs ++ seenAt t keep gs := by
  rw [seenAt_eq, seenAt_eq, seenAt_eq, List.filter_append]

theorem seenAt_record (h : (Edit.record f).After t keep) :
    seenAt t keep (apply fs (.record f)) = seenAt t keep fs := by
  have hnew : seenAt t keep [f] = [] := by
    rw [seenAt_eq, List.filter_eq_nil_iff]
    intro g hg
    rw [List.mem_singleton] at hg
    subst hg
    intro hsees
    rw [Bool.and_eq_true, holdsAt, Bool.and_eq_true, decide_eq_true_eq] at hsees
    exact absurd (h hsees.2) (not_lt.2 hsees.1.1)
  rw [apply, seenAt_append, hnew, List.append_nil]

theorem seenAt_strike (h : (Edit.strike p : Edit α τ).After t keep) :
    seenAt t keep (apply fs (.strike p)) = seenAt t keep fs := by
  rw [seenAt_eq, seenAt_eq, apply, List.filter_filter]
  congr 1
  funext f
  cases hkeep : keep f.what with
  | false => rw [Bool.and_false, Bool.false_and]
  | true => rw [h f.what hkeep, Bool.not_false, Bool.and_true]

theorem close_aged (h : (Edit.close p u : Edit α τ).After t keep) (f : Fact α τ)
    (hkeep : keep f.what = true) : Aged t f (if p f.what then Fact.ended u f else f) := by
  split
  · next hp =>
    refine ⟨rfl, rfl, ?_⟩
    cases hu : f.ends with
    | none => exact Or.inr ⟨rfl, u, by rw [Fact.ended, hu, Option.none_or], h f.what hkeep hp⟩
    | some w => exact Or.inl (by rw [Fact.ended, hu, Option.some_or])
  · exact Aged.refl t f

theorem seenAt_close (h : (Edit.close p u : Edit α τ).After t keep) :
    List.Forall₂ (Aged t) (seenAt t keep fs) (seenAt t keep (apply fs (.close p u))) := by
  rw [seenAt_eq, seenAt_eq, apply, close]
  induction fs with
  | nil => exact List.Forall₂.nil
  | cons f fs ih =>
    rw [List.map_cons, List.filter_cons, List.filter_cons]
    have hwhat : (if p f.what then Fact.ended u f else f).what = f.what := by
      split <;> rfl
    rw [hwhat]
    cases hkeep : keep f.what with
    | false =>
      rw [Bool.and_false, Bool.and_false]
      exact ih
    | true =>
      have haged := close_aged h f hkeep
      rw [haged.holdsAt_eq]
      split
      · exact List.Forall₂.cons haged ih
      · exact ih

theorem forall₂_refl (t : τ) (fs : List (Fact α τ)) : List.Forall₂ (Aged t) fs fs := by
  induction fs with
  | nil => exact List.Forall₂.nil
  | cons f fs ih => exact List.Forall₂.cons (Aged.refl t f) ih

theorem seenAt_apply (e : Edit α τ) (h : e.After t keep) :
    List.Forall₂ (Aged t) (seenAt t keep fs) (seenAt t keep (apply fs e)) := by
  cases e with
  | record f =>
    rw [seenAt_record h]
    exact forall₂_refl t _
  | close p u => exact seenAt_close h
  | strike p =>
    rw [seenAt_strike h]
    exact forall₂_refl t _

theorem seenAt_now
    (hpast : ∀ f ∈ fs, keep f.what = true → f.since ≤ t ∧ ∀ u ∈ f.ends, u ≤ t) :
    seenAt t keep fs = (view none fs).filter fun f => keep f.what := by
  rw [seenAt_eq, view, List.filter_filter]
  apply List.filter_congr
  intro f hf
  cases hkeep : keep f.what with
  | false => rw [Bool.and_false, Bool.false_and]
  | true =>
    obtain ⟨hbegun, hended⟩ := hpast f hf hkeep
    rw [holdsAt, decide_eq_true hbegun, Bool.true_and, Bool.and_true, Bool.true_and, isOpen]
    cases hu : f.ends with
    | none => rfl
    | some u => exact decide_eq_false (not_lt.2 (hended u hu))

end Timeline

end Prismal.Lib
