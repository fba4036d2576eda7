import Mathlib.Algebra.Order.BigOperators.Group.List
import Mathlib.Algebra.Order.Field.Rat
import Mathlib.Algebra.Order.Ring.Rat
import Mathlib.Data.Rat.Cast.Order
import Mathlib.Data.Rat.Defs
import Mathlib.Tactic.Linarith

namespace Prismal.Budget
set_option autoImplicit true

structure Usage where
  promptTokens : Int := 0
  completionTokens : Int := 0
  costUsd : Rat := 0
  calls : Int := 0
  wallClockS : Rat := 0
  estimated : Bool := false
  cacheReadTokens : Int := 0
  cacheWriteTokens : Int := 0
  reasoningTokens : Int := 0
  costSource : String := ""
  equivalentUsd : Rat := 0
  gateway : String := ""
  servedModel : String := ""

/-- `other or self` on texts: the last non-empty one is kept. -/
def lastOf (self other : String) : String := if other = "" then self else other

def Usage.add (a b : Usage) : Usage where
  promptTokens := a.promptTokens + b.promptTokens
  completionTokens := a.completionTokens + b.completionTokens
  costUsd := a.costUsd + b.costUsd
  calls := a.calls + b.calls
  wallClockS := a.wallClockS + b.wallClockS
  estimated := a.estimated || b.estimated
  cacheReadTokens := a.cacheReadTokens + b.cacheReadTokens
  cacheWriteTokens := a.cacheWriteTokens + b.cacheWriteTokens
  reasoningTokens := a.reasoningTokens + b.reasoningTokens
  costSource := lastOf a.costSource b.costSource
  equivalentUsd := a.equivalentUsd + b.equivalentUsd
  gateway := lastOf a.gateway b.gateway
  servedModel := lastOf a.servedModel b.servedModel

instance : Add Usage := ⟨Usage.add⟩

def Usage.totalTokens (u : Usage) : Int := u.promptTokens + u.completionTokens

/-- The quantities that a guard compares with its caps. -/
inductive Column where
  | promptTokens
  | completionTokens
  | calls
  | costUsd
  | wallClockS
  deriving DecidableEq, Repr

def Usage.column (u : Usage) : Column → Rat
  | .promptTokens => u.promptTokens
  | .completionTokens => u.completionTokens
  | .calls => u.calls
  | .costUsd => u.costUsd
  | .wallClockS => u.wallClockS

@[simp] theorem Usage.column_zero (c : Column) : ({} : Usage).column c = 0 := by
  cases c <;> simp [Usage.column]

@[simp] theorem Usage.column_add (a b : Usage) (c : Column) :
    (a + b).column c = a.column c + b.column c := by
  have hadd : a + b = a.add b := rfl
  rw [hadd]
  cases c <;> simp [Usage.column, Usage.add]

/-- What one call adds to a meter; token counts are coerced to be non-negative. -/
structure Spend where
  usage : Usage
  nonneg : ∀ c, 0 ≤ usage.column c

/-- Every guarded quantity of `a` is within that of `b`. -/
def Usage.Within (a b : Usage) : Prop := ∀ c, a.column c ≤ b.column c

end Prismal.Budget

namespace Prismal.Budget
set_option autoImplicit true
set_option linter.dupNamespace false

/-! The guard of a run compares the usage of its meter with a budget. -/

/-- A spend ceiling; a dimension without a positive limit is unlimited. -/
structure Budget where
  maxTokens : Int := 0
  maxCostUsd : Rat := 0
  maxCalls : Int := 0
  maxWallClockS : Rat := 0

inductive Dimension where
  | tokens
  | cost
  | calls
  | wallClock
  deriving DecidableEq, Repr

/-- `_DIMENSIONS` -/
def dimensions : List Dimension := [.tokens, .cost, .calls, .wallClock]

def Usage.used (u : Usage) : Dimension → Rat
  | .tokens => u.totalTokens
  | .cost => u.costUsd
  | .calls => u.calls
  | .wallClock => u.wallClockS

def Budget.limit (b : Budget) : Dimension → Rat
  | .tokens => b.maxTokens
  | .cost => b.maxCostUsd
  | .calls => b.maxCalls
  | .wallClock => b.maxWallClockS

structure BudgetStatus where
  within : Bool
  softExceeded : Bool
  hardExceeded : Bool
  breachedDimension : Option Dimension
  deriving DecidableEq, Repr

structure BudgetGuard where
  budget : Budget
  softRatio : Rat := 4 / 5

/-- The dimensions that are breached the most, with their ratios. -/
structure Breaches where
  hard : Option (Dimension × Rat) := none
  soft : Option (Dimension × Rat) := none

namespace BudgetGuard

variable {g : BudgetGuard} {u : Usage}

def weigh (g : BudgetGuard) (u : Usage) (worst : Breaches) (d : Dimension) : Breaches :=
  let limit := g.budget.limit d
  if limit ≤ 0 then worst
  else
    let ratio := u.used d / limit
    if limit ≤ u.used d then
      if worst.hard.all fun h => decide (h.2 < ratio) then { worst with hard := some (d, ratio) }
      else worst
    else if decide (g.softRatio ≤ ratio) && worst.soft.all fun h => decide (h.2 < ratio) then
      { worst with soft := some (d, ratio) }
    else worst

def check (g : BudgetGuard) (u : Usage) : BudgetStatus :=
  let worst := dimensions.foldl (g.weigh u) {}
  match worst.hard, worst.soft with
  | some (d, _), _ => ⟨false, false, true, some d⟩
  | none, some (d, _) => ⟨false, true, false, some d⟩
  | none, none => ⟨true, false, false, none⟩

def Over (g : BudgetGuard) (u : Usage) : Prop :=
  ∃ d, 0 < g.budget.limit d ∧ g.budget.limit d ≤ u.used d

theorem weigh_hard (worst : Breaches) (d : Dimension) :
    (g.weigh u worst d).hard.isSome = true ↔
      worst.hard.isSome = true ∨ (0 < g.budget.limit d ∧ g.budget.limit d ≤ u.used d) := by
  rw [weigh]
  dsimp only
  by_cases hlimit : g.budget.limit d ≤ 0
  · rw [if_pos hlimit]
    exact ⟨Or.inl, fun h => h.elim id fun h => absurd h.1 (not_lt_of_ge hlimit)⟩
  · rw [if_neg hlimit]
    have hpos : 0 < g.budget.limit d := lt_of_not_ge hlimit
    by_cases hused : g.budget.limit d ≤ u.used d
    · rw [if_pos hused]
      split
      · exact ⟨fun _ => Or.inr ⟨hpos, hused⟩, fun _ => rfl⟩
      · next hworse =>
        cases hhard : worst.hard with
        | none =>
          rw [hhard] at hworse
          exact absurd rfl hworse
        | some h => exact ⟨fun _ => Or.inl rfl, fun _ => rfl⟩
    · rw [if_neg hused]
      have hiff : worst.hard.isSome = true ↔
          worst.hard.isSome = true ∨ (0 < g.budget.limit d ∧ g.budget.limit d ≤ u.used d) :=
        ⟨Or.inl, fun h => h.elim id fun h => absurd h.2 hused⟩
      split
      · exact hiff
      · exact hiff

theorem foldl_weigh (ds : List Dimension) (worst : Breaches) :
    (ds.foldl (g.weigh u) worst).hard.isSome = true ↔
      worst.hard.isSome = true ∨
        ∃ d ∈ ds, 0 < g.budget.limit d ∧ g.budget.limit d ≤ u.used d := by
  induction ds generalizing worst with
  | nil => simp
  | cons d ds ih =>
    rw [List.foldl_cons, ih, weigh_hard, or_assoc]
    apply or_congr_right
    simp

theorem mem_dimensions (d : Dimension) : d ∈ dimensions := by
  cases d <;> decide

theorem hardExceeded_iff : (g.check u).hardExceeded = true ↔ g.Over u := by
  have hfold := foldl_weigh (g := g) (u := u) dimensions {}
  have hover : (dimensions.foldl (g.weigh u) {}).hard.isSome = true ↔ g.Over u := by
    rw [hfold]
    constructor
    · intro h
      rcases h with h | ⟨d, _, hd⟩
      · cases h
      · exact ⟨d, hd⟩
    · intro h
      obtain ⟨d, hd⟩ := h
      exact Or.inr ⟨d, mem_dimensions d, hd⟩
  rw [← hover, check]
  cases (dimensions.foldl (g.weigh u) {}).hard with
  | some h => exact Iff.rfl
  | none =>
    cases (dimensions.foldl (g.weigh u) {}).soft with
    | some h => exact Iff.rfl
    | none => exact Iff.rfl

end BudgetGuard

end Prismal.Budget
