import Prismal.Decisions.Types

namespace Prismal.Routing
open Prismal.Decisions
set_option autoImplicit true

inductive ModelTier where
  | nano
  | small
  | medium
  | frontier
  | auto
  deriving DecidableEq, Repr

/-- A raised exception, by its type name and message. -/
structure Exn where
  type : String
  message : String
  deriving DecidableEq, Repr

namespace ModelTier

def value : ModelTier → String
  | nano => "nano"
  | small => "small"
  | medium => "medium"
  | frontier => "frontier"
  | auto => "auto"

/-- `ModelTier(value)` -/
def ofValue (s : String) : Except Exn ModelTier :=
  match [nano, small, medium, frontier, auto].find? fun t => t.value = s with
  | some t => .ok t
  | none => .error ⟨"ValueError", s ++ " is not a valid ModelTier"⟩

end ModelTier

def tierOrder : List ModelTier := [.nano, .small, .medium, .frontier]

/-- The position of a tier in `tierOrder`; `auto` is terminal and has none. -/
def tierIndex (tier : ModelTier) : Except Exn Nat :=
  if tier = .auto then
    .error ⟨"ValueError", "ModelTier.auto is terminal and has no position in TIER_ORDER"⟩
  else .ok (tierOrder.idxOf tier)

def tierAtLeast (tier floor : ModelTier) : Except Exn Bool := do
  let t ← tierIndex tier
  let f ← tierIndex floor
  return decide (f ≤ t)

/-- Deterministic, LLM-free description of one agent call. -/
structure TaskFeatures where
  agent : String
  intent : Option String
  estInputTokens : Int
  needsTools : Bool
  needsStructuredOutput : Bool
  riskTier : RiskTier := .low
  language : String := "en"
  tainted : Bool := false
  deriving DecidableEq, Repr

/-- A policy's answer: which model, at which tier, and why. -/
structure ModelChoice where
  modelRef : String
  tier : ModelTier
  reason : String
  escalationOf : Option ModelChoice := none
  policy : String := "static"
  deriving Repr

end Prismal.Routing
