import Mathlib.Algebra.Order.Ring.Rat
import Mathlib.Data.Rat.Defs
import Prismal.Lib.Dict

namespace Prismal.Decisions

inductive RiskTier where
  | low
  | medium
  | high
  | critical
  deriving DecidableEq, Repr

namespace RiskTier

def value : RiskTier → String
  | low => "low"
  | medium => "medium"
  | high => "high"
  | critical => "critical"

def rank : RiskTier → Nat
  | low => 0
  | medium => 1
  | high => 2
  | critical => 3

def atLeast (a b : RiskTier) : Bool := decide (b.rank ≤ a.rank)

end RiskTier

end Prismal.Decisions

namespace Prismal.Decisions
open Prismal.Lib
set_option autoImplicit true

inductive DecisionKind where
  | choice
  | score
  | noul
  deriving DecidableEq, Repr

inductive DecisionMode where
  | off
  | shadow
  | enforce
  deriving DecidableEq, Repr

inductive Outcome where
  | accepted
  | escalated
  | abstained
  deriving DecidableEq, Repr

inductive Reason where
  | none
  | belowTau
  | lowMargin
  | shuffleInconsistent
  | timeout
  | backendError
  | overLimit
  | tainted
  | uncalibrated
  | modelMismatch
  | unsupported
  deriving DecidableEq, Repr

structure OptionSpec where
  id : String
  description : String
  deriving DecidableEq, Repr

/-- What `QuestionSpec.__post_init__` lets through. -/
def validSpec (id : String) (kind : DecisionKind) (options : List OptionSpec)
    (levels : List String) : Bool :=
  decide (id ≠ "") &&
  match kind with
  | .choice =>
    decide (2 ≤ options.length) && decide (options.map OptionSpec.id).Nodup &&
      options.all fun o => decide (o.id ≠ "")
  | .score => decide (2 ≤ levels.length) && decide (levels.length ≤ 10) && decide levels.Nodup
  | .noul => true

/-- A closed question; every text of it is written by the developer. -/
structure QuestionSpec where
  id : String
  kind : DecisionKind
  instructions : String
  options : List OptionSpec := []
  criteria : String := ""
  levels : List String := []
  riskTier : RiskTier := .medium
  languageHint : Option String := none
  valid : validSpec id kind options levels = true

def QuestionSpec.labels (q : QuestionSpec) : List String :=
  match q.kind with
  | .choice => q.options.map OptionSpec.id
  | .score => q.levels
  | .noul => ["true", "false"]

/-- `replace(question, risk_tier=tier)` -/
def QuestionSpec.atTier (q : QuestionSpec) (tier : RiskTier) : QuestionSpec :=
  { q with riskTier := tier }

/-- The value of an answer: an option or level, or the truth value of a Noul. -/
inductive Answer where
  | label (s : String)
  | truth (b : Bool)
  deriving DecidableEq, Repr

structure Decision where
  questionId : String
  kind : DecisionKind
  value : Option Answer
  probabilities : List (String × Rat)
  answerConfidence : Rat
  spreadConfidence : Rat
  margin : Rat
  expectedLevel : Option Rat
  model : String
  backend : String
  calibrationVersion : Option String
  latencyMs : Rat
  abstained : Bool := false
  outcome : Outcome := .abstained
  escalatedFrom : List String := []
  reason : Reason := .none
  deriving DecidableEq

def Decision.abstain (question : QuestionSpec) (backend model : String) (reason : Reason) :
    Decision where
  questionId := question.id
  kind := question.kind
  value := none
  probabilities := []
  answerConfidence := 0
  spreadConfidence := 0
  margin := 0
  expectedLevel := none
  model := model
  backend := backend
  calibrationVersion := none
  latencyMs := 0
  abstained := true
  reason := reason

/-- Acceptance thresholds per risk tier; no threshold means never. -/
structure GatePolicy where
  tauAccept : RiskTier → Option Rat
  minMargin : Rat
  shuffleCheckTiers : List RiskTier
  timeoutMs : Int

def defaultTau : RiskTier → Option Rat
  | .low => some (17 / 20)
  | .medium => some (9 / 10)
  | .high => some (97 / 100)
  | .critical => none

def GatePolicy.default : GatePolicy where
  tauAccept := defaultTau
  minMargin := 1 / 5
  shuffleCheckTiers := [.high, .critical]
  timeoutMs := 800

def GatePolicy.tau (policy : GatePolicy) (tier : RiskTier) : Option Rat :=
  if tier = .critical then none else policy.tauAccept tier

def GatePolicy.withTauFloor (policy : GatePolicy) (tier : RiskTier) (tau : Rat) : GatePolicy :=
  match policy.tau tier with
  | none => policy
  | some current =>
    { policy with
      tauAccept := fun t => if t = tier then some (max current tau) else policy.tauAccept t }

end Prismal.Decisions
