import Prismal.Budget.Guard
import Prismal.Lib.Text

namespace Prismal.Providers
open Prismal.Lib Prismal.Budget
set_option autoImplicit true

inductive BatchStatus where
  | submitted
  | running
  | completed
  | failed
  | expired
  | fallback
  deriving DecidableEq, Repr

def BatchStatus.value : BatchStatus → String
  | submitted => "submitted"
  | running => "running"
  | completed => "completed"
  | failed => "failed"
  | expired => "expired"
  | fallback => "fallback"

/-- One chat completion to run inside a provider batch. -/
structure BatchRequest where
  customId : String
  modelRef : String
  messages : List (List (String × String))
  maxTokens : Int
  deriving DecidableEq

/-- The outcome of one request; an error means no content. -/
structure BatchResult where
  customId : String
  content : Option String
  usage : Usage := {}
  error : Option String := none

def startsWith (s pre : String) : Bool := pre.toList.isPrefixOf s.toList

theorem startsWith_append (start text : String) : startsWith (start ++ text) start = true := by
  rw [startsWith, String.toList_append, List.isPrefixOf_iff_prefix]
  exact List.prefix_append _ _

theorem startsWith_append_left {s pre : String} (h : startsWith s pre = true) (t : String) :
    startsWith (s ++ t) pre = true := by
  rw [startsWith, List.isPrefixOf_iff_prefix] at h ⊢
  rw [String.toList_append]
  exact h.trans (List.prefix_append _ _)

def endsWith (s suf : String) : Bool := suf.toList.isSuffixOf s.toList

/-- `len(ref) > 1 and ref[0] == "o" and ref[1].isdigit()` -/
def oSeries (isDigit : Char → Bool) (ref : String) : Bool :=
  match ref.toList with
  | 'o' :: d :: _ => isDigit d
  | _ => false

/-- The batch family of a model, or `none` when it is not batchable. -/
def familyOf (isDigit : Char → Bool) (modelRef : String) : Option String :=
  let ref := strip modelRef
  if startsWith ref "gw:openrouter/" then
    if endsWith ref ":batch" then some "openrouter" else none
  else if startsWith ref "openrouter/" then some "openrouter"
  else if startsWith ref "anthropic/" || startsWith ref "claude" then some "anthropic"
  else if startsWith ref "openai/" || startsWith ref "gpt" then some "openai"
  else if oSeries isDigit ref then some "openai"
  else none

inductive CostSource where
  | subscription
  | gateway
  | litellm
  | table
  | none
  deriving DecidableEq, Repr

def CostSource.value : CostSource → String
  | subscription => "subscription"
  | gateway => "gateway"
  | litellm => "litellm"
  | table => "table"
  | none => "none"

/-- The cost of one call and where the figure came from. -/
structure CostEstimate where
  costUsd : Rat
  source : CostSource
  deriving DecidableEq

def CostEstimate.estimated (e : CostEstimate) : Bool :=
  decide (e.source ≠ .gateway) && decide (e.source ≠ .litellm) && decide (e.source ≠ .subscription)

/-- The list price of a call: the price library, else the configured table. -/
structure Pricing where
  priced : String → Int → Int → CostEstimate
  batchPriceRatio : Rat

/-- `compute_cost_usd` without a gateway figure -/
def Pricing.compute (p : Pricing) (model : String) (promptTokens completionTokens : Int)
    (batch : Bool) : CostEstimate :=
  let estimate := p.priced model promptTokens completionTokens
  if batch && (decide (estimate.source = .litellm) || decide (estimate.source = .table)) then
    ⟨estimate.costUsd * p.batchPriceRatio, estimate.source⟩
  else estimate

end Prismal.Providers
