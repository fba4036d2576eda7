import Prismal.Lib.Dict
import Prismal.Providers.Batch

namespace Prismal.Routing
open Prismal.Lib Prismal.Budget Prismal.Providers
set_option autoImplicit true

/-- `results()` retries for a completed job with no deadline. -/
def resultsMaxAttempts : Nat := 5

inductive PollAnswer where
  | raises
  | status (s : BatchStatus)

/-- A provider batch API while one job is driven: its answers by number, and the clock. -/
structure Adapter where
  submit : List BatchRequest → Option String
  poll : Nat → PollAnswer
  results : Nat → Option (List BatchResult)
  clock : Nat → Rat

structure ExecutorSettings where
  batchApiEnabled : Bool
  isDigit : Char → Bool
  pricing : Pricing

/-- The adapters by family, and the sync path, which may raise. -/
structure Surroundings where
  adapters : String → Option Adapter
  sync : BatchRequest → Except String BatchResult

/-- The arguments of `run`; a policy that raises answers `none`. -/
structure BatchCall where
  requests : List BatchRequest
  deadline : Option Rat := none
  allowSyncFallback : Bool := true
  taintedIds : List String := []
  hitlGatedIds : List String := []
  dataPolicy : Option (BatchRequest → Option Bool) := none

inductive FamilyOutcome where
  | completed (results : Dict String BatchResult)
  | jobFailed (status : BatchStatus)
  | resultsUnavailable (jobId : String)

/-- `{r.custom_id: r for r in results}`: the last result under an id counts. -/
def byId (rs : List BatchResult) : Dict String BatchResult :=
  Dict.collect (rs.map fun r => (r.customId, r))

/-- Fetch a completed job's results, retrying. `none`: still at it. -/
def fetchResults (a : Adapter) (deadline : Option Rat) (jobId : String) :
    Nat → Nat → Nat → Option FamilyOutcome
  | 0, _, _ => none
  | fuel + 1, attempts, reads =>
    match a.results attempts with
    | some rs => some (.completed (byId rs))
    | none =>
      match deadline with
      | none =>
        if resultsMaxAttempts ≤ attempts + 1 then some (.resultsUnavailable jobId)
        else fetchResults a deadline jobId fuel (attempts + 1) reads
      | some d =>
        if d - (a.clock reads - a.clock 0) ≤ 0 then some (.resultsUnavailable jobId)
        else fetchResults a deadline jobId fuel (attempts + 1) (reads + 1)

def reading (deadline : Option Rat) : Nat := if deadline.isSome then 1 else 0

def pastDeadline (a : Adapter) (deadline : Option Rat) (reads : Nat) : Bool :=
  deadline.any fun d => decide (d ≤ a.clock reads - a.clock 0)

/-- Poll a submitted job to its end, then fetch its results. A first reading bounds the delay
before the poll, a second one ends the polling. -/
def pollJob (a : Adapter) (deadline : Option Rat) (jobId : String) :
    Nat → Nat → Nat → Option FamilyOutcome
  | 0, _, _ => none
  | fuel + 1, polls, reads =>
    match a.poll polls with
    | .raises => some (.jobFailed .failed)
    | .status .completed =>
      fetchResults a deadline jobId (fuel + 1) 0 (reads + reading deadline)
    | .status .failed => some (.jobFailed .failed)
    | .status .expired => some (.jobFailed .expired)
    | .status _ =>
      if pastDeadline a deadline (reads + reading deadline) then some (.jobFailed .expired)
      else pollJob a deadline jobId fuel (polls + 1) (reads + 2 * reading deadline)

def runFamily (a : Adapter) (fuel : Nat) (reqs : List BatchRequest) (deadline : Option Rat) :
    Option FamilyOutcome :=
  match a.submit reqs with
  | none => some (.jobFailed .failed)
  | some jobId => pollJob a deadline jobId fuel 0 1

def exclusion (st : ExecutorSettings) (call : BatchCall) (req : BatchRequest) : Option String :=
  if !st.batchApiEnabled then some "batch_disabled"
  else if req.customId ∈ call.taintedIds then some "tainted"
  else if req.customId ∈ call.hitlGatedIds then some "hitl_gated"
  else if call.dataPolicy.all fun policy => (policy req).getD false then none
  else some "data_policy"

def placement (st : ExecutorSettings) (env : Surroundings) (call : BatchCall)
    (req : BatchRequest) : Except String String :=
  match exclusion st call req with
  | some reason => .error reason
  | none =>
    match familyOf st.isDigit req.modelRef with
    | none => .error "no_adapter"
    | some family => if (env.adapters family).isSome then .ok family else .error "no_adapter"

structure Plan where
  toSync : List (BatchRequest × String) := []
  groups : Dict String (List BatchRequest) := ∅

def Plan.place (st : ExecutorSettings) (env : Surroundings) (call : BatchCall) (plan : Plan)
    (req : BatchRequest) : Plan :=
  match placement st env call req with
  | .error reason => { plan with toSync := plan.toSync ++ [(req, reason)] }
  | .ok family =>
    { plan with
      groups := plan.groups.set family ((plan.groups.get? family).getD [] ++ [req]) }

def planOf (st : ExecutorSettings) (env : Surroundings) (call : BatchCall) : Plan :=
  call.requests.foldl (Plan.place st env call) {}

structure Job where
  family : String
  requests : List BatchRequest
  outcome : FamilyOutcome

def driveGroup (env : Surroundings) (fuel : Nat) (call : BatchCall)
    (group : String × List BatchRequest) : Option Job :=
  match env.adapters group.1 with
  | none => none
  | some a => (runFamily a fuel group.2 call.deadline).map fun o => ⟨group.1, group.2, o⟩

/-- One entry of the meter. The request is a ghost. -/
structure MeterEntry where
  request : String
  model : String
  pattern : String
  usage : Usage

/-- The mutable state of `run`; the log of sync calls is a ghost. -/
structure Ledger where
  results : Dict String BatchResult := ∅
  toSync : List (BatchRequest × String) := []
  synced : List BatchRequest := []
  meter : List MeterEntry := []

/-- `BatchResult(custom_id=req.custom_id, content=None, error=error)` -/
def errorResult (req : BatchRequest) (error : String) : BatchResult where
  customId := req.customId
  content := none
  error := some error

def pricingModel (modelRef : String) : String :=
  if startsWith modelRef "gw:" then String.ofList (modelRef.toList.drop 3) else modelRef

def pricedUsage (st : ExecutorSettings) (req : BatchRequest) (res : BatchResult) (batch : Bool) :
    Usage :=
  let estimate := st.pricing.compute (pricingModel req.modelRef) res.usage.promptTokens
    res.usage.completionTokens batch
  { res.usage with
    costUsd := estimate.costUsd
    calls := max 1 res.usage.calls
    estimated := estimate.estimated
    costSource := estimate.source.value }

def priced (st : ExecutorSettings) (req : BatchRequest) (res : BatchResult) (batch : Bool) :
    BatchResult := { res with usage := pricedUsage st req res batch }

def meterEntry (st : ExecutorSettings) (req : BatchRequest) (res : BatchResult) (batch : Bool) :
    MeterEntry where
  request := req.customId
  model := req.modelRef
  pattern := if batch then "batch" else "batch_fallback"
  usage := pricedUsage st req res batch

namespace Ledger

def keep (l : Ledger) (req : BatchRequest) (res : BatchResult) : Ledger :=
  { l with results := l.results.set req.customId res }

def defer (l : Ledger) (req : BatchRequest) (reason : String) : Ledger :=
  { l with toSync := l.toSync ++ [(req, reason)] }

/-- `results[req.custom_id] = self._meter_result(req, res, batch=batch)` -/
def meterResult (st : ExecutorSettings) (l : Ledger) (req : BatchRequest) (res : BatchResult)
    (batch : Bool) : Ledger :=
  { l.keep req (priced st req res batch) with meter := l.meter ++ [meterEntry st req res batch] }

def called (l : Ledger) (req : BatchRequest) : Ledger := { l with synced := l.synced ++ [req] }

end Ledger

def usable (results : Dict String BatchResult) (req : BatchRequest) : Option BatchResult :=
  (results.get? req.customId).filter fun g => g.error.isNone

/-- `got.error if got and got.error else "missing_result"` -/
def missingReason (results : Dict String BatchResult) (req : BatchRequest) : String :=
  match (results.get? req.customId).bind BatchResult.error with
  | none => "missing_result"
  | some e => if e = "" then "missing_result" else e

def settleOne (st : ExecutorSettings) (outcome : FamilyOutcome) (l : Ledger)
    (req : BatchRequest) : Ledger :=
  match outcome with
  | .resultsUnavailable jobId => l.keep req (errorResult req ("results_unavailable:" ++ jobId))
  | .jobFailed status => l.defer req status.value
  | .completed results =>
    match usable results req with
    | some got => l.meterResult st req got true
    | none => l.defer req (missingReason results req)

def settleJob (st : ExecutorSettings) (allowSync : Bool) (l : Ledger) (job : Job) :
    Except String Ledger :=
  match job.outcome with
  | .jobFailed status =>
    if allowSync then .ok (job.requests.foldl (settleOne st job.outcome) l)
    else .error (job.family ++ " batch job " ++ status.value ++ " and sync fallback is disabled")
  | _ => .ok (job.requests.foldl (settleOne st job.outcome) l)

def runSync (st : ExecutorSettings) (env : Surroundings) (l : Ledger) (req : BatchRequest) :
    Ledger :=
  match env.sync req with
  | .error name => (l.called req).keep req (errorResult req ("sync_failed:" ++ name))
  | .ok res => (l.called req).meterResult st req res false

def settleSync (st : ExecutorSettings) (env : Surroundings) (allowSync : Bool) (l : Ledger)
    (deferred : BatchRequest × String) : Ledger :=
  if allowSync then runSync st env l deferred.1
  else l.keep deferred.1 (errorResult deferred.1 deferred.2)

/-- A finished run: the results, and what was done for them. -/
structure RunReport where
  results : List BatchResult
  jobs : List Job
  synced : List BatchRequest
  meter : List MeterEntry

inductive RunError where
  | batchExecutor (message : String)
  | keyError (id : String)

/-- `[results[cid] for cid in ids]` -/
def inInputOrder (results : Dict String BatchResult) (reqs : List BatchRequest) :
    Except RunError (List BatchResult) :=
  reqs.mapM fun req =>
    match results.get? req.customId with
    | some res => .ok res
    | none => .error (.keyError req.customId)

def settleAll (st : ExecutorSettings) (env : Surroundings) (call : BatchCall)
    (toSync : List (BatchRequest × String)) (jobs : List Job) : Except RunError RunReport :=
  match jobs.foldlM (settleJob st call.allowSyncFallback) { toSync := toSync } with
  | .error message => .error (.batchExecutor message)
  | .ok l =>
    let l := l.toSync.foldl (settleSync st env call.allowSyncFallback) l
    match inInputOrder l.results call.requests with
    | .error e => .error e
    | .ok results => .ok ⟨results, jobs, l.synced, l.meter⟩

/-- Execute the requests. `none`: some job is still being polled. -/
def BatchExecutor.run (st : ExecutorSettings) (env : Surroundings) (fuel : Nat)
    (call : BatchCall) : Option (Except RunError RunReport) :=
  if (call.requests.map BatchRequest.customId).Nodup then
    let plan := planOf st env call
    (plan.groups.entries.mapM (driveGroup env fuel call)).map
      (settleAll st env call plan.toSync)
  else some (.error (.batchExecutor "duplicate custom_id in batch requests"))

end Prismal.Routing
