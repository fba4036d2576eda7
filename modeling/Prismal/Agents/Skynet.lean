import Prismal.Lib.Dict
import Prismal.Lib.Text

namespace Prismal.Agents
open Prismal.Lib
set_option autoImplicit true

/-! The swarm: a goal is split into orders, which are dispatched to workers round by round until the
evaluator is content or the rounds are used up. -/

structure SwarmOrder where
  orderId : String
  instruction : String
  role : String := "worker"
  context : Dict String String := ∅
  attempt : Nat := 1

structure SwarmPlan where
  orders : List SwarmOrder
  rationale : String := ""
  deferred : List SwarmOrder := []

structure WorkerResult where
  orderId : String
  output : String
  success : Bool
  error : Option String := none
  role : String := "worker"
  deriving DecidableEq, Repr

structure SwarmResult where
  goal : String
  answer : String
  workerResults : List WorkerResult
  roundsCompleted : Nat
  deferredOrders : List SwarmOrder
  complete : Bool

/-- An entry of the channel that parallel workers append to. -/
structure ParallelEntry where
  agent : String
  result : WorkerResult

def workerTag : String := "skynet_worker"

/-- The settings of the swarm. A `swarmSize` of zero leaves the size to the planner. -/
structure SkynetSettings where
  swarmSize : Nat := 0
  maxSwarm : Nat := 8
  maxRounds : Nat := 3
  parallelMaxWorkers : Nat := 10
  parallelEnabled : Bool := true
  specialistsEnabled : Bool := false
  maxSwarm_pos : 1 ≤ maxSwarm := by decide
  maxRounds_pos : 1 ≤ maxRounds := by decide
  parallelMaxWorkers_pos : 1 ≤ parallelMaxWorkers := by decide

/-- `metadata.skynet`, with the two channels of the state that the subgraph uses. -/
structure SkynetState where
  goal : String := ""
  round : Nat := 0
  rationale : String := ""
  orders : List SwarmOrder := []
  deferred : List SwarmOrder := []
  unmet : List SwarmOrder := []
  results : List WorkerResult := []
  answer : String := ""
  complete : Bool := false
  replan : Bool := false
  roundsCompleted : Nat := 0
  error : Option String := none
  skynetOrders : List SwarmOrder := []
  parallelResults : List ParallelEntry := []

def SkynetState.judge (s : SkynetState) (complete : Bool) (answer : String) : SkynetState :=
  { s with answer := if answer = "" then s.answer else answer, complete := complete }

/-- How a worker ends; a hard budget cap raises out of its node. -/
inductive WorkerAnswer where
  | output (text : String)
  | failed (error : String)
  | budgetExceeded
  deriving DecidableEq, Repr

/-- The swarm with its backends, which may answer otherwise in every round. -/
structure Swarm where
  settings : SkynetSettings
  latestMessage : String
  knownRoles : List String := []
  planFn : String → Except String (List SwarmOrder × String)
  routingKey : String := "routing_shadow_model"
  modelChoices : Nat → List SwarmOrder → Dict String String := fun _ _ => ∅
  workerFn : Nat → SwarmOrder → WorkerAnswer
  reduceFn : Nat → List WorkerResult → String
  evaluateFn : Nat → List WorkerResult → Except String (Bool × String)

inductive Report where
  | notice (error : String)
  | result (r : SwarmResult)

structure Dispatch where
  order : SwarmOrder
  result : Option WorkerResult

def orderIds (orders : List SwarmOrder) : List String := orders.map SwarmOrder.orderId

namespace Swarm

variable (w : Swarm)

/-! The supervisor. -/

/-- `_assign_roles` -/
def assignRoles (orders : List SwarmOrder) : List SwarmOrder :=
  orders.map fun o =>
    if w.settings.specialistsEnabled && decide (o.role ∈ w.knownRoles) then o
    else { o with role := "worker" }

/-- `min(skynet_max_swarm, parallel_max_workers, fixed size if set)` -/
def effectiveCap : Nat :=
  let cap := min w.settings.maxSwarm w.settings.parallelMaxWorkers
  if 0 < w.settings.swarmSize then min cap w.settings.swarmSize else cap

/-- `_assign_models`; without choices an order drops the model of an earlier round. -/
def assignModels (round : Nat) (orders : List SwarmOrder) : List SwarmOrder :=
  let choices := w.modelChoices round orders
  orders.map fun o =>
    if choices.entries = [] then
      { o with context := (o.context.erase "routing_model").erase "routing_shadow_model" }
    else
      match choices.get? o.orderId with
      | none => o
      | some model => { o with context := o.context.set w.routingKey model }

/-- `_decompose`, and the check that there are orders at all. -/
def decompose (goal : String) : Except String (List SwarmOrder × String) :=
  match w.planFn goal with
  | .error e => .error ("Planner backend failed: " ++ e)
  | .ok ([], _) => .error "Planner decomposed the goal into zero orders"
  | .ok planned => .ok planned

def requested (goal : String) (unmet : List SwarmOrder) :
    Except String (List SwarmOrder × String) :=
  if unmet = [] then w.decompose goal
  else
    .ok (unmet.map fun o => { o with attempt := o.attempt + 1 },
      "re-plan of unmet orders from the previous round")

def plan (goal : String) (round : Nat) (unmet : List SwarmOrder) : Except String SwarmPlan :=
  match w.requested goal unmet with
  | .error e => .error e
  | .ok (orders, rationale) =>
    let orders := w.assignRoles orders
    .ok
      { orders := w.assignModels round (orders.take w.effectiveCap)
        rationale := rationale
        deferred := orders.drop w.effectiveCap }

/-! The nodes of the subgraph. -/

/-- `str(skynet.get("goal") or "").strip() or _extract_goal(state)` -/
def goalOf (s : SkynetState) : String :=
  if strip s.goal ≠ "" then strip s.goal else strip w.latestMessage

/-- `int(skynet.get("round") or 1)` -/
def roundOf (s : SkynetState) : Nat := if s.round = 0 then 1 else s.round

def planNode (s : SkynetState) : SkynetState :=
  if w.goalOf s = "" then { s with error := some "empty goal", skynetOrders := [] }
  else
    match w.plan (w.goalOf s) (roundOf s) s.unmet with
    | .error e =>
      { s with error := some e, goal := w.goalOf s, round := roundOf s, skynetOrders := [] }
    | .ok plan =>
      { s with
        goal := w.goalOf s
        round := roundOf s
        rationale := plan.rationale
        orders := plan.orders
        deferred := plan.deferred
        unmet := []
        skynetOrders := plan.orders }

def dispatcher (s : SkynetState) : List SwarmOrder :=
  if w.settings.parallelEnabled then
    s.skynetOrders.take (min w.settings.maxSwarm w.settings.parallelMaxWorkers)
  else []

/-- `SwarmWorker.execute` -/
def execute (round : Nat) (o : SwarmOrder) : Option WorkerResult :=
  match w.workerFn round o with
  | .output text => some { orderId := o.orderId, output := text, success := true, role := o.role }
  | .failed e =>
    some { orderId := o.orderId, output := "", success := false, error := some e, role := o.role }
  | .budgetExceeded => none

def tagged (entries : List ParallelEntry) : List (String × WorkerResult) :=
  (entries.filter fun e => decide (e.agent = workerTag ∧ e.result.orderId ≠ "")).map fun e =>
    (e.result.orderId, e.result)

def reduceNode (s : SkynetState) : SkynetState :=
  let results := (Dict.collect (tagged s.parallelResults)).values
  { s with results := results, answer := w.reduceFn s.round results }

def failedOrders (s : SkynetState) : List SwarmOrder :=
  s.results.filterMap fun r =>
    if r.success then none
    else (Dict.collect (s.orders.map fun o => (o.orderId, o))).get? r.orderId

def evaluateNode (s : SkynetState) : SkynetState :=
  match w.evaluateFn (roundOf s) s.results with
  | .error e =>
    { s with complete := false, replan := false, roundsCompleted := roundOf s, error := some e }
  | .ok (complete, answer) =>
    if !complete && decide (roundOf s < w.settings.maxRounds) &&
        decide (failedOrders s ++ s.deferred ≠ []) then
      { s.judge complete answer with
        replan := true
        round := roundOf s + 1
        unmet := failedOrders s ++ s.deferred
        deferred := [] }
    else { s.judge complete answer with replan := false, roundsCompleted := roundOf s }

def outputNode (s : SkynetState) : Report :=
  match s.error.filter (· ≠ ""), s.results with
  | some e, [] => .notice ("Skynet could not plan: " ++ e)
  | _, results =>
    .result
      { goal := s.goal
        answer := s.answer
        workerResults := results
        roundsCompleted := if s.roundsCompleted = 0 then roundOf s else s.roundsCompleted
        deferredOrders := s.deferred
        complete := s.complete }

/-! The loop. -/

inductive Turn where
  | again (s : SkynetState)
  | finish (s : SkynetState)
  | abort

def afterWorkers (s : SkynetState) (results : List WorkerResult) : Turn :=
  let s := w.evaluateNode (w.reduceNode
    { s with parallelResults := s.parallelResults ++ results.map fun r => ⟨workerTag, r⟩ })
  if s.replan then .again s else .finish s

def playRound (s : SkynetState) : List Dispatch × Turn :=
  let s := w.planNode s
  let batch := (w.dispatcher s).map fun o => (⟨o, w.execute s.round o⟩ : Dispatch)
  if batch = [] then ([], .finish s)
  else if batch.any fun d => d.result.isNone then (batch, .abort)
  else (batch, w.afterWorkers s (batch.filterMap Dispatch.result))

/-- A run of the swarm: what was dispatched in its rounds, and the report, unless it is aborted. -/
structure SwarmRun where
  rounds : List (List Dispatch)
  report : Option Report

/-- At most `fuel` rounds; `none` when they do not end the run. -/
def run : Nat → SkynetState → Option SwarmRun
  | 0, _ => none
  | fuel + 1, s =>
    match w.playRound s with
    | (batch, .again s) => (run fuel s).map fun r => { r with rounds := batch :: r.rounds }
    | (batch, .finish s) => some ⟨[batch], some (outputNode s)⟩
    | (batch, .abort) => some ⟨[batch], none⟩

end Swarm

end Prismal.Agents
