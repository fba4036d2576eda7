import Prismal.A2A.TaskStore

namespace Prismal.A2A
open Prismal.Lib
set_option autoImplicit true

structure Config where
  strict : Bool := false
  limits : StoreLimits := {}

/-- What a handler draws from its surroundings in one segment: the clock and fresh `uuid4`s. -/
structure Env where
  now : Instant
  taskUuid : String := ""
  contextUuid : String := ""
  messageUuid : String := ""

inductive Stage where
  /-- a v1 stream at the yield of its first event, before the graph -/
  | reserved
  /-- a send inside the graph -/
  | sending (v1 : Bool)
  /-- a stream inside the graph -/
  | streaming (v1 : Bool)
  /-- a legacy stream at the yield of its artifacts, after the graph -/
  | delivering (artifacts : List A2AArtifact)

def Stage.legacyStream : Stage → Bool
  | streaming false | delivering _ => true
  | _ => false

/-- A send or stream that is suspended at an await point. -/
structure Flight where
  stage : Stage
  task : String
  context : String
  scope : Option Scope
  history : List A2AMessage
  historyLength : Option Int

/-- The handler: the task store over the registry, and the suspended sends and streams. -/
structure Server where
  store : TaskStore := {}
  flights : Dict Nat Flight := ∅
  nextFlight : Nat := 0

/-- A parsed request; `v1` ones carry the tenant that the parameters name. -/
inductive Request where
  | legacySend (stream : Bool) (taskId : Option String) (text : String)
  | legacyGet (id : String)
  | legacyCancel (id : String)
  | v1Send (stream : Bool) (tenant : Option String) (message : MessageV1)
      (historyLength : Option Int)
  | v1Get (tenant : Option String) (id : String) (historyLength : Option Int)
  | v1Cancel (tenant : Option String) (id : String)
  | v1List (params : ListTasksRequest)

/-- A request at the handler's door. Without headers it is unscoped. -/
structure Call where
  request : Request
  headers : Bool
  auth : Option AuthContext
  orgId : Option String

inductive Reply where
  | pending
  | raised
  | error (e : RpcError)
  | task (t : A2ATask)
  | taskV1 (t : TaskV1)
  | listed (tasks : List TaskV1) (nextPageToken : Option PageToken) (pageSize totalSize : Nat)
  | artifacts (items : List A2AArtifact)
  | artifactsV1 (items : List ArtifactV1)
  | status (state : TaskState)

/-- A reply, with the owners of all the records and bodies it was made from. The origins are a
ghost: the caller sees the reply only. -/
structure Response where
  reply : Reply
  origins : List (Option Scope) := []

inductive Action where
  | call (c : Call) (env : Env)
  | resume (flight : Nat) (env : Env)
  | graph (flight : Nat) (answer : Option String) (env : Env)
  | abandon (flight : Nat)

def notFound : RpcError := ⟨errTaskNotFound, "task not found"⟩

def Call.callerScope (c : Call) : Scope := ⟨c.orgId, c.auth.bind AuthContext.subject⟩

/-- `None` for a caller without headers. -/
def Call.legacyScope (c : Call) : Option Scope := if c.headers then some c.callerScope else none

def Call.scope (c : Call) : Option Scope :=
  match c.request with
  | .legacySend _ _ _ | .legacyGet _ | .legacyCancel _ => c.legacyScope
  | .v1Send _ _ _ _ | .v1Get _ _ _ | .v1Cancel _ _ | .v1List _ => some c.callerScope

theorem Call.legacyScope_some {c : Call} {sc : Scope} (h : c.legacyScope = some sc) :
    sc = c.callerScope := by
  rw [legacyScope] at h
  split at h
  · exact (Option.some.inj h).symm
  · cases h

def authorized (cfg : Config) (auth : Option AuthContext) : Bool :=
  !cfg.strict || auth.any AuthContext.authenticated

def tenantMatches (tenant : Option String) (scope : Scope) : Bool :=
  tenant.all fun t => decide (scope.orgId = some t)

def principalFilter (cfg : Config) (scope : Scope) : Option String :=
  if cfg.strict then scope.principal else none

def scopedRecord (cfg : Config) (st : TaskStore) (taskId : String) (scope : Scope) :
    Except RpcError TaskRecord :=
  match st.get taskId scope.orgId with
  | none => .error notFound
  | some record =>
    if (principalFilter cfg scope).all fun p => decide (record.principal = some p) then .ok record
    else .error notFound

def inScope (cfg : Config) (st : TaskStore) (taskId : String) : Option Scope → Bool
  | none => (st.peek taskId).isNone
  | some scope => (scopedRecord cfg st taskId scope).isOk

def taskBody (st : TaskStore) (record : TaskRecord) : Signed :=
  (st.task record.taskId).getD
    ⟨{ id := record.taskId, status := stateToInternal record.state }, some record.owner⟩

def updateState (cfg : Config) (st : TaskStore) (taskId : String) (scope : Option Scope)
    (state : TaskState) (now : Instant) : TaskStore :=
  match scope.bind fun s => st.get taskId s.orgId with
  | none => st
  | some record => st.put cfg.limits (record.moved state now)

def finished (existing : Option TaskRecord) (task : A2ATask) (contextId : String) (scope : Scope)
    (now : Instant) : TaskRecord where
  taskId := task.id
  contextId := contextId
  orgId := scope.orgId
  principal := scope.principal
  state := stateToV1 task.status
  createdAt := (existing.map TaskRecord.createdAt).getD now
  updatedAt := now
  artifactIds := task.artifacts.map A2AArtifact.artifactId

def record (cfg : Config) (st : TaskStore) (task : A2ATask) (contextId : String) (scope : Scope)
    (now : Instant) : TaskStore :=
  st.put cfg.limits (finished (st.peek task.id) task contextId scope now)

def claimTaskId (st : TaskStore) (taskId : String) (scope : Option Scope) : Except RpcError Unit :=
  if taskId = "" then .ok ()
  else
    match st.peek taskId with
    | none => if taskId ∈ st.registry then .error notFound else .ok ()
    | some owner => if scope = some owner.owner then .ok () else .error notFound

def refusesTerminal (v1 : Bool) (existing : Option TaskRecord) : Bool :=
  v1 && existing.any fun r => r.state.terminal

def working (existing : Option TaskRecord) (taskId contextId : String) (scope : Scope)
    (now : Instant) : TaskRecord where
  taskId := taskId
  contextId := contextId
  orgId := scope.orgId
  principal := scope.principal
  state := .working
  createdAt := (existing.map TaskRecord.createdAt).getD now
  updatedAt := now
  artifactIds := (existing.map TaskRecord.artifactIds).getD []

/-- Claim a task id and record it `WORKING`, in one step. -/
def reserve (cfg : Config) (st : TaskStore) (taskId contextId : String) (scope : Scope)
    (v1 : Bool) (now : Instant) : Except RpcError TaskStore :=
  match claimTaskId st taskId (some scope) with
  | .error e => .error e
  | .ok () =>
    if refusesTerminal v1 (st.peek taskId) then
      .error ⟨errUnsupportedOperation, "task is in a terminal state"⟩
    else .ok (st.put cfg.limits (working (st.peek taskId) taskId contextId scope now))

/-- `given or uuid` -/
def orFresh (given : Option String) (uuid : String) : String :=
  (given.filter fun s => decide (s ≠ "")).getD uuid

def claimLegacy (st : TaskStore) (taskId : Option String) : Except RpcError Unit :=
  match taskId.filter fun s => decide (s ≠ "") with
  | none => .ok ()
  | some id => if (st.peek id).isNone then .ok () else claimTaskId st id none

def claimLegacySend (cfg : Config) (st : TaskStore) (taskId : Option String)
    (scope : Option Scope) (env : Env) : Except RpcError TaskStore :=
  match scope with
  | none =>
    match claimLegacy st taskId with
    | .error e => .error e
    | .ok () => .ok st
  | some scope =>
    let id := orFresh taskId env.taskUuid
    reserve cfg st id id scope false env.now

def Server.launch (s : Server) (store : TaskStore) (f : Flight) : Server where
  store := store
  flights := s.flights.set s.nextFlight f
  nextFlight := s.nextFlight + 1

def Server.withStore (s : Server) (store : TaskStore) : Server := { s with store := store }

def refuse (s : Server) (e : RpcError) : Server × Response := (s, ⟨.error e, []⟩)

def userMessage (text uuid : String) : A2AMessage :=
  ⟨.user, [{ kind := .text, text := some text }], uuid⟩

def legacyFlight (stream : Bool) (id text : String) (scope : Option Scope) (env : Env) :
    Flight where
  stage := if stream then .streaming false else .sending false
  task := id
  context := id
  scope := scope
  history := if stream then [] else [userMessage text env.messageUuid]
  historyLength := none

def legacySend (cfg : Config) (s : Server) (stream : Bool) (taskId : Option String)
    (text : String) (scope : Option Scope) (env : Env) : Server × Response :=
  match claimLegacySend cfg s.store taskId scope env with
  | .error e => refuse s e
  | .ok store =>
    let id := orFresh taskId env.taskUuid
    (s.launch store (legacyFlight stream id text scope env), ⟨.pending, []⟩)

def legacyGet (cfg : Config) (s : Server) (id : String) (scope : Option Scope) :
    Server × Response :=
  match s.store.task id with
  | none => refuse s ⟨legacyTaskNotFound, "task not found"⟩
  | some stored =>
    if inScope cfg s.store stored.task.id scope then (s, ⟨.task stored.task, [stored.author]⟩)
    else refuse s ⟨legacyTaskNotFound, "task not found"⟩

def canceled (body : Signed) : Signed :=
  { body with task := { body.task with status := .canceled } }

def legacyCancel (cfg : Config) (s : Server) (id : String) (scope : Option Scope)
    (env : Env) : Server × Response :=
  match s.store.task id with
  | none => refuse s ⟨legacyTaskNotFound, "task not found"⟩
  | some stored =>
    if inScope cfg s.store id scope then
      let store := s.store.register id (canceled stored)
      (s.withStore (updateState cfg store id scope .canceled env.now),
        ⟨.task (canceled stored).task, [stored.author]⟩)
    else refuse s ⟨legacyTaskNotFound, "task not found"⟩

def v1Flight (stream : Bool) (id context : String) (message : MessageV1)
    (historyLength : Option Int) (scope : Scope) : Flight where
  stage := if stream then .reserved else .sending true
  task := id
  context := context
  scope := some scope
  history := [messageToInternal message]
  historyLength := historyLength

def v1Send (cfg : Config) (s : Server) (stream : Bool) (message : MessageV1)
    (historyLength : Option Int) (scope : Scope) (env : Env) : Server × Response :=
  let id := orFresh message.taskId env.taskUuid
  let context := orFresh message.contextId env.contextUuid
  match reserve cfg s.store id context scope true env.now with
  | .error e => refuse s e
  | .ok store =>
    let flight := v1Flight stream id context message historyLength scope
    (s.launch store flight, ⟨if stream then .status .working else .pending, []⟩)

def encoded (task : Except ValidationError TaskV1) : Reply :=
  match task with
  | .ok t => .taskV1 t
  | .error _ => .raised

def v1Get (cfg : Config) (s : Server) (id : String) (historyLength : Option Int)
    (scope : Scope) : Server × Response :=
  match scopedRecord cfg s.store id scope with
  | .error e => refuse s e
  | .ok record =>
    let body := taskBody s.store record
    let wire := taskFromInternal body.task record.contextId (some record.updatedAt) true
      historyLength
    (s, ⟨encoded wire, [some record.owner, body.author]⟩)

def v1Cancel (cfg : Config) (s : Server) (id : String) (scope : Scope) (env : Env) :
    Server × Response :=
  match scopedRecord cfg s.store id scope with
  | .error e => refuse s e
  | .ok record =>
    if record.state.terminal then refuse s ⟨errTaskNotCancelable, "task not cancelable"⟩
    else
      let body := canceled (taskBody s.store record)
      let updated := record.moved .canceled env.now
      let store := (s.store.register record.taskId body).put cfg.limits updated
      let wire := taskFromInternal body.task record.contextId (some updated.updatedAt) true none
      (s.withStore store, ⟨encoded wire, [some record.owner, body.author]⟩)

def listItem (st : TaskStore) (params : ListTasksRequest) (record : TaskRecord) :
    Except ValidationError TaskV1 :=
  taskFromInternal (taskBody st record).task record.contextId (some record.updatedAt)
    (params.includeArtifacts.getD false) params.historyLength

def v1List (cfg : Config) (s : Server) (params : ListTasksRequest) (scope : Scope) :
    Server × Response :=
  let principal := principalFilter cfg scope
  match s.store.list cfg.limits scope.orgId params principal,
      s.store.count scope.orgId params principal with
  | .ok (records, token), .ok total =>
    let origins := records.flatMap fun r => [some r.owner, (taskBody s.store r).author]
    match records.mapM (listItem s.store params) with
    | .ok tasks => (s, ⟨.listed tasks token (TaskStore.pageSize cfg.limits params) total, origins⟩)
    | .error _ => (s, ⟨.raised, origins⟩)
  | .error e, _ | _, .error e => refuse s ⟨errInvalidParams, e.message⟩

def forTenant (s : Server) (tenant : Option String) (scope : Scope) (f : Server × Response) :
    Server × Response :=
  if tenantMatches tenant scope then f else refuse s notFound

/-- `handle_rpc` and the first segment of `stream_rpc`. -/
def handle (cfg : Config) (s : Server) (c : Call) (env : Env) : Server × Response :=
  if authorized cfg c.auth then
    match c.request with
    | .legacySend stream taskId text => legacySend cfg s stream taskId text c.legacyScope env
    | .legacyGet id => legacyGet cfg s id c.legacyScope
    | .legacyCancel id => legacyCancel cfg s id c.legacyScope env
    | .v1Send stream tenant message n =>
      forTenant s tenant c.callerScope (v1Send cfg s stream message n c.callerScope env)
    | .v1Get tenant id n => forTenant s tenant c.callerScope (v1Get cfg s id n c.callerScope)
    | .v1Cancel tenant id => forTenant s tenant c.callerScope (v1Cancel cfg s id c.callerScope env)
    | .v1List params => forTenant s params.tenant c.callerScope (v1List cfg s params c.callerScope)
  else refuse s ⟨legacyUnauthorized, "authentication required"⟩

def Server.land (s : Server) (id : Nat) (store : TaskStore) : Server :=
  { s with store := store, flights := s.flights.erase id }

def Server.setStage (s : Server) (id : Nat) (f : Flight) (stage : Stage) : Server :=
  { s with flights := s.flights.set id { f with stage := stage } }

def Flight.completedTask (f : Flight) (artifacts : List A2AArtifact) : A2ATask where
  id := f.task
  status := .completed
  history := f.history
  artifacts := artifacts

def completeRun (cfg : Config) (st : TaskStore) (f : Flight) (artifacts : List A2AArtifact)
    (now : Instant) : TaskStore :=
  let task := f.completedTask artifacts
  let st := st.register f.task ⟨task, f.scope⟩
  match f.scope with
  | none => st
  | some scope => record cfg st task f.context scope now

def answerArtifact (answer : String) (env : Env) : A2AArtifact :=
  ⟨env.messageUuid, [{ kind := .text, text := some answer }]⟩

def completionReply (f : Flight) (artifacts : List A2AArtifact) (now : Instant) : Reply :=
  match f.stage with
  | .sending false => .task (f.completedTask artifacts)
  | .sending true => encoded (taskFromInternal (f.completedTask artifacts) f.context (some now)
      true f.historyLength)
  | .delivering _ => .status .completed
  | .streaming _ | .reserved =>
    match artifacts.mapM artifactFromInternal with
    | .ok items => .artifactsV1 items
    | .error _ => .raised

def finishRun (cfg : Config) (s : Server) (id : Nat) (f : Flight)
    (artifacts : List A2AArtifact) (now : Instant) : Server × Response :=
  (s.land id (completeRun cfg s.store f artifacts now),
    ⟨completionReply f artifacts now, [f.scope]⟩)

def graphAnswered (cfg : Config) (s : Server) (id : Nat) (f : Flight) (answer : String)
    (env : Env) : Server × Response :=
  let artifacts := [answerArtifact answer env]
  match f.stage with
  | .reserved | .delivering _ => (s, ⟨.pending, []⟩)
  | .streaming false => (s.setStage id f (.delivering artifacts), ⟨.artifacts artifacts, [f.scope]⟩)
  | .streaming true | .sending _ => finishRun cfg s id f artifacts env.now

/-- The graph raises: a scoped run is recorded `FAILED` and the exception goes on. -/
def graphRaised (cfg : Config) (s : Server) (id : Nat) (f : Flight) (env : Env) :
    Server × Response :=
  match f.stage with
  | .reserved | .delivering _ => (s, ⟨.pending, []⟩)
  | .streaming _ | .sending _ =>
    (s.land id (updateState cfg s.store f.task f.scope .failed env.now), ⟨.raised, []⟩)

def resumed (cfg : Config) (s : Server) (id : Nat) (f : Flight) (env : Env) :
    Server × Response :=
  match f.stage with
  | .reserved => (s.setStage id f (.streaming true), ⟨.pending, []⟩)
  | .delivering artifacts => finishRun cfg s id f artifacts env.now
  | .streaming _ | .sending _ => (s, ⟨.pending, []⟩)

def onFlight (s : Server) (id : Nat) (f : Flight → Server × Response) : Server × Response :=
  match s.flights.get? id with
  | none => (s, ⟨.pending, []⟩)
  | some flight => f flight

/-- One segment between two await points. An action that no suspended run is ready for does
nothing. -/
def step (cfg : Config) (s : Server) : Action → Server × Response
  | .call c env => handle cfg s c env
  | .abandon id => (s.land id s.store, ⟨.pending, []⟩)
  | .graph id (some text) env => onFlight s id fun f => graphAnswered cfg s id f text env
  | .graph id none env => onFlight s id fun f => graphRaised cfg s id f env
  | .resume id env => onFlight s id fun f => resumed cfg s id f env

def next (cfg : Config) (s : Server) (a : Action) : Server := (step cfg s a).1

end Prismal.A2A
