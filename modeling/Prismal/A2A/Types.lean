import Prismal.Lib.Dict

namespace Prismal.A2A
open Prismal.Lib
set_option autoImplicit true

/-- A JSON value; a number is kept by its text. -/
inductive Json where
  | null
  | bool (b : Bool)
  | number (text : String)
  | str (s : String)
  | list (xs : List Json)
  | object (fields : List (String × Json))

/-- `TaskStatus`, the internal states. -/
inductive TaskStatus where
  | submitted
  | working
  | inputRequired
  | completed
  | failed
  | canceled
  deriving DecidableEq, Repr

/-- The protocol's `TaskState`. -/
inductive TaskState where
  | unspecified
  | submitted
  | working
  | completed
  | failed
  | canceled
  | inputRequired
  | rejected
  | authRequired
  deriving DecidableEq, Repr

/-- Membership in `TERMINAL_STATES`. -/
def TaskState.terminal : TaskState → Bool
  | completed | failed | canceled | rejected => true
  | _ => false

inductive LegacyRole where
  | user
  | agent
  deriving DecidableEq, Repr

inductive Role where
  | user
  | agent
  deriving DecidableEq, Repr

inductive PartKind where
  | text
  | file
  | data
  deriving DecidableEq, Repr

structure A2APart where
  kind : PartKind
  text : Option String := none
  data : Option (List (String × Json)) := none
  file : Option (List (String × Json)) := none

structure A2AMessage where
  role : LegacyRole
  parts : List A2APart
  messageId : String

structure A2AArtifact where
  artifactId : String
  parts : List A2APart

/-- The unit of work that the server keeps for a task id. -/
structure A2ATask where
  id : String
  status : TaskStatus
  history : List A2AMessage := []
  artifacts : List A2AArtifact := []

/-- A part of the v1 protocol carries exactly one of its four contents. -/
inductive PartContent where
  | text (s : String)
  | raw (base64 : String)
  | url (u : String)
  | data (v : Json) (notNull : v ≠ .null)

structure PartV1 where
  content : PartContent
  mediaType : Option String := none
  filename : Option String := none

structure MessageV1 where
  messageId : String
  role : Role
  parts : List PartV1
  contextId : Option String := none
  taskId : Option String := none

structure ArtifactV1 where
  artifactId : String
  parts : List PartV1

abbrev Instant := Int

structure TaskV1 where
  id : String
  contextId : String
  state : TaskState
  timestamp : Option Instant
  artifacts : Option (List ArtifactV1)
  history : Option (List MessageV1)

/-- Tenant and principal of one negotiated request. -/
structure Scope where
  orgId : Option String
  principal : Option String
  deriving DecidableEq, Repr

/-- The caller's identity as the host established it. -/
structure AuthContext where
  authenticated : Bool := false
  subject : Option String := none
  deriving DecidableEq, Repr

structure TaskRecord where
  taskId : String
  contextId : String
  orgId : Option String
  principal : Option String
  state : TaskState
  createdAt : Instant
  updatedAt : Instant
  artifactIds : List String := []
  deriving DecidableEq, Repr

def TaskRecord.owner (r : TaskRecord) : Scope := ⟨r.orgId, r.principal⟩

/-- `replace(record, state=state, updated_at=now)` -/
def TaskRecord.moved (r : TaskRecord) (state : TaskState) (now : Instant) : TaskRecord :=
  { r with state := state, updatedAt := now }

@[simp] theorem TaskRecord.moved_taskId (r : TaskRecord) (state : TaskState) (now : Instant) :
    (r.moved state now).taskId = r.taskId := rfl

@[simp] theorem TaskRecord.moved_owner (r : TaskRecord) (state : TaskState) (now : Instant) :
    (r.moved state now).owner = r.owner := rfl

structure RpcError where
  code : Int
  message : String
  deriving DecidableEq, Repr

def errTaskNotFound : Int := -32001
def errTaskNotCancelable : Int := -32002
def errUnsupportedOperation : Int := -32004
def errInvalidParams : Int := -32602
def errMethodNotFound : Int := -32601
def legacyUnauthorized : Int := -32001
def legacyTaskNotFound : Int := -32004

def listTasksDefaultPageSize : Nat := 50
def listTasksMaxPageSize : Nat := 100

/-- A model of the v1 protocol was built from a value it does not accept. -/
inductive ValidationError where
  | wrongType
  deriving DecidableEq, Repr

def Json.isNull : Json → Bool
  | .null => true
  | _ => false

def Json.asObject : Json → Option (List (String × Json))
  | .object fields => some fields
  | _ => none

/-- A field of type `str | None`. -/
def optionalStr : Option Json → Except ValidationError (Option String)
  | none | some .null => .ok none
  | some (.str s) => .ok (some s)
  | some _ => .error .wrongType

def partToInternal (part : PartV1) : A2APart :=
  let extra :=
    (part.mediaType.map fun m => ("mimeType", Json.str m)).toList ++
    (part.filename.map fun n => ("name", Json.str n)).toList
  match part.content with
  | .text s => { kind := .text, text := some s }
  | .data v _ => { kind := .data, data := some (v.asObject.getD [("value", v)]) }
  | .raw s => { kind := .file, file := some (("bytes", .str s) :: extra) }
  | .url u => { kind := .file, file := some (("uri", .str u) :: extra) }

/-- `file[key] is not None` -/
def present (file : List (String × Json)) (key : String) : Option Json :=
  (file.lookup key).filter fun v => !v.isNull

def filePart (content : String → PartContent) (v : Json) (file : List (String × Json)) :
    Except ValidationError PartV1 := do
  let s ← optionalStr (some v)
  let mediaType ← optionalStr (file.lookup "mimeType")
  let filename ← optionalStr (file.lookup "name")
  return ⟨content (s.getD ""), mediaType, filename⟩

def partFromInternal (part : A2APart) : Except ValidationError PartV1 :=
  match part.kind with
  | .data => .ok { content := .data (.object (part.data.getD [])) (fun h => nomatch h) }
  | .file =>
    let file := part.file.getD []
    match present file "bytes" with
    | some v => filePart .raw v file
    | none =>
      match present file "uri" with
      | some v => filePart .url v file
      | none => .ok { content := .text "" }
  | .text => .ok { content := .text (part.text.getD "") }

def Role.toInternal : Role → LegacyRole
  | user => .user
  | agent => .agent

def LegacyRole.toV1 : LegacyRole → Role
  | user => .user
  | agent => .agent

def messageToInternal (message : MessageV1) : A2AMessage where
  role := message.role.toInternal
  parts := message.parts.map partToInternal
  messageId := message.messageId

def messageFromInternal (message : A2AMessage) (contextId taskId : Option String) :
    Except ValidationError MessageV1 := do
  let parts ← message.parts.mapM partFromInternal
  return ⟨message.messageId, message.role.toV1, parts, contextId, taskId⟩

def PartV1.text? (part : PartV1) : Option String :=
  match part.content with
  | .text s => some s
  | _ => none

def messageText (message : MessageV1) : String :=
  "\n".intercalate (message.parts.filterMap PartV1.text?)

def stateToV1 : TaskStatus → TaskState
  | .submitted => .submitted
  | .working => .working
  | .inputRequired => .inputRequired
  | .completed => .completed
  | .failed => .failed
  | .canceled => .canceled

def stateToInternal : TaskState → TaskStatus
  | .rejected => .failed
  | .authRequired => .inputRequired
  | .unspecified => .submitted
  | .submitted => .submitted
  | .working => .working
  | .inputRequired => .inputRequired
  | .completed => .completed
  | .failed => .failed
  | .canceled => .canceled

theorem stateToInternal_stateToV1 (s : TaskStatus) : stateToInternal (stateToV1 s) = s := by
  cases s <;> rfl

def artifactToInternal (artifact : ArtifactV1) : A2AArtifact :=
  ⟨artifact.artifactId, artifact.parts.map partToInternal⟩

def artifactFromInternal (artifact : A2AArtifact) : Except ValidationError ArtifactV1 := do
  let parts ← artifact.parts.mapM partFromInternal
  return ⟨artifact.artifactId, parts⟩

/-- `historyLength` keeps the most recent turns. -/
def recentHistory (history : List α) : Option Int → List α
  | none => history
  | some n => if 0 < n then history.drop (history.length - n.toNat) else []

def artifactsFromInternal (task : A2ATask) (includeArtifacts : Bool) :
    Except ValidationError (Option (List ArtifactV1)) :=
  if includeArtifacts then some <$> task.artifacts.mapM artifactFromInternal else .ok none

def taskFromInternal (task : A2ATask) (contextId : String) (timestamp : Option Instant)
    (includeArtifacts : Bool) (historyLength : Option Int) : Except ValidationError TaskV1 := do
  let artifacts ← artifactsFromInternal task includeArtifacts
  let history ← (recentHistory task.history historyLength).mapM fun m =>
    messageFromInternal m (some contextId) (some task.id)
  return {
    id := task.id
    contextId := contextId
    state := stateToV1 task.status
    timestamp := timestamp
    artifacts := artifacts
    history := if history.isEmpty then none else some history }

def taskToInternal (task : TaskV1) : A2ATask where
  id := task.id
  status := stateToInternal task.state
  history := (task.history.getD []).map messageToInternal
  artifacts := (task.artifacts.getD []).map artifactToInternal

end Prismal.A2A
