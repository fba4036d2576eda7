import Prismal.Agents.ContextCompaction
import Prismal.Agents.ToolOutputBudget
import Prismal.Lib.Run

namespace Prismal.Agents
open Prismal.Lib Prismal.Lib.Retrying
set_option autoImplicit true

/-! The middleware around a node: each layer wraps the next one and sees what comes out of it. -/

/-- An exception: its class with all bases of that, its text and its `repr`. A `NodeExecutionError`
keeps the class and the text of its cause. -/
structure Raised where
  classes : List String
  text : String
  shown : String
  cause : Option (String × String) := none
  deriving DecidableEq, Repr

/-- `isinstance(exc, cls)` -/
def Raised.isA (e : Raised) (cls : String) : Bool := decide (cls ∈ e.classes)

/-- `type(exc).__name__` -/
def Raised.className (e : Raised) : String := e.classes.headD ""

def exceptionBases : List String := ["Exception", "BaseException", "object"]

/-- What the deadline of `asyncio.wait_for` raises. -/
def timeoutError : Raised where
  classes := ["TimeoutError", "OSError"] ++ exceptionBases
  text := ""
  shown := "TimeoutError()"

def cancelledError : Raised where
  classes := ["CancelledError", "BaseException", "object"]
  text := ""
  shown := "CancelledError()"

/-- `assert last_exc is not None`, after no attempt at all -/
def assertionError : Raised where
  classes := "AssertionError" :: exceptionBases
  text := ""
  shown := "AssertionError()"

/-- A message with the names of its tool calls. -/
structure NodeMessage extends Message where
  toolCalls : List String := []
  deriving DecidableEq, Repr

/-- What `_error_update` puts under `metadata.error`. -/
structure ErrorEntry where
  node : String
  type : String
  message : String
  timeout : Bool
  deriving DecidableEq, Repr

/-- A state update: its list of messages, its error entry, and all that is passed on. -/
structure NodeUpdate where
  messages : Option (List NodeMessage) := none
  error : Option ErrorEntry := none
  other : List (String × String) := []
  deriving DecidableEq, Repr

structure NodeState where
  messages : List NodeMessage := []
  sessionId : String := ""
  deriving DecidableEq, Repr

inductive SecurityLevel where
  | off
  | standard
  | strict
  deriving DecidableEq, Repr

inductive NodeIOMode where
  | off
  | warn
  | enforce
  deriving DecidableEq, Repr

structure NodeRetryPolicy where
  maxAttempts : Int := 3
  backoffS : List Rat := [1 / 10, 1 / 2, 1]
  retryOn : List String := ["TimeoutError", "ConnectionError"]
  deriving DecidableEq, Repr

/-- A number of seconds, and how it is printed. -/
structure NodeTimeout where
  seconds : Rat
  text : String
  deriving DecidableEq, Repr

/-- The metadata of a node. A model of its input or output gives the messages of what does not fit,
none when all does. -/
structure NodeMetadata where
  name : String
  security : SecurityLevel := .standard
  audit : Bool := true
  retry : Option NodeRetryPolicy := none
  timeoutS : Option NodeTimeout := none
  raiseOnError : Bool := false
  propagateErrors : Bool := false
  inputModel : Option (NodeState → List String) := none
  outputModel : Option (NodeUpdate → List String) := none

structure NodeSettings where
  nodeTypesafetyEnabled : Bool := false
  nodeTypesafetyMode : NodeIOMode := .warn
  hardeningEnabled : Bool := false
  hardeningPiiOutput : Bool := false
  outputBudget : ToolOutputBudget := ⟨false, 0, []⟩

/-- What the layers call: the sanitizer, the redaction of a text (`none`: it raises), the artifact
store, the permissions, and `repr` of a text. -/
structure NodeHost where
  sanitize : String → String
  redactOutput : String → Option String
  putArtifact : String → Option String
  check : String → Except Raised Bool
  repr : String → String

/-- What an attempt of the node does: its result, and whether it has it before the deadline. -/
structure Behaviour where
  result : Except Raised NodeUpdate
  inTime : Bool := true

inductive AuditStatus where
  | ok
  | error
  deriving DecidableEq, Repr

/-- What happens while a node runs. A record of the audit log has the update that its hash is of. -/
inductive NodeEvent where
  | attempt
  | invoked
  | expired
  | slept (delay : Rat)
  | audited (status : AuditStatus) (update : Option NodeUpdate)
  deriving DecidableEq, Repr

abbrev NodeLog := List NodeEvent

abbrev NodeFn := NodeState → NodeLog → Except Raised NodeUpdate × NodeLog

abbrev Middleware := NodeFn → NodeFn

def attemptNo (log : NodeLog) : Nat := log.count .attempt - 1

namespace NodePipeline

variable (host : NodeHost) (st : NodeSettings) (m : NodeMetadata)

def late (b : Behaviour) : Bool := m.timeoutS.isSome && !b.inTime

def userFn (node : Nat → NodeState → Behaviour) : NodeFn := fun s log =>
  let b := node (attemptNo log) s
  if late m b then (.error cancelledError, log ++ [.invoked, .expired])
  else (b.result, log ++ [.invoked])

/-! The exceptions of the layers. -/

def nodeErrorClasses : List String :=
  ["NodeExecutionError", "ExtensionError", "PrismalError"] ++ exceptionBases

/-- The text of a `NodeExecutionError`. -/
def failedText (shownCause : String) : String := "Node '" ++ m.name ++ "' failed: " ++ shownCause

def nodeExecutionError (cause : Raised) : Raised where
  classes := nodeErrorClasses
  text := failedText m cause.shown
  shown := "NodeExecutionError(" ++ host.repr (failedText m cause.shown) ++ ")"
  cause := some (cause.className, cause.text)

def timedOutText (t : NodeTimeout) : String :=
  "Node '" ++ m.name ++ "' timed out after " ++ t.text ++ "s"

def nodeTimeoutError (t : NodeTimeout) (cause : Raised) : Raised where
  classes := "NodeTimeoutError" :: nodeErrorClasses
  text := timedOutText m t
  shown := "NodeTimeoutError(" ++ host.repr (timedOutText m t) ++ ")"
  cause := some (cause.className, cause.text)

/-- `NodeValidationError` of a `ValueError` that joins the errors. -/
def nodeValidationError (errors : List String) : Raised where
  classes := "NodeValidationError" :: nodeErrorClasses
  text := failedText m ("ValueError(" ++ host.repr ("; ".intercalate errors) ++ ")")
  shown := "NodeValidationError(" ++
    host.repr (failedText m ("ValueError(" ++ host.repr ("; ".intercalate errors) ++ ")")) ++ ")"
  cause := some ("ValueError", "; ".intercalate errors)

def deniedText (tool action : String) : String :=
  "Permission denied: action='" ++ action ++ "' on resource='" ++ tool ++ "'"

def permissionDeniedError (tool action : String) : Raised where
  classes := ["PermissionDeniedError", "SecurityError", "PrismalError"] ++ exceptionBases
  text := deniedText tool action
  shown := "PermissionDeniedError(" ++ host.repr (deniedText tool action) ++ ")"

/-! The layers, from the innermost to the outermost. -/

def ioErrors {α : Type} (model : Option (α → List String)) (x : α) : List String :=
  if st.nodeTypesafetyMode = .off then [] else model.elim [] fun f => f x

def enforced (errors : List String) : Bool :=
  !errors.isEmpty && decide (st.nodeTypesafetyMode = .enforce)

def nodeIoValidation : Middleware := fun next s log =>
  if !st.nodeTypesafetyEnabled then next s log
  else
    let inputErrors := ioErrors st m.inputModel s
    if enforced st inputErrors then (.error (nodeValidationError host m inputErrors), log)
    else
      match next s log with
      | (.error e, log) => (.error e, log)
      | (.ok update, log) =>
        let outputErrors := ioErrors st m.outputModel update
        if enforced st outputErrors then (.error (nodeValidationError host m outputErrors), log)
        else (.ok update, log)

/-- `_redact_update_messages` -/
def redactUpdateMessages (update : NodeUpdate) : NodeUpdate :=
  { update with
    messages := update.messages.map (List.map fun msg =>
      if msg.content = "" then msg
      else { msg with content := (host.redactOutput msg.content).getD msg.content }) }

/-- The taint registry that a run may have is in use while the node runs; it changes no update. -/
def hardening : Middleware := fun next s log =>
  match next s log with
  | (.error e, log) => (.error e, log)
  | (.ok update, log) =>
    if st.hardeningEnabled && st.hardeningPiiOutput then (.ok (redactUpdateMessages host update), log)
    else (.ok update, log)

def capMessage (msg : NodeMessage) : NodeMessage :=
  if msg.type = .tool then
    let tool := if msg.name.getD "" = "" then "tool" else msg.name.getD ""
    let out := st.outputBudget.apply host.putArtifact tool msg.content
    if out.truncated then { msg with content := out.content } else msg
  else msg

def toolOutputBudget : Middleware := fun next s log =>
  match next s log with
  | (.error e, log) => (.error e, log)
  | (.ok update, log) =>
    if !st.outputBudget.enabled then (.ok update, log)
    else (.ok { update with messages := update.messages.map (List.map (capMessage host st)) }, log)

/-- `except TimeoutError` -/
def renameTimeout (t : NodeTimeout) (e : Raised) : Raised :=
  if e.isA "TimeoutError" then nodeTimeoutError host m t e else e

/-- `asyncio.wait_for`; with no time at all the node is cancelled before it starts. -/
def timeout : Middleware := fun next s log =>
  match m.timeoutS with
  | none => next s log
  | some t =>
    if t.seconds ≤ 0 then (.error (nodeTimeoutError host m t timeoutError), log)
    else
      let (result, log) := next s log
      if log.getLast? = some .expired then (.error (nodeTimeoutError host m t timeoutError), log)
      else (result.mapError (renameTimeout host m t), log)

/-- `except policy.retry_on` -/
def catches (p : NodeRetryPolicy) (e : Raised) : Bool := p.retryOn.any e.isA

def pause (p : NodeRetryPolicy) (attempt : Nat) : NodeLog :=
  match p.backoffS[min attempt (p.backoffS.length - 1)]? with
  | none => []
  | some delay => if 0 < delay then [.slept delay] else []

def retryLoop (p : NodeRetryPolicy) (next : NodeFn) (s : NodeState) :
    Nat → Nat → NodeLog → Except Raised NodeUpdate × NodeLog
  | 0, _, log => (.error assertionError, log)
  | left + 1, attempt, log =>
    match next s (log ++ [.attempt]) with
    | (.ok update, log) => (.ok update, log)
    | (.error e, log) =>
      if e.isA "GraphInterrupt" then (.error e, log)
      else if catches p e then
        if left = 0 then (.error e, log)
        else retryLoop p next s left (attempt + 1) (log ++ pause p attempt)
      else (.error e, log)

def retry : Middleware := fun next s log =>
  match m.retry with
  | none => next s (log ++ [.attempt])
  | some p => retryLoop p next s p.maxAttempts.toNat 0 log

def audit : Middleware := fun next s log =>
  if !m.audit then next s log
  else
    match next s log with
    | (.error e, log) => (.error e, log ++ [.audited .error none])
    | (.ok update, log) => (.ok update, log ++ [.audited .ok (some update)])

/-- `_sanitize_state`, on the messages from the last one on. -/
def sanitizeLast : List NodeMessage → List NodeMessage
  | [] => []
  | msg :: rest =>
    if msg.type = .human then { type := .human, content := host.sanitize msg.content } :: rest
    else msg :: sanitizeLast rest

def sanitizeState (s : NodeState) : NodeState :=
  { s with messages := (sanitizeLast host s.messages.reverse).reverse }

def toolPermissionMap : List (String × String) :=
  [("bash", "shell"), ("shell", "shell"), ("terminal", "shell"),
    ("write_file", "filesystem_write"), ("create_file", "filesystem_write"),
    ("delete_file", "filesystem_write"), ("read_file", "filesystem_read"),
    ("http_request", "network"), ("web_fetch", "network"), ("database_write", "database_write")]

/-- `_check_tool_calls`, on the names of the calls. -/
def checkCalls : List String → Except Raised Unit
  | [] => .ok ()
  | tool :: rest =>
    match toolPermissionMap.lookup tool with
    | none => checkCalls rest
    | some required =>
      match host.check required with
      | .error e => .error e
      | .ok granted =>
        if granted then checkCalls rest else .error (permissionDeniedError host tool required)

def checkToolCalls (update : NodeUpdate) : Except Raised Unit :=
  checkCalls host ((update.messages.getD []).flatMap NodeMessage.toolCalls)

def security : Middleware := fun next s log =>
  match m.security with
  | .off => next s log
  | .standard => next (sanitizeState host s) log
  | .strict =>
    match next (sanitizeState host s) log with
    | (.error e, log) => (.error e, log)
    | (.ok update, log) =>
      match checkToolCalls host update with
      | .error e => (.error e, log)
      | .ok () => (.ok update, log)

def logger : Middleware := fun next => next

def otel : Middleware := fun next => next

/-- `_error_update` -/
def errorUpdate (cause : Option (String × String)) (timeout : Bool) : NodeUpdate where
  error := some
    { node := m.name, type := (cause.getD ("NoneType", "None")).1,
      message := (cause.getD ("NoneType", "None")).2, timeout := timeout }

def mapError (e : Raised) : Except Raised NodeUpdate :=
  if e.isA "GraphInterrupt" then .error e
  else if !e.isA "Exception" then .error e
  else if m.propagateErrors && !e.isA "ParentCommand" then .error e
  else if e.isA "NodeTimeoutError" then
    if m.raiseOnError then .error e else .ok (errorUpdate m e.cause true)
  else if e.isA "NodeExecutionError" then
    if m.raiseOnError then .error e else .ok (errorUpdate m e.cause false)
  else if m.raiseOnError then .error (nodeExecutionError host m e)
  else .ok (errorUpdate m (some (e.className, e.text)) false)

def errorMapping : Middleware := fun next s log =>
  match next s log with
  | (.ok update, log) => (.ok update, log)
  | (.error e, log) => (mapError host m e, log)

def defaultMiddlewareStack : List Middleware :=
  [errorMapping host m, otel, logger, security host m, audit m, retry m, timeout host m,
    toolOutputBudget host st, hardening host st, nodeIoValidation host st m]

def buildPipeline (stack : List Middleware) (user : NodeFn) : NodeFn :=
  stack.foldr (fun mw next => mw next) user

def run (node : Nat → NodeState → Behaviour) (s : NodeState) : Except Raised NodeUpdate × NodeLog :=
  buildPipeline (defaultMiddlewareStack host st m) (userFn m node) s []

/-! What an attempt comes to. -/

inductive Ending where
  | returned (update : NodeUpdate)
  | raised (e : Raised)
  | expired (t : NodeTimeout)

def Ending.ofResult : Except Raised NodeUpdate → Ending
  | .ok update => .returned update
  | .error e => .raised e

def outputChecked (update : NodeUpdate) : Except Raised NodeUpdate :=
  if st.nodeTypesafetyEnabled && enforced st (ioErrors st m.outputModel update) then
    .error (nodeValidationError host m (ioErrors st m.outputModel update))
  else .ok update

def polished (update : NodeUpdate) : NodeUpdate :=
  let update :=
    if st.hardeningEnabled && st.hardeningPiiOutput then redactUpdateMessages host update
    else update
  if !st.outputBudget.enabled then update
  else { update with messages := update.messages.map (List.map (capMessage host st)) }

def refused (s : NodeState) : Bool :=
  st.nodeTypesafetyEnabled && enforced st (ioErrors st m.inputModel s)

def worked (b : Behaviour) : Except Raised NodeUpdate :=
  (b.result.bind (outputChecked host st m)).map (polished host st)

/-- What attempt `k` comes to, before a timeout is renamed. -/
def ending (node : Nat → NodeState → Behaviour) (s : NodeState) (k : Nat) : Ending :=
  match m.timeoutS with
  | none =>
    if refused st m s then .raised (nodeValidationError host m (ioErrors st m.inputModel s))
    else .ofResult (worked host st m (node k s))
  | some t =>
    if t.seconds ≤ 0 then .expired t
    else if refused st m s then .raised (nodeValidationError host m (ioErrors st m.inputModel s))
    else if (node k s).inTime then .ofResult (worked host st m (node k s))
    else .expired t

def renamed (e : Raised) : Raised := m.timeoutS.elim e fun t => renameTimeout host m t e

def Ending.result : Ending → Except Raised NodeUpdate
  | .returned update => .ok update
  | .raised e => .error (renamed host m e)
  | .expired t => .error (nodeTimeoutError host m t timeoutError)

/-- The events of attempt `k`. -/
def events (node : Nat → NodeState → Behaviour) (s : NodeState) (k : Nat) : NodeLog :=
  if (m.timeoutS.any fun t => decide (t.seconds ≤ 0)) || refused st m s then []
  else if late m (node k s) then [.invoked, .expired]
  else [.invoked]

def asks (e : Raised) : Bool := m.retry.any fun p => !e.isA "GraphInterrupt" && catches p e

def attemptLimit : Nat := m.retry.elim 1 fun p => p.maxAttempts.toNat

def Again (outcome : Nat → Except Raised NodeUpdate) (k : Nat) : Prop :=
  ∃ e, outcome k = .error e ∧ asks m e = true

def NodeEvent.record? : NodeEvent → Option (AuditStatus × Option NodeUpdate)
  | .audited status update => some (status, update)
  | _ => none

def records (log : NodeLog) : List (AuditStatus × Option NodeUpdate) :=
  log.filterMap NodeEvent.record?

/-- The log of a node that is not done: no record, and no more calls than attempts. -/
structure Quiet (log : NodeLog) : Prop where
  calls : log.count .invoked ≤ log.count .attempt
  unrecorded : records log = []

/-- The layers below the retry layer: attempt `k` has the outcome `k`, and calls the node once at
most. -/
def Tries (next : NodeFn) (s : NodeState) (outcome : Nat → Except Raised NodeUpdate) : Prop :=
  ∀ log : NodeLog, log.getLast? = some .attempt → ∃ more : NodeLog,
    next s log = (outcome (attemptNo log), log ++ more) ∧ more.count .attempt = 0 ∧
      more.count .invoked ≤ 1 ∧ records more = []

def received (s : NodeState) : NodeState :=
  if m.security = .off then s else sanitizeState host s

def screened (update : NodeUpdate) : Except Raised NodeUpdate :=
  if m.security = .strict then (checkToolCalls host update).map fun _ => update else .ok update

def delivered : Except Raised NodeUpdate → Except Raised NodeUpdate
  | .error e => mapError host m e
  | .ok update =>
    match screened host m update with
    | .error e => mapError host m e
    | .ok update => .ok update

def recorded : Except Raised NodeUpdate → NodeLog
  | .error _ => if m.audit then [.audited .error none] else []
  | .ok update => if m.audit then [.audited .ok (some update)] else []

variable {host st m} {node : Nat → NodeState → Behaviour} {s : NodeState} {log : NodeLog}

theorem nodeIoValidation_eq (next : NodeFn) (s : NodeState) (log : NodeLog) :
    nodeIoValidation host st m next s log =
      if refused st m s then (.error (nodeValidationError host m (ioErrors st m.inputModel s)), log)
      else ((next s log).1.bind (outputChecked host st m), (next s log).2) := by
  rw [nodeIoValidation, refused]
  cases hsafe : st.nodeTypesafetyEnabled with
  | false =>
    cases hnext : (next s log).1 with
    | error e => simp [← hnext, Except.bind]
    | ok update => simp [outputChecked, hsafe, Except.bind, ← hnext]
  | true =>
    cases hin : enforced st (ioErrors st m.inputModel s) with
    | true => simp [hin]
    | false =>
      obtain ⟨result, log'⟩ := next s log
      cases result with
      | error e => simp [hin, Except.bind]
      | ok update =>
        cases hout : enforced st (ioErrors st m.outputModel update) <;>
          simp [outputChecked, hsafe, hin, hout, Except.bind]

theorem output_stages_eq (next : NodeFn) (s : NodeState) (log : NodeLog) :
    toolOutputBudget host st (hardening host st next) s log =
      ((next s log).1.map (polished host st), (next s log).2) := by
  rw [toolOutputBudget, hardening]
  obtain ⟨result, log'⟩ := next s log
  cases result with
  | error e => rfl
  | ok update =>
    cases hbudget : st.outputBudget.enabled <;>
      cases hpii : st.hardeningEnabled && st.hardeningPiiOutput <;>
        simp [polished, hbudget, hpii, Except.map]

theorem result_ofResult (r : Except Raised NodeUpdate) :
    (Ending.ofResult r).result host m = r.mapError (renamed host m) := by
  cases r <;> rfl

theorem stages_eq (node : Nat → NodeState → Behaviour) (s : NodeState) (log : NodeLog) :
    toolOutputBudget host st (hardening host st (nodeIoValidation host st m (userFn m node))) s log =
      if refused st m s then (.error (nodeValidationError host m (ioErrors st m.inputModel s)), log)
      else if late m (node (attemptNo log) s) then
        (.error cancelledError, log ++ [.invoked, .expired])
      else (worked host st m (node (attemptNo log) s), log ++ [.invoked]) := by
  rw [output_stages_eq, nodeIoValidation_eq, userFn]
  cases refused st m s with
  | true => rfl
  | false =>
    cases late m (node (attemptNo log) s) with
    | true => rfl
    | false => rfl

theorem renamed_validation (errors : List String) :
    renamed host m (nodeValidationError host m errors) = nodeValidationError host m errors := by
  have hno : (nodeValidationError host m errors).isA "TimeoutError" = false := by
    simp [Raised.isA, nodeValidationError, nodeErrorClasses, exceptionBases]
  rw [renamed]
  cases m.timeoutS with
  | none => rfl
  | some t => simp [renameTimeout, hno]

theorem attempt_eq (hlog : log.getLast? = some .attempt) :
    timeout host m (toolOutputBudget host st (hardening host st (nodeIoValidation host st m
        (userFn m node)))) s log =
      ((ending host st m node s (attemptNo log)).result host m,
        log ++ events st m node s (attemptNo log)) := by
  have hvalid : renamed host m (nodeValidationError host m (ioErrors st m.inputModel s)) =
      nodeValidationError host m (ioErrors st m.inputModel s) := renamed_validation _
  rw [timeout, stages_eq, ending, events]
  cases hts : m.timeoutS with
  | none =>
    have hlate : late m (node (attemptNo log) s) = false := by
      rw [late, hts]
      rfl
    have hrenamed : renamed host m = id := by
      funext e
      rw [renamed, hts]
      rfl
    cases hrefused : refused st m s with
    | true => simp [Ending.result, hvalid]
    | false =>
      have hresult : (Ending.ofResult (worked host st m (node (attemptNo log) s))).result host m =
          (worked host st m (node (attemptNo log) s)).mapError (renamed host m) :=
        result_ofResult _
      rw [hrenamed] at hresult
      cases hworked : worked host st m (node (attemptNo log) s) <;>
        simp_all [Except.mapError]
  | some t =>
    have hrenamed : renamed host m = renameTimeout host m t := by
      funext e
      rw [renamed, hts]
      rfl
    by_cases hnow : t.seconds ≤ 0
    · simp [hnow, Ending.result]
    · cases hrefused : refused st m s with
      | true => simp [hnow, hlog, Ending.result, hvalid, ← hrenamed, Except.mapError]
      | false =>
        cases htime : (node (attemptNo log) s).inTime with
        | false => simp [hnow, late, hts, htime, Ending.result]
        | true => simp [hnow, late, htime, result_ofResult, hrenamed]

theorem events_quiet (node : Nat → NodeState → Behaviour) (s : NodeState) (k : Nat) :
    (events st m node s k).count .attempt = 0 ∧ (events st m node s k).count .invoked ≤ 1 ∧
      records (events st m node s k) = [] := by
  rw [events]
  split
  · decide
  · split <;> decide

theorem tries_attempt (node : Nat → NodeState → Behaviour) (s : NodeState) :
    Tries (timeout host m (toolOutputBudget host st (hardening host st (nodeIoValidation host st m
      (userFn m node))))) s fun k => (ending host st m node s k).result host m :=
  fun _ hlog => ⟨_, attempt_eq hlog, events_quiet node s _⟩

variable {next : NodeFn} {outcome : Nat → Except Raised NodeUpdate} {p : NodeRetryPolicy}

theorem pause_quiet (p : NodeRetryPolicy) (attempt : Nat) :
    (pause p attempt).count .attempt = 0 ∧ (pause p attempt).count .invoked = 0 ∧
      records (pause p attempt) = [] := by
  rw [pause]
  split
  · decide
  · split <;> simp [records, NodeEvent.record?]

theorem Tries.attempt (h : Tries next s outcome) (hlog : Quiet log)
    (hcount : log.count .attempt = k) : ∃ log', next s (log ++ [.attempt]) = (outcome k, log') ∧
      log'.count .attempt = k + 1 ∧ Quiet log' := by
  obtain ⟨more, hnext, hattempt, hinvoked, hrecords⟩ := h (log ++ [.attempt]) List.getLast?_concat
  have hno : attemptNo (log ++ [NodeEvent.attempt]) = k := by
    rw [attemptNo, List.count_append, hcount]
    rfl
  have hcalls := hlog.calls
  have hcount' : (log ++ [NodeEvent.attempt] ++ more).count .attempt = k + 1 := by
    rw [List.count_append, List.count_append, hcount, hattempt]
    rfl
  rw [hno] at hnext
  refine ⟨_, hnext, hcount', ?_, ?_⟩
  · rw [hcount', List.count_append, List.count_append]
    simp
    omega
  · have hunrecorded := hlog.unrecorded
    rw [records, List.filterMap_append, List.filterMap_append]
    rw [records] at hrecords hunrecorded
    rw [hrecords, hunrecorded]
    rfl

theorem Quiet.pause (h : Quiet log) (p : NodeRetryPolicy) (attempt : Nat) :
    Quiet (log ++ NodePipeline.pause p attempt) := by
  obtain ⟨hattempt, hinvoked, hrecords⟩ := pause_quiet p attempt
  have hunrecorded := h.unrecorded
  constructor
  · rw [List.count_append, List.count_append, hattempt, hinvoked]
    exact h.calls
  · rw [records, List.filterMap_append]
    rw [records] at hrecords hunrecorded
    rw [hrecords, hunrecorded]
    rfl

theorem retryLoop_ends (hp : m.retry = some p) (h : Tries next s outcome) (left k : Nat)
    (hlog : Quiet log) (hcount : log.count .attempt = k) (hbefore : ∀ j < k, Again m outcome j)
    (hleft : 0 < left) :
    ∃ n log', retryLoop p next s left k log = (outcome n, log') ∧
      Ends (Again m outcome) (k + left) n ∧ log'.count .attempt = n + 1 ∧ Quiet log' := by
  induction left generalizing k log with
  | zero => exact absurd hleft (Nat.lt_irrefl 0)
  | succ left ih =>
    obtain ⟨log', hnext, hcount', hlog'⟩ := h.attempt hlog hcount
    have hasks : ∀ e, asks m e = (!e.isA "GraphInterrupt" && catches p e) := by
      intro e
      rw [asks, hp]
      rfl
    rw [retryLoop, hnext]
    cases hout : outcome k with
    | ok update =>
      refine ⟨k, log', by rw [hout], ⟨by omega, hbefore, Or.inl ?_⟩, hcount', hlog'⟩
      rintro ⟨e, he, -⟩
      rw [hout] at he
      cases he
    | error e =>
      have hstop : asks m e = false → ¬ Again m outcome k := by
        rintro hno ⟨e', he', hyes⟩
        rw [hout] at he'
        cases he'
        rw [hno] at hyes
        cases hyes
      dsimp only
      cases hinterrupt : e.isA "GraphInterrupt" with
      | true =>
        refine ⟨k, log', by simp [hout], ⟨by omega, hbefore, Or.inl (hstop ?_)⟩, hcount', hlog'⟩
        rw [hasks, hinterrupt]
        rfl
      | false =>
        cases hcatches : catches p e with
        | false =>
          refine ⟨k, log', by simp [hout], ⟨by omega, hbefore, Or.inl (hstop ?_)⟩, hcount', hlog'⟩
          rw [hasks, hinterrupt, hcatches]
          rfl
        | true =>
          have hagain : Again m outcome k := ⟨e, hout, by rw [hasks, hinterrupt, hcatches]; rfl⟩
          cases left with
          | zero =>
            exact ⟨k, log', by simp [hout], ⟨by omega, hbefore, Or.inr rfl⟩, hcount', hlog'⟩
          | succ left =>
            have hpaused : (log' ++ pause p k).count .attempt = k + 1 := by
              rw [List.count_append, (pause_quiet p k).1, hcount']
            have hbefore' : ∀ j < k + 1, Again m outcome j := by
              intro j hj
              rcases Nat.lt_succ_iff_lt_or_eq.1 hj with hj | rfl
              · exact hbefore j hj
              · exact hagain
            obtain ⟨n, log'', hrun, hends, hrest⟩ :=
              ih (k + 1) (hlog'.pause p k) hpaused hbefore' (Nat.succ_pos left)
            refine ⟨n, log'', ?_, ?_, hrest⟩
            · simpa using hrun
            · rw [Nat.add_right_comm] at hends
              exact hends

theorem retry_ends (h : Tries next s outcome) (hlimit : 0 < attemptLimit m) :
    ∃ n log, retry m next s [] = (outcome n, log) ∧
      Ends (Again m outcome) (attemptLimit m) n ∧ log.count .attempt = n + 1 ∧ Quiet log := by
  have hquiet : Quiet [] := ⟨Nat.le_refl 0, rfl⟩
  rw [retry]
  cases hp : m.retry with
  | none =>
    obtain ⟨log, hnext, hcount, hlog⟩ := h.attempt hquiet rfl
    have hone : attemptLimit m = 1 := by
      rw [attemptLimit, hp]
      rfl
    rw [hone]
    exact ⟨0, log, hnext, ⟨Nat.one_pos, fun k hk => absurd hk (Nat.not_lt_zero k), Or.inr rfl⟩,
      hcount, hlog⟩
  | some p =>
    have hmax : attemptLimit m = p.maxAttempts.toNat := by
      rw [attemptLimit, hp]
      rfl
    rw [hmax] at hlimit ⊢
    have hends := retryLoop_ends hp h p.maxAttempts.toNat 0 hquiet rfl
      (fun j hj => absurd hj (Nat.not_lt_zero j)) hlimit
    rwa [Nat.zero_add] at hends

theorem audit_eq (next : NodeFn) (s : NodeState) (log : NodeLog) :
    audit m next s log = ((next s log).1, (next s log).2 ++ recorded m (next s log).1) := by
  rw [audit]
  obtain ⟨result, log'⟩ := next s log
  cases haudit : m.audit <;> cases result <;> simp [recorded, haudit]

theorem security_eq (next : NodeFn) (s : NodeState) (log : NodeLog) :
    errorMapping host m (otel (logger (security host m next))) s log =
      (delivered host m (next (received host m s) log).1, (next (received host m s) log).2) := by
  rw [errorMapping, otel, logger, security, received]
  cases hlevel : m.security with
  | off =>
    dsimp only
    rw [if_pos rfl]
    obtain ⟨result, log'⟩ := next s log
    cases result <;> simp [delivered, screened, hlevel]
  | standard =>
    dsimp only
    rw [if_neg (by decide)]
    obtain ⟨result, log'⟩ := next (sanitizeState host s) log
    cases result <;> simp [delivered, screened, hlevel]
  | strict =>
    dsimp only
    rw [if_neg (by decide)]
    obtain ⟨result, log'⟩ := next (sanitizeState host s) log
    cases result with
    | error e => rfl
    | ok update =>
      cases hcheck : checkToolCalls host update <;> simp [delivered, screened, hlevel, hcheck, Except.map]

theorem run_ends (host : NodeHost) (st : NodeSettings) (node : Nat → NodeState → Behaviour)
    (s : NodeState) (hlimit : 0 < attemptLimit m) :
    ∃ n log, Ends (Again m fun k => (ending host st m node (received host m s) k).result host m)
        (attemptLimit m) n ∧ log.count .attempt = n + 1 ∧ Quiet log ∧
      run host st m node s =
        (delivered host m ((ending host st m node (received host m s) n).result host m),
          log ++ recorded m ((ending host st m node (received host m s) n).result host m)) := by
  have htries : Tries (timeout host m (toolOutputBudget host st (hardening host st
      (nodeIoValidation host st m (userFn m node))))) (received host m s)
      fun k => (ending host st m node (received host m s) k).result host m :=
    tries_attempt node (received host m s)
  obtain ⟨n, log, hretry, hends, hcount, hlog⟩ := retry_ends htries hlimit
  refine ⟨n, log, hends, hcount, hlog, ?_⟩
  have hrun : run host st m node s =
      errorMapping host m (otel (logger (security host m (audit m (retry m (timeout host m
        (toolOutputBudget host st (hardening host st (nodeIoValidation host st m
          (userFn m node)))))))))) s [] := rfl
  rw [hrun, security_eq, audit_eq, hretry]

end NodePipeline

end Prismal.Agents
