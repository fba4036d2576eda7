import Prismal.A2A.Client
import Prismal.Security.PromptBuilder

namespace Prismal.A2A.Client
open Prismal.Lib
set_option autoImplicit true

/-! The answer of a remote agent as a stream of events, and the graph node that waits for it. -/

structure StreamResponse where
  task : Option TaskV1 := none
  message : Option MessageV1 := none
  statusUpdate : Option TaskState := none
  artifactUpdate : Option ArtifactV1 := none

inductive Stop where
  | closed
  | httpError (repr : Text)
  | raised (text : Text)

/-- A normal form of texts, as far as the sanitizer depends on it. -/
structure Nfkc where
  norm : String → String
  clean : ∀ s, (∀ c ∈ s.toList, Security.isControlChar c = false) →
    ∀ c ∈ (norm s).toList, Security.isControlChar c = false
  substring : ∀ s n, norm (String.ofList ((norm s).toList.take n)) =
    String.ofList ((norm s).toList.take n)

/-- The libraries that read an answer, and the answer of the peer. -/
structure Wire where
  loads : String → Option Json
  repr : Json → String
  validateArtifact : Json → Option A2AArtifact
  validateMessage : Json → Option A2AMessage
  validateStream : Json → Option StreamResponse
  nfkc : Nfkc
  events : List String
  stop : Stop

variable (w : World) (cfg : Config) (wire : Wire)

/-- `str(value)` -/
def Wire.str : Json → String
  | .str s => s
  | j => wire.repr j

abbrev Parsed := Except Text (List A2AArtifact × Bool)

def rpcError (error : Json) : Text :=
  unavailable w "remote" [.own "jsonrpc error: ", .peer (wire.str error)]

/-- The payload of a v1 event: an artifact, a state with the artifacts of its task, or a message. -/
inductive Payload where
  | artifact (a : ArtifactV1)
  | state (state : TaskState) (artifacts : List ArtifactV1)
  | message (m : MessageV1)

def StreamResponse.payload (event : StreamResponse) : Option Payload :=
  match event.artifactUpdate, event.statusUpdate, event.task, event.message with
  | some a, _, _, _ => some (.artifact a)
  | _, some state, _, _ => some (.state state [])
  | _, _, some task, _ => some (.state task.state (task.artifacts.getD []))
  | _, _, _, some m => some (.message m)
  | _, _, _, _ => none

def Payload.parsed : Payload → List A2AArtifact × Bool
  | .artifact a => ([artifactToInternal a], false)
  | .state x artifacts => (artifacts.map artifactToInternal, x.terminal)
  | .message m => ([⟨m.messageId, (messageToInternal m).parts⟩], true)

def v1Payload (data : String) : Option Payload :=
  match (wire.loads data).bind fun obj => Json.get? obj "result" with
  | some (.object fields) =>
    (wire.validateStream (.object fields)).bind StreamResponse.payload
  | _ => none

def errorOf (data : String) : Option Json := (wire.loads data).bind fun obj => Json.get? obj "error"

/-- `_parse_v1_event` -/
def parseV1Event (data : String) : Parsed :=
  match errorOf wire data with
  | some error => .error (rpcError w wire error)
  | none => .ok (((v1Payload wire data).map Payload.parsed).getD ([], false))

/-- `obj.get("result", obj)`, where it is an object. -/
def legacyResult (data : String) : Option (List (String × Json)) :=
  match wire.loads data with
  | some (.object fields) =>
    match (fields.lookup "result").getD (.object fields) with
    | .object result => some result
    | _ => none
  | _ => none

def terminalStatuses : List String := ["completed", "failed", "canceled"]

def legacyArtifact (result : List (String × Json)) : Option A2AArtifact :=
  match (result.lookup "artifact").getD (.object result) with
  | .object raw =>
    if (raw.lookup "artifactId").isSome || (raw.lookup "parts").isSome then
      wire.validateArtifact (.object raw)
    else none
  | _ => none

def unhashable (type : String) : Parsed := .error [.own "unhashable type: ", .peer type]

/-- `_parse_event` -/
def parseEvent (data : String) : Parsed :=
  match errorOf wire data with
  | some error => .error (rpcError w wire error)
  | none =>
    match legacyResult wire data with
    | none => .ok ([], false)
    | some result =>
      match result.lookup "status" with
      | some (.object _) => unhashable "'dict'"
      | some (.list _) => unhashable "'list'"
      | some (.str status) =>
        if status ∈ terminalStatuses then .ok ([], true)
        else .ok ((legacyArtifact wire result).toList, false)
      | _ => .ok ((legacyArtifact wire result).toList, false)

def parse : Version → String → Parsed
  | .v03 => parseEvent w wire
  | .v1 => parseV1Event w wire

def Stop.result (stop : Stop) : Except Text (List A2AArtifact) :=
  match stop with
  | .closed => .ok []
  | .httpError repr => .error (unavailable w cfg.cardUrl (.own "send_task failed: " :: repr))
  | .raised text => .error text

def consume (parse : String → Parsed) (stop : Except Text (List A2AArtifact)) :
    List String → Except Text (List A2AArtifact)
  | [] => stop
  | data :: events =>
    match parse data with
    | .error text => .error text
    | .ok (artifacts, true) => .ok artifacts
    | .ok (artifacts, false) => (consume parse stop events).map (artifacts ++ ·)

def openTask : M Version := do
  let card ← ensureCard w cfg
  let version := (← get).version.getD .v03
  openRpc w cfg card
  return version

/-- `send_task`, with all that it yields. -/
def streamTask : M (List A2AArtifact) := do
  let version ← openTask w cfg
  raiseOr (consume (parse w wire version) (wire.stop.result w cfg) wire.events)

/-! The node. -/

inductive AuditStatus where
  | completed
  | failed
  deriving DecidableEq

/-- The update of the state: the message and `metadata.a2a`, with the entry in the audit log. -/
structure Update where
  content : Text
  error : Bool
  artifacts : Option Nat
  audit : AuditStatus

def artifactTexts (artifacts : List A2AArtifact) : List String :=
  (artifacts.flatMap A2AArtifact.parts).filterMap fun part =>
    if part.kind = .text then part.text.filter (· ≠ "") else none

def Wire.sanitize (text : String) : String := Security.sanitize wire.nfkc.norm text

def answerText (texts : List String) : Text :=
  if texts = [] then [.own ""] else [.peer (wire.sanitize ("\n".intercalate texts))]

def failureText (exc : Text) : Text := .own "[a2a] remote agent unavailable: " :: exc

def failed (exc : Text) : Update := ⟨failureText exc, true, none, .failed⟩

def succeeded (artifacts : List A2AArtifact) : Update :=
  ⟨answerText wire (artifactTexts artifacts), false, some artifacts.length, .completed⟩

/-- `A2AAgentNode.ainvoke` on a client in some state. -/
def ainvoke (s : State) : Update :=
  match streamTask w cfg wire s with
  | .ok artifacts _ => succeeded wire artifacts
  | .error exc _ => failed exc

/-! What the events say. -/

inductive Ending where
  | completed
  | message
  | unsuccessful
  deriving DecidableEq

def Ending.good : Ending → Bool
  | .completed | .message => true
  | .unsuccessful => false

def stateEnd : TaskState → Option Ending
  | .completed => some .completed
  | .failed | .canceled | .rejected => some .unsuccessful
  | _ => none

def v1End (data : String) : Option Ending :=
  (v1Payload wire data).bind fun payload =>
    match payload with
    | .artifact _ => none
    | .state x _ => stateEnd x
    | .message _ => some .message

def statusEnd : Option Json → Option Ending
  | some (.str "completed") => some .completed
  | some (.str "failed") | some (.str "canceled") | some (.str "rejected") => some .unsuccessful
  | _ => none

def legacyEnd (data : String) : Option Ending :=
  (legacyResult wire data).bind fun result =>
    (statusEnd (result.lookup "status")).or
      ((wire.validateMessage (.object result)).map fun _ => .message)

def endOf : Version → String → Option Ending
  | .v03 => legacyEnd wire
  | .v1 => v1End wire

def ending (version : Version) : Option Ending :=
  (wire.events.filterMap (endOf wire version)).head?

def Delivered (s : State) : Prop :=
  ∃ version t, openTask w cfg s = .ok version t ∧ (ending wire version).any Ending.good = true

/-- The update reports a success only of a task that was delivered, and a failure of any other. -/
structure Honest (s : State) (u : Update) : Prop where
  success : u.error = false ∨ u.audit = .completed → Delivered w cfg wire s
  failure : ¬Delivered w cfg wire s → u.error = true ∧ u.audit = .failed

def leaves : Parsed → Bool
  | .ok (_, false) => false
  | _ => true

def raisesParse : Parsed → Bool
  | .error _ => true
  | .ok _ => false

/-- The stream is left with an exception: at an event that raises, or behind all events where the
connection breaks. -/
def Broken (version : Version) : Prop :=
  match wire.events.find? fun data => leaves (parse w wire version data) with
  | some data => raisesParse (parse w wire version data) = true
  | none => wire.stop ≠ .closed

variable {w : World} {cfg : Config} {wire : Wire}

theorem consume_error (parse : String → Parsed) (stop : Except Text (List A2AArtifact))
    (events : List String) :
    (∃ text, consume parse stop events = .error text) ↔
      match events.find? fun data => leaves (parse data) with
      | some data => raisesParse (parse data) = true
      | none => ∃ text, stop = .error text := by
  induction events with
  | nil => exact Iff.rfl
  | cons data events ih =>
    rw [consume, List.find?_cons]
    cases hparse : parse data with
    | error text =>
      simp only [leaves, hparse, raisesParse]
      exact ⟨fun _ => trivial, fun _ => ⟨text, rfl⟩⟩
    | ok parsed =>
      obtain ⟨artifacts, last⟩ := parsed
      cases last with
      | true =>
        simp only [leaves, hparse, raisesParse]
        constructor
        · intro ⟨text, h⟩
          cases h
        · intro h
          cases h
      | false =>
        have hon : leaves (.ok (artifacts, false)) = false := rfl
        rw [hon, ← ih]
        cases consume parse stop events with
        | error text => exact ⟨fun _ => ⟨text, rfl⟩, fun _ => ⟨text, rfl⟩⟩
        | ok rest =>
          constructor
          · intro ⟨text, h⟩
            cases h
          · intro ⟨text, h⟩
            cases h

theorem stop_result_error (stop : Stop) :
    (∃ text, stop.result w cfg = .error text) ↔ stop ≠ .closed := by
  cases stop with
  | closed =>
    constructor
    · intro ⟨text, h⟩
      cases h
    · intro h
      exact absurd rfl h
  | httpError repr => exact ⟨fun _ h => (by cases h), fun _ => ⟨_, rfl⟩⟩
  | raised text => exact ⟨fun _ h => (by cases h), fun _ => ⟨text, rfl⟩⟩

theorem broken_iff (cfg : Config) (version : Version) :
    Broken w wire version ↔ ∃ text, consume (parse w wire version) (wire.stop.result w cfg)
      wire.events = .error text := by
  rw [consume_error, Broken]
  split
  · exact Iff.rfl
  · exact (stop_result_error wire.stop).symm

theorem ainvoke_error (wire : Wire) (h : openTask w cfg s = .ok version t) :
    ((ainvoke w cfg wire s).error = true ↔ Broken w wire version) ∧
      ((ainvoke w cfg wire s).audit = .failed ↔ Broken w wire version) := by
  have hbind : streamTask w cfg wire s =
      raiseOr (consume (parse w wire version) (wire.stop.result w cfg) wire.events) t :=
    bind_of_ok h
  rw [ainvoke, hbind, broken_iff cfg]
  cases consume (parse w wire version) (wire.stop.result w cfg) wire.events with
  | error text =>
    exact ⟨⟨fun _ => ⟨text, rfl⟩, fun _ => rfl⟩, ⟨fun _ => ⟨text, rfl⟩, fun _ => rfl⟩⟩
  | ok artifacts =>
    constructor
    · constructor
      · intro h
        cases h
      · intro ⟨text, h⟩
        cases h
    · constructor
      · intro h
        cases h
      · intro ⟨text, h⟩
        cases h

theorem ainvoke_unopened (h : openTask w cfg s = .error exc t) :
    ainvoke w cfg wire s = failed exc := by
  have hbind : streamTask w cfg wire s = .error exc t := bind_of_error h
  rw [ainvoke, hbind]

/-- A delegation is reported honestly exactly when the request fails, the stream breaks, or its first
end is a good one: any other stream, cut off or ended badly, is reported as a success. -/
theorem ainvoke_honest (w : World) (cfg : Config) (wire : Wire) (s : State) :
    Honest w cfg wire s (ainvoke w cfg wire s) ↔
      ∀ version t, openTask w cfg s = .ok version t →
        Broken w wire version ∨ (ending wire version).any Ending.good = true := by
  constructor
  · intro h version t hopen
    by_cases hbroken : Broken w wire version
    · exact .inl hbroken
    · right
      have herror : (ainvoke w cfg wire s).error = false :=
        Bool.eq_false_iff.2 fun h => hbroken ((ainvoke_error wire hopen).1.1 h)
      obtain ⟨version', t', hopen', hgood⟩ := h.success (.inl herror)
      cases hopen.symm.trans hopen'
      exact hgood
  · intro h
    cases hopen : openTask w cfg s with
    | error exc t =>
      rw [ainvoke_unopened hopen]
      refine ⟨?_, fun _ => ⟨rfl, rfl⟩⟩
      intro hs
      cases hs with
      | inl hs => cases hs
      | inr hs => cases hs
    | ok version t =>
      obtain ⟨herror, haudit⟩ := ainvoke_error wire hopen
      cases h version t hopen with
      | inl hbroken =>
        refine ⟨?_, fun _ => ⟨herror.2 hbroken, haudit.2 hbroken⟩⟩
        intro hs
        cases hs with
        | inl hs =>
          rw [herror.2 hbroken] at hs
          cases hs
        | inr hs =>
          rw [haudit.2 hbroken] at hs
          cases hs
      | inr hgood =>
        have hdelivered : Delivered w cfg wire s := ⟨version, t, hopen, hgood⟩
        exact ⟨fun _ => hdelivered, fun hn => absurd hdelivered hn⟩

def wireOf (table : List (String × Json)) (events : List String) : Wire where
  loads data := table.lookup data
  repr _ := ""
  validateArtifact _ := none
  validateMessage _ := none
  validateStream _ := none
  nfkc := ⟨fun s => s, fun _ h => h, fun _ _ => rfl⟩
  events := events
  stop := .closed

def agent : World where
  urlparse _ := .error ""
  ipAddress _ := none
  lower s := s
  repr s := s
  validate _ := .ok ⟨"a", "0.3"⟩
  validateV1 _ := .error []
  selectOauthFlow _ := .ok false
  fetch _ := .card .null
  token _ := .error []
  accessToken _ := .error []
  answer _ := .ok ()

def failedTask : Wire := wireOf [("e", .object [("status", .str "failed")])] ["e"]

/-- A task that ends failed is reported as completed. -/
theorem failed_reported_completed :
    ¬Honest agent { cardUrl := "a" } failedTask {}
      (ainvoke agent { cardUrl := "a" } failedTask {}) := by
  intro h
  obtain ⟨version, t, -, hgood⟩ := h.success (.inl rfl)
  cases version with
  | v03 => exact absurd hgood (by decide)
  | v1 => exact absurd hgood (by decide)

/-! What of the update comes from the peer. -/

def Sanitized (wire : Wire) (u : Update) : Prop :=
  u.content.fromPeer = true → ∃ raw, u.content.str = wire.sanitize raw

/-- A text that the sanitizer gives back: without the control characters that it strips, within its
limit and in its normal form. -/
structure Clean (wire : Wire) (text : String) : Prop where
  control : ∀ c ∈ text.toList, Security.isControlChar c = false
  length : text.toList.length ≤ Security.maxInputLength
  normal : wire.nfkc.norm text = text

theorem stripControlChars_clean (text : String) :
    ∀ c ∈ (Security.stripControlChars text).toList, Security.isControlChar c = false := by
  intro c hc
  rw [Security.stripControlChars, String.toList_ofList, List.mem_filter, Bool.not_eq_true'] at hc
  exact hc.2

theorem clean_sanitize (wire : Wire) (raw : String) : Clean wire (wire.sanitize raw) := by
  have hlist : (wire.sanitize raw).toList =
      (wire.nfkc.norm (Security.stripControlChars raw)).toList.take Security.maxInputLength :=
    String.toList_ofList
  constructor
  · intro c hc
    rw [hlist] at hc
    exact wire.nfkc.clean _ (stripControlChars_clean raw) c (List.mem_of_mem_take hc)
  · rw [hlist]
    exact List.length_take_le _ _
  · exact wire.nfkc.substring _ _

theorem sanitize_of_clean (h : Clean wire text) : wire.sanitize text = text := by
  have hstrip : Security.stripControlChars text = text := by
    rw [Security.stripControlChars, List.filter_eq_self.2, String.ofList_toList]
    intro c hc
    rw [h.control c hc]
    rfl
  rw [Wire.sanitize, Security.sanitize, hstrip, h.normal, Security.enforceLengthLimit,
    List.take_of_length_le h.length, String.ofList_toList]

theorem clean_iff : Clean wire text ↔ ∃ raw, text = wire.sanitize raw := by
  constructor
  · intro h
    exact ⟨text, (sanitize_of_clean h).symm⟩
  · intro ⟨raw, h⟩
    exact h ▸ clean_sanitize wire raw

theorem sanitized_succeeded (artifacts : List A2AArtifact) :
    Sanitized wire (succeeded wire artifacts) := by
  intro hpeer
  rw [succeeded, answerText] at hpeer ⊢
  split
  next hnone =>
    rw [if_pos hnone] at hpeer
    cases hpeer
  · exact ⟨_, String.empty_append⟩

def escapeError : Wire :=
  wireOf [("e", .object [("error", .str (String.ofList [Char.ofNat 27]))])] ["e"]

end Prismal.A2A.Client
