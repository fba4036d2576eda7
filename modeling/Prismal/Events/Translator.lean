import Mathlib.Data.Finset.Image
import Prismal.Events.Value

namespace Prismal.Events
open Prismal.Lib
set_option autoImplicit true

/-- The identity of the node that streams a message: `None` for an anonymous root node. -/
abbrev Owner := Option String

structure TokenUsage where
  provider : String
  model : String
  inputTokens : Int
  outputTokens : Int
  totalTokens : Int
  reasoningTokens : Int
  cachedInputTokens : Int
  cacheWriteInputTokens : Int

/-- The 12-key usage wire object of a finished run. -/
structure UsageWire where
  promptTokens : Int
  completionTokens : Int
  cacheReadTokens : Int
  cacheWriteTokens : Int
  reasoningTokens : Int
  totalTokens : Int
  calls : Int
  costUsd : Rat
  costSource : String
  estimated : Bool
  servedModel : Option String
  gateway : Option String

structure Interrupt where
  id : String
  reason : String
  message : Option String
  toolCallId : Option String
  value : Py

inductive Outcome where
  | success
  | interrupt (interrupts : List Interrupt)

/-- The AG-UI events the translator emits, without their timestamps. -/
inductive Event where
  | runStarted (threadId runId : String) (parentRunId : Option String) (input : Option Py)
  | runFinished (threadId runId : String) (result : Option Py) (outcome : Outcome)
      (usage : Option (List TokenUsage))
  | runError (message code : String) (usage : Option (List TokenUsage))
  | stepStarted (stepName : String)
  | stepFinished (stepName : String)
  | textMessageStart (messageId : String)
  | textMessageContent (messageId delta : String)
  | textMessageEnd (messageId : String)
  | toolCallStart (toolCallId toolCallName parentMessageId : String)
  | toolCallArgs (toolCallId delta : String)
  | toolCallEnd (toolCallId : String)
  | toolCallResult (messageId toolCallId content : String)
  | stateSnapshot (snapshot : Dict String Py)
  | stateDelta (delta : List PatchOp)
  | subagentStarted (subagentRunId name : String) (description parentSubagentRunId
      parentToolCallId parentMessageId : Option String)
  | subagentFinished (subagentRunId : String) (result : Option Py)
  | subagentError (subagentRunId message : String) (code : Option String)
  | raw (mode payloadType : String) (payload : List (Key × Py)) (source : String)
  | custom (name : String) (value : Py)
  | usage (wire : UsageWire)

structure AgUiContext where
  runId : String
  threadId : String
  includeStateDeltas : Bool := true
  includeUsage : Bool := true
  includeMetadata : Bool := true
  parentRunId : Option String := none
  stateKeys : List String := defaultStateKeys
  openMessages : Dict String Owner := ∅
  openText : Finset String := ∅
  openToolCalls : Dict String String := ∅
  activeSubagents : Dict String String := ∅
  interrupts : List Interrupt := []
  lastState : Option (Dict String Py) := none
  lastMetadata : Dict String (Option Py) := ∅
  toolIndex : Dict (String × Option Int) String := ∅
  anonIds : Dict Owner String := ∅
  seq : Nat := 0

abbrev Tr := EStateM PyError AgUiContext

def liftPy (x : Except PyError α) : Tr α := fun ctx =>
  match x with
  | .ok a => .ok a ctx
  | .error e => .error e ctx

/-- `json_safe` of an optional value. -/
def safeOption : Option Py → Tr (Option Py)
  | none => pure none
  | some v => do
    let safe ← liftPy (jsonSafe v)
    pure (some safe)

/-- The id the next call of `next_id` returns. -/
def AgUiContext.freshId (ctx : AgUiContext) (kind : String) : String :=
  ctx.runId ++ "-" ++ kind ++ "-" ++ toString (ctx.seq + 1)

def nextId (kind : String) : Tr String := fun ctx =>
  .ok (ctx.freshId kind) { ctx with seq := ctx.seq + 1 }

structure ToolCallChunk where
  id : Option String
  name : Option String
  args : Option String
  index : Option Int

structure ToolCall where
  id : Option String
  name : String
  args : Py

/-- A LangChain message: a streamed or full AI message, a tool result, or an input message. -/
inductive Message where
  | aiChunk (id : Option String) (content : Py) (toolCallChunks : List ToolCallChunk)
      (chunkPosition : Option String) (finishReason : Py)
  | ai (id : Option String) (content : Py) (toolCalls : List ToolCall)
  | tool (id : Option String) (toolCallId : String) (content : Py)
  | input

/-- A stream payload: a `(message, metadata)` pair in a list or tuple, or any other object. -/
inductive Payload where
  | message (container : String) (msg : Message) (metadata : Py)
  | data (value : Py)

/-- One `astream` item: `(mode, payload)`, `(namespace, mode, payload)`, or another object. -/
inductive Chunk where
  | pair (mode : String) (payload : Payload)
  | triple (ns : List String) (mode : String) (payload : Payload)
  | other (value : Py)

/-- `id` when it is a non-empty string. -/
def nonEmpty (s : Option String) : Option String := s.filter (· ≠ "")

def raw (mode : String) (payload : Payload) (source : String) : Tr (List Event) :=
  match payload with
  | .message container _ _ => pure [.raw mode container [] source]
  | .data value => do
    if mode = "custom" then
      let sanitized ← liftPy (sanitizeMetadata value)
      return [.raw mode value.typeName sanitized source]
    else return [.raw mode value.typeName [] source]

def owner (ns : List String) (node : Option String) : Owner :=
  if ns.isEmpty then node else some ("|".intercalate (ns ++ [node.getD ""]))

def AgUiContext.toolCallsOf (ctx : AgUiContext) (mid : String) : List String :=
  (ctx.openToolCalls.filter fun e => decide (e.2 = mid)).keys

def closeMessage (ctx : AgUiContext) (mid : String) : List Event × AgUiContext :=
  let own := (ctx.openMessages.get? mid).join
  ((if mid ∈ ctx.openText then [Event.textMessageEnd mid] else []) ++
      (ctx.toolCallsOf mid).map Event.toolCallEnd,
    { ctx with
      openText := ctx.openText.erase mid
      openToolCalls := ctx.openToolCalls.filter fun e => !decide (e.2 = mid)
      openMessages := ctx.openMessages.erase mid
      anonIds := if ctx.anonIds.get? own = some mid then ctx.anonIds.erase own else ctx.anonIds
      toolIndex := ctx.toolIndex.filter fun e => !decide (e.1.1 = mid) })

def closeMessages (ctx : AgUiContext) : List String → List Event × AgUiContext
  | [] => ([], ctx)
  | mid :: mids =>
    let first := closeMessage ctx mid
    let rest := closeMessages first.2 mids
    (first.1 ++ rest.1, rest.2)

def AgUiContext.messagesOf (ctx : AgUiContext) (own : Owner) (keep : Option String) :
    List String :=
  (ctx.openMessages.filter fun e => decide (e.2 = own ∧ some e.1 ≠ keep)).keys

def closeOwner (ctx : AgUiContext) (own : Owner) (keep : Option String := none) :
    List Event × AgUiContext :=
  closeMessages ctx (ctx.messagesOf own keep)

def incomplete (sid : String) : Event :=
  .subagentError sid "sub-agent did not finish before the run ended" (some "subagent_incomplete")

def closeAll (ctx : AgUiContext) : List Event × AgUiContext :=
  let closed := closeMessages ctx ctx.openMessages.keys
  (closed.1 ++ closed.2.openToolCalls.keys.map Event.toolCallEnd ++
      closed.2.activeSubagents.keys.map incomplete,
    { closed.2 with openToolCalls := ∅, activeSubagents := ∅ })

def textOfBlock : Py → String
  | .str s => s
  | .dict es =>
    match Dict.lookup (.str "type") es, Dict.lookup (.str "text") es with
    | some (.str "text"), some (.str t) => t
    | _, _ => ""
  | _ => ""

def textOf : Py → String
  | .str s => s
  | .list blocks => String.join (blocks.map textOfBlock)
  | _ => ""

def messageId (id : Option String) (own : Owner) : Tr String := fun ctx =>
  match nonEmpty id with
  | some mid => .ok mid ctx
  | none =>
    match ctx.anonIds.get? own with
    | some mid => .ok mid ctx
    | none =>
      let mid := ctx.freshId "msg"
      .ok mid { ctx with seq := ctx.seq + 1, anonIds := ctx.anonIds.set own mid }

def openMessage (ctx : AgUiContext) (mid : String) (own : Owner) : List Event × AgUiContext :=
  if mid ∈ ctx.openMessages then ([], ctx)
  else
    let closed := closeOwner ctx own
    (closed.1, { closed.2 with openMessages := closed.2.openMessages.set mid own })

def startTool (ctx : AgUiContext) (mid cid name args : String) : List Event × AgUiContext :=
  (.toolCallStart cid name mid :: if args = "" then [] else [.toolCallArgs cid args],
    { ctx with openToolCalls := ctx.openToolCalls.set cid mid })

def textChunk (ctx : AgUiContext) (mid text : String) : List Event × AgUiContext :=
  if text = "" then ([], ctx)
  else if mid ∈ ctx.openText then ([.textMessageContent mid text], ctx)
  else ([.textMessageStart mid, .textMessageContent mid text],
    { ctx with openText := insert mid ctx.openText })

/-- One entry of `tool_call_chunks`. -/
def toolChunk (ctx : AgUiContext) (mid : String) (tc : ToolCallChunk) :
    List Event × AgUiContext :=
  let args := tc.args.getD ""
  let name := (nonEmpty tc.name).getD "unknown"
  match (nonEmpty tc.id).orElse fun _ => ctx.toolIndex.get? (mid, tc.index) with
  | none =>
    let cid := ctx.freshId "tool"
    startTool { ctx with seq := ctx.seq + 1, toolIndex := ctx.toolIndex.set (mid, tc.index) cid }
      mid cid name args
  | some cid =>
    if cid ∈ ctx.openToolCalls then
      (if args = "" then [] else [.toolCallArgs cid args], ctx)
    else startTool { ctx with toolIndex := ctx.toolIndex.set (mid, tc.index) cid } mid cid name args

def toolChunks (ctx : AgUiContext) (mid : String) : List ToolCallChunk → List Event × AgUiContext
  | [] => ([], ctx)
  | tc :: tcs =>
    let first := toolChunk ctx mid tc
    let rest := toolChunks first.2 mid tcs
    (first.1 ++ rest.1, rest.2)

def emit (f : AgUiContext → List Event × AgUiContext) : Tr (List Event) := fun ctx =>
  .ok (f ctx).1 (f ctx).2

def finished (chunkPosition : Option String) (finishReason : Py) : Except PyError Bool :=
  if chunkPosition = some "last" then .ok true else finishReason.truthy

def aiChunk (own : Owner) (id : Option String) (content : Py) (tcs : List ToolCallChunk)
    (chunkPosition : Option String) (finishReason : Py) : Tr (List Event) := do
  let mid ← messageId id own
  let opened ← emit fun ctx => openMessage ctx mid own
  let text ← emit fun ctx => textChunk ctx mid (textOf content)
  let tools ← emit fun ctx => toolChunks ctx mid tcs
  let last ← liftPy (finished chunkPosition finishReason)
  let closed ← emit fun ctx => if last then closeMessage ctx mid else ([], ctx)
  return opened ++ text ++ tools ++ closed

def fullText (ctx : AgUiContext) (mid text : String) : List Event × AgUiContext :=
  if mid ∈ ctx.openText then
    ([.textMessageEnd mid], { ctx with openText := ctx.openText.erase mid })
  else if text = "" then ([], ctx)
  else ([.textMessageStart mid, .textMessageContent mid text, .textMessageEnd mid], ctx)

def fullTool (ctx : AgUiContext) (mid cid name args : String) : List Event × AgUiContext :=
  let started := startTool ctx mid cid name args
  (started.1 ++ [.toolCallEnd cid],
    { started.2 with openToolCalls := started.2.openToolCalls.erase cid })

def toolCallId (id : Option String) : Tr String :=
  match nonEmpty id with
  | some cid => pure cid
  | none => nextId "tool"

def aiTools (mid : String) : List ToolCall → Tr (List Event)
  | [] => pure []
  | tc :: tcs => do
    let cid ← toolCallId tc.id
    if cid ∈ (← get).openToolCalls then aiTools mid tcs
    else
      let args ← liftPy (jsonSafe tc.args)
      let name := if tc.name = "" then "unknown" else tc.name
      let first ← emit fun ctx => fullTool ctx mid cid name (jsonDumps args)
      let rest ← aiTools mid tcs
      return first ++ rest

def aiMessage (own : Owner) (id : Option String) (content : Py) (tcs : List ToolCall) :
    Tr (List Event) := do
  let mid ← messageId id own
  let opened ← emit fun ctx => openMessage ctx mid own
  let text ← emit fun ctx => fullText ctx mid (textOf content)
  let tools ← aiTools mid tcs
  let closed ← emit fun ctx => closeMessage ctx mid
  return opened ++ text ++ tools ++ closed

def closeTool (ctx : AgUiContext) (cid : String) : List Event × AgUiContext :=
  if cid ∈ ctx.openToolCalls then
    ([.toolCallEnd cid], { ctx with openToolCalls := ctx.openToolCalls.erase cid })
  else ([], ctx)

def toolText : Py → Except PyError String
  | .str s => .ok s
  | v => do return jsonDumps (← jsonSafe v)

def resultId (id : Option String) : Tr String :=
  match nonEmpty id with
  | some mid => pure mid
  | none => nextId "msg"

def toolMessage (id : Option String) (cid : String) (content : Py) : Tr (List Event) := do
  let closed ← emit fun ctx => closeTool ctx cid
  let text ← liftPy (toolText content)
  let mid ← resultId id
  return closed ++ [.toolCallResult mid cid text]

/-- The node a `messages` chunk names in its metadata. -/
def langgraphNode (metadata : Py) : Except PyError (Option String) :=
  if metadata.isMapping then do return (← metadata.get "langgraph_node").bind Py.asStr
  else .ok none

def messages (ns : List String) : Payload → Tr (Option (List Event))
  | .data (.list [_, metadata]) | .data (.tuple [_, metadata]) => do
    -- the pair is read before its first member turns out not to be a message
    let _ ← liftPy (langgraphNode metadata)
    return none
  | .data _ => pure none
  | .message _ msg metadata => do
    let node ← liftPy (langgraphNode metadata)
    let own := owner ns node
    match msg with
    | .aiChunk id content tcs pos fin => do return some (← aiChunk own id content tcs pos fin)
    | .ai id content tcs => do return some (← aiMessage own id content tcs)
    | .tool id cid content => do return some (← toolMessage id cid content)
    | .input => return some []

def firstTruthy (a b : Option Py) : Except PyError (Option Py) :=
  match a with
  | none => .ok b
  | some v => do return if ← v.truthy then some v else b

def interruptOf (iid : String) (value : Py) : Except PyError Interrupt := do
  let value' ← jsonSafe value
  match value with
  | .str s => return ⟨iid, "human_approval", some s, none, value'⟩
  | v =>
    if v.isMapping then
      let reason := ((← v.get "reason").bind Py.asStr).bind fun r => nonEmpty (some r)
      let message ← firstTruthy (← v.get "message") (← v.get "question")
      let call ← v.get "tool_call_id"
      return ⟨iid, reason.getD "human_approval", message.bind Py.asStr, call.bind Py.asStr, value'⟩
    else return ⟨iid, "human_approval", none, none, value'⟩

def recordInterrupt (item : Py) : Tr Unit := do
  let (value, id) := match item with
    | .interrupt v i => (v, i.asStr)
    | v => (v, none)
  let iid ← match nonEmpty id with
    | some i => pure i
    | none => nextId "interrupt"
  let entry ← liftPy (interruptOf iid value)
  modify fun ctx => { ctx with interrupts := ctx.interrupts ++ [entry] }

def recordInterrupts : List Py → Tr Unit
  | [] => pure ()
  | item :: items => do
    recordInterrupt item
    recordInterrupts items

def interruptItems : Py → List Py
  | .list xs | .tuple xs => xs
  | v => [v]

/-- Metadata keys that travel on a `CUSTOM` channel of their own. -/
def metadataCustom : List (String × String) :=
  [("routing", "prismal.routing"), ("decision", "prismal.decision")]

def rememberKeys (md : Py) : List (String × String) → Tr Unit
  | [] => pure ()
  | (key, _) :: rest => do
    match ← liftPy (md.get key) with
    | none => pure ()
    | some v =>
      let seen ← liftPy (jsonValue v)
      modify fun ctx => { ctx with lastMetadata := ctx.lastMetadata.set key seen }
    rememberKeys md rest

def rememberMetadata (state : Py) : Tr Unit := do
  match ← liftPy (state.get "metadata") with
  | none => pure ()
  | some md => if md.isMapping then rememberKeys md metadataCustom else pure ()

def sameAsLast (last : Option (Option Py)) (value : Py) : Bool :=
  match last with
  | some (some w) => w.eq value
  | _ => false

def metadataKey (md : Py) (key name : String) : Tr (List Event) := do
  match ← liftPy (md.get key) with
  | none => return []
  | some v =>
    match ← liftPy (jsonValue v) with
    | none => return []
    | some value =>
      let ctx ← get
      if sameAsLast (ctx.lastMetadata.get? key) value then return []
      else
        set { ctx with lastMetadata := ctx.lastMetadata.set key (some value) }
        return if ctx.includeMetadata then [.custom name value] else []

def metadataKeys (md : Py) : List (String × String) → Tr (List Event)
  | [] => pure []
  | (key, name) :: rest => do
    let first ← metadataKey md key name
    let more ← metadataKeys md rest
    return first ++ more

def metadataCustoms (update : Py) : Tr (List Event) := do
  match ← liftPy (update.get "metadata") with
  | none => return []
  | some md => if md.isMapping then metadataKeys md metadataCustom else return []

def overlay (stateKeys : List String) (part : Dict String Py) :
    List (Key × Py) → Dict String Py → Dict String Py
  | [], acc => acc
  | (.str key, _) :: es, acc =>
    if key ∈ stateKeys then
      match part.get? key with
      | some w => overlay stateKeys part es (acc.set key w)
      | none => overlay stateKeys part es (acc.erase key)
    else overlay stateKeys part es acc
  | (.other _, _) :: es, acc => overlay stateKeys part es acc

def entriesOf : Py → List (Key × Py)
  | .dict es => es
  | _ => []

def stateDelta (update : Py) : Tr (List Event) := do
  let ctx ← get
  let old := ctx.lastState.getD ∅
  let part ← liftPy (stateView update ctx.stateKeys)
  let new := overlay ctx.stateKeys part (entriesOf update) old
  set { ctx with lastState := some new }
  if ctx.includeStateDeltas then
    let patch := jsonPatchDiff old new
    return if patch.isEmpty then [] else [.stateDelta patch]
  else return []

def changes (ns : List String) (update : Py) : Tr (List Event) :=
  if update.isMapping ∧ ns.isEmpty then do
    let delta ← stateDelta update
    let customs ← metadataCustoms update
    return delta ++ customs
  else pure []

/-- One `node: update` entry of an `updates` payload. -/
def updateNode (ns : List String) (node : Key) (update : Py) : Tr (List Event) :=
  if node = .str "__interrupt__" then do
    recordInterrupts (interruptItems update)
    return []
  else do
    let closed ← emit fun ctx => closeOwner ctx (owner ns node.name)
    let changed ← changes ns update
    return closed ++ [.stepStarted node.render] ++ changed ++ [.stepFinished node.render]

def updateNodes (ns : List String) : List (Key × Py) → Tr (List Event)
  | [] => pure []
  | (node, update) :: es => do
    let first ← updateNode ns node update
    let rest ← updateNodes ns es
    return first ++ rest

def updates (ns : List String) : Payload → Tr (Option (List Event))
  | .data (.dict es) => do return some (← updateNodes ns es)
  | .data (.rogue _) => throw .raised
  | _ => pure none

/-- `payload.get(key)` when it is a string. -/
def optStr (payload : Py) (key : String) : Except PyError (Option String) := do
  return (← payload.get key).bind Py.asStr

def subagentPhases : List String := ["start", "end", "error"]

def subagentPhase (payload : Py) : Except PyError (Option (String × String)) := do
  if payload.isMapping then
    match ← payload.get "type" with
    | some (.str "subagent") =>
      let phase ← payload.get "phase"
      if (phase.map Py.hashable).getD true then
        match phase, ← payload.get "id" with
        | some (.str ph), some (.str sid) =>
          return if ph ∈ subagentPhases then some (sid, ph) else none
        | _, _ => return none
      else throw .raised
    | _ => return none
  else return none

def subagentStart (payload : Py) (sid : String) : Tr (List Event) := do
  let name := ((← liftPy (optStr payload "name")).bind fun n => nonEmpty (some n)).getD "subagent"
  modify fun ctx => { ctx with activeSubagents := ctx.activeSubagents.set sid name }
  let description ← liftPy (optStr payload "description")
  let parent ← liftPy (optStr payload "parent_id")
  let call ← liftPy (optStr payload "parent_tool_call_id")
  let message ← liftPy (optStr payload "parent_message_id")
  return [.subagentStarted sid name description parent call message]

def subagentEnd (payload : Py) (sid : String) : Tr (List Event) := do
  modify fun ctx => { ctx with activeSubagents := ctx.activeSubagents.erase sid }
  let result ← liftPy (payload.get "result")
  let result' ← safeOption result
  return [.subagentFinished sid result']

def subagentFail (payload : Py) (sid : String) : Tr (List Event) := do
  modify fun ctx => { ctx with activeSubagents := ctx.activeSubagents.erase sid }
  let message ← liftPy (optStr payload "message")
  let code ← liftPy (optStr payload "code")
  let text := (message.bind fun m => nonEmpty (some m)).getD "sub-agent failed"
  return [.subagentError sid text code]

def custom (payload : Payload) : Tr (List Event) :=
  match payload with
  | .message .. => raw "custom" payload "langgraph.custom"
  | .data v => do
    match ← liftPy (subagentPhase v) with
    | none => raw "custom" payload "langgraph.custom"
    | some (sid, phase) =>
      let active := decide (sid ∈ (← get).activeSubagents)
      if phase = "start" ∧ ¬ active then subagentStart v sid
      else if phase = "end" ∧ active then subagentEnd v sid
      else if phase = "error" ∧ active then subagentFail v sid
      else raw "custom" payload "langgraph.custom"

/-- `(namespace, mode, payload)` of a stream item, else the object itself. -/
def split : Chunk → Except Py (List String × String × Payload)
  | .pair mode payload => .ok ([], mode, payload)
  | .triple ns mode payload => .ok (ns, mode, payload)
  | .other v => .error v

def dispatch (ns : List String) (mode : String) (payload : Payload) : Tr (Option (List Event)) :=
  if mode = "messages" then messages ns payload
  else if mode = "updates" then updates ns payload
  else if mode = "custom" then do
    let evs ← custom payload
    return some evs
  else pure none

def sourceOf (mode : String) : String :=
  if mode = "messages" ∨ mode = "updates" then "langgraph." ++ mode else "langgraph"

def translate (chunk : Chunk) : Tr (List Event) :=
  match split chunk with
  | .error v => raw "unknown" (.data v) "langgraph"
  | .ok (ns, mode, payload) => do
    match ← dispatch ns mode payload with
    | some evs => return evs
    | none => raw mode payload (sourceOf mode)

def swallow (x : Tr (List Event)) (ctx : AgUiContext) : List Event × AgUiContext :=
  match x ctx with
  | .ok evs ctx' => (evs, ctx')
  | .error _ ctx' => ([], ctx')

def toAguiEvents (chunk : Chunk) : AgUiContext → List Event × AgUiContext :=
  swallow (translate chunk)

/-- What `start_run` does before its exception handler. -/
def startRun (initialState : Py) (input : Option Py) : Tr (List Event) := do
  let ctx ← get
  let input' ← safeOption input
  let view ← liftPy (stateView initialState ctx.stateKeys)
  modify fun c => { c with lastState := some view }
  rememberMetadata initialState
  return .runStarted ctx.threadId ctx.runId ctx.parentRunId input' ::
    if ctx.includeStateDeltas then [.stateSnapshot view] else []

def nativeUsage (wire : UsageWire) : List TokenUsage :=
  let served := wire.servedModel.getD ""
  let head := if served.contains '/' then (served.splitOn "/").headD "" else ""
  let provider := (nonEmpty wire.gateway).orElse fun _ => nonEmpty (some head)
  [{ provider := provider.getD "unknown"
     model := if served = "" then "unknown" else served
     inputTokens := wire.promptTokens
     outputTokens := wire.completionTokens
     totalTokens := wire.totalTokens
     reasoningTokens := wire.reasoningTokens
     cachedInputTokens := wire.cacheReadTokens
     cacheWriteInputTokens := wire.cacheWriteTokens }]

def usage (ctx : AgUiContext) (summary : Option UsageWire) :
    List Event × Option (List TokenUsage) :=
  match summary with
  | none => ([], none)
  | some wire => if ctx.includeUsage then ([.usage wire], some (nativeUsage wire)) else ([], none)

def outcome (ctx : AgUiContext) : Outcome :=
  if ctx.interrupts.isEmpty then .success else .interrupt ctx.interrupts

/-- What `finish_run` does before its exception handler. -/
def finishRun (summary : Option UsageWire) (result : Option Py) : Tr (List Event) := do
  let closed ← emit closeAll
  let ctx ← get
  let result' ← safeOption result
  return closed ++ (usage ctx summary).1 ++
    [.runFinished ctx.threadId ctx.runId result' (outcome ctx) (usage ctx summary).2]

/-- What `error_run` does before its exception handler. -/
def errorRun (code message : String) (summary : Option UsageWire) : Tr (List Event) := do
  let closed ← emit closeAll
  let ctx ← get
  return closed ++ (usage ctx summary).1 ++ [.runError message code (usage ctx summary).2]

end Prismal.Events
