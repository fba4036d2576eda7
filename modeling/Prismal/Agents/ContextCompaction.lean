import Prismal.Providers.Batch
import Prismal.Utils.TokenEstimate

namespace Prismal.Agents
open Prismal.Budget Prismal.Providers Prismal.Utils
set_option autoImplicit true

inductive MessageType where
  | human
  | ai
  | tool
  | system
  | other
  deriving DecidableEq, Repr

structure Message where
  id : Option String := none
  type : MessageType
  content : String
  name : Option String := none
  toolCallId : String := ""
  status : String := "success"
  deriving DecidableEq, Repr

/-- An entry of a state update: `RemoveMessage`, or a message to add or replace. -/
inductive MessageUpdate where
  | remove (id : String)
  | put (m : Message)

inductive CompactionStrategy where
  | truncate
  | summarize
  | maskObservations
  deriving DecidableEq, Repr

structure CompactionSettings where
  enabled : Bool := true
  strategy : CompactionStrategy := .truncate
  maxMessages : Nat := 60
  tokenThreshold : Nat := 0
  keepRecent : Nat := 10
  minInterval : Nat := 20
  highWater : Nat := 0
  lowWater : Nat := 0
  maskKeepTurns : Nat := 10
  maskRelevanceKeep : Rat := 4 / 5
  tokenEfficiencyEnabled : Bool := false

/-- What a compaction needs from outside: a summarizer, which may raise and may have its call
metered, the artifact store, which may refuse, and the relevance hook. -/
structure CompactionHost where
  summarize : List Message → Option (String × Option Spend)
  put : Nat → Message → Option String
  relevance : Option (Message → List Message → Rat) := none

def estimate (messages : List Message) : Nat :=
  (messages.map fun m => estimateTokens m.content).sum

structure CompactionResult where
  compacted : Bool
  removedIds : List String := []
  summary : Option Message := none
  replaced : List Message := []
  metered : Option Spend := none

namespace ContextCompactor

variable (st : CompactionSettings)

def effectiveStrategy : CompactionStrategy :=
  if st.strategy = .maskObservations && !st.tokenEfficiencyEnabled then .truncate else st.strategy

def hysteresisActive : Bool := st.tokenEfficiencyEnabled && decide (0 < st.highWater)

def lowWater : Option Nat := if hysteresisActive st then some st.lowWater else none

def shouldCompact (used : Option Usage) (messages : List Message) : Bool :=
  if hysteresisActive st then decide (st.highWater < estimate messages)
  else if st.maxMessages < messages.length then true
  else used.any fun u =>
    decide (0 < st.tokenThreshold) && decide ((st.tokenThreshold : Int) < u.totalTokens)

/-- The shortest prefix of at most `fuel` messages that brings the estimate down to `low`. -/
def dropTo (low : Nat) : Nat → Nat → List Message → Nat
  | _, 0, _ => 0
  | _, _, [] => 0
  | remaining, fuel + 1, m :: rest =>
    if low < remaining then dropTo low (remaining - estimateTokens m.content) fuel rest + 1 else 0

def olderCount (messages : List Message) : Nat :=
  let maxDrop := messages.length - st.keepRecent
  match lowWater st with
  | none => maxDrop
  | some low => dropTo low (estimate messages) maxDrop messages

/-- `str(m.id)` of the messages that have one. -/
def idsOf (messages : List Message) : List String :=
  messages.filterMap fun m => m.id.filter fun i => i ≠ ""

def summaryMessage (count : Nat) (text : String) : Message where
  type := .ai
  content := "[Compacted summary of " ++ toString count ++ " earlier messages]: " ++ text

def dropOlder (host : CompactionHost) (older : List Message) : CompactionResult :=
  let cut : CompactionResult := { compacted := true, removedIds := idsOf older }
  if effectiveStrategy st = .summarize then
    match host.summarize older with
    | some (text, metered) =>
      { cut with summary := some (summaryMessage older.length text), metered := metered }
    | none => cut
  else cut

def maskedPrefix : String := "[observation elided:"

def observationStub (tool artifact : String) (tokens : Nat) : String :=
  "[observation elided: tool=" ++ tool ++ " artifact=" ++ artifact ++ " tokens≈" ++
    toString tokens ++ "; use read_artifact]"

/-- Where the protected turns begin: the `turns`-th one from the end. -/
def boundaryFrom (turns : Nat) : Nat → List Message → Nat
  | _, [] => 0
  | seen, m :: earlier =>
    if m.type = .human || m.type = .ai then
      if seen + 1 = turns then earlier.length else boundaryFrom turns (seen + 1) earlier
    else boundaryFrom turns seen earlier

def maskBoundary (messages : List Message) : Nat :=
  if st.maskKeepTurns = 0 then messages.length
  else boundaryFrom st.maskKeepTurns 0 messages.reverse

def maskable (host : CompactionHost) (messages : List Message) (m : Message) : Bool :=
  decide (m.type = .tool) && !startsWith m.content maskedPrefix &&
    (m.id.any fun i => i ≠ "") &&
    host.relevance.all fun f => decide (f m messages < st.maskRelevanceKeep)

def stubOf (m : Message) (artifact : String) : Message :=
  { m with
    content := observationStub ((m.name.filter fun n => n ≠ "").getD "unknown") artifact
      (estimateTokens m.content) }

def maskFrom (host : CompactionHost) (all : List Message) :
    List Message → Nat → Int → List Message
  | [], _, _ => []
  | m :: rest, tries, remaining =>
    if (lowWater st).any fun low => decide (remaining ≤ low) then []
    else if maskable st host all m then
      match host.put tries m with
      | none => maskFrom host all rest (tries + 1) remaining
      | some artifact =>
        let stub := stubOf m artifact
        stub :: maskFrom host all rest (tries + 1)
          (remaining + estimateTokens stub.content - estimateTokens m.content)
    else maskFrom host all rest tries remaining

def maskObservations (host : CompactionHost) (messages : List Message) : CompactionResult :=
  let replaced := maskFrom st host messages (messages.take (maskBoundary st messages)) 0
    (estimate messages)
  { compacted := !replaced.isEmpty, replaced := replaced }

def compact (host : CompactionHost) (messages : List Message) : CompactionResult :=
  if effectiveStrategy st = .maskObservations then maskObservations st host messages
  else if messages.length ≤ st.keepRecent then { compacted := false }
  else
    let older := messages.take (olderCount st messages)
    if idsOf older = [] then { compacted := false } else dropOlder st host older

def toStateUpdate (result : CompactionResult) : List MessageUpdate :=
  if result.compacted then
    result.removedIds.map .remove ++ result.summary.toList.map .put ++ result.replaced.map .put
  else []

end ContextCompactor

abbrev Fingerprint := List (Option String × Nat)

def fingerprint (messages : List Message) : Fingerprint :=
  messages.map fun m => (m.id, m.content.length)

/-- The compactor of a session; its guard is named by its meter. -/
structure CompactionRun where
  guard : Option Nat
  turn : Nat
  lastEvaluatedLen : Option Nat := none
  lastEvaluatedFp : Option Fingerprint := none

def tooSoon (st : CompactionSettings) (run : CompactionRun) (messages : List Message) : Bool :=
  if ContextCompactor.hysteresisActive st then
    decide (run.lastEvaluatedFp = some (fingerprint messages))
  else run.lastEvaluatedLen.any fun n =>
    decide (n ≤ messages.length) && decide (messages.length - n < st.minInterval)

def CompactionRun.evaluated (st : CompactionSettings) (run : CompactionRun)
    (messages : List Message) : CompactionRun :=
  { run with
    lastEvaluatedLen := some messages.length
    lastEvaluatedFp :=
      if ContextCompactor.hysteresisActive st then some (fingerprint messages)
      else run.lastEvaluatedFp }

def maybeCompactContext (st : CompactionSettings) (host : CompactionHost) (run : CompactionRun)
    (used : Option Usage) (messages : List Message) : CompactionRun × CompactionResult :=
  if !ContextCompactor.shouldCompact st used messages || tooSoon st run messages then
    (run, { compacted := false })
  else
    let result := ContextCompactor.compact st host messages
    if result.compacted then (run.evaluated st messages, result) else (run, result)

end Prismal.Agents
