import Prismal.Lib.JsonText
import Prismal.Lib.Lines

namespace Prismal.Composition
open Prismal.Lib Prismal.Lib.Json
set_option autoImplicit true

/-! What a host reads of the audit log. -/

/-- `_GENESIS_HASH` -/
def genesisHash : String := "0000000000000000000000000000000000000000000000000000000000000000"

def maxPageSize : Nat := 200

def maxFieldChars : Nat := 256

/-- `AUDIT_SCAN_MAX_RECORDS` -/
def auditScanMaxRecords : Nat := 100000

/-- `AUDIT_MAX_LINE_CHARS` -/
def auditMaxLineChars : Nat := 64 * 1024

def envelopeKeys : List String :=
  ["timestamp", "event", "prev_hash", "entry_hash", "org_id", "actor"]

def actorKeys : List String := ["actor", "agent_id", "user_id"]

def safeFieldKeys : List String :=
  ["session_id", "run_id", "task_id", "thread_id", "agent_did", "identity", "decision_id",
    "question_id", "calibration_version", "agent", "tool", "tool_name", "node_name", "skill",
    "name", "group", "model", "served_model", "backend", "integration", "gateway", "policy",
    "tier", "status", "outcome", "mode", "scope", "phase", "method", "action", "effect", "rule",
    "direction", "category", "modality", "media_event", "permission_type", "flow", "vector",
    "dimension", "language", "risk_tier", "kind", "granted", "blocked", "ok", "complete",
    "converged", "executed", "replan", "tainted", "shadow_agree", "risk", "risk_score", "tokens",
    "cost_usd", "round", "rounds", "used", "limit", "tau", "margin", "answer_confidence",
    "spread_confidence", "sha256"]

def safeFieldSuffixes : List String :=
  ["_hash", "_count", "_length", "_ms", "_s", "_bytes", "_id", "_score", "_ratio", "_usd",
    "_tokens", "_size", "_requested", "_effective", "_version"]

/-- The file behind an audit port. A port that is not a logger has none. -/
inductive AuditFile where
  | notALogger
  | missing
  | unreadable
  | text (cs : List Char)

inductive ReadError where
  | unreadable
  | recursion
  deriving DecidableEq, Repr

/-- Why a line is not loaded: it is no JSON, or it is nested too deep. -/
inductive LoadError where
  | value
  | recursion
  deriving DecidableEq, Repr

structure Loaded where
  tree : Tree
  sound : wellFormed tree = true

/-- `json.loads` -/
abbrev Loads := List Char → Except LoadError Loaded

/-- `hashlib.sha256(…).hexdigest()` -/
abbrev Sha256 := List Char → String

/-- `_scan_cap` -/
def scanCap (maxRecords : Option Int) : Nat :=
  min auditScanMaxRecords (maxRecords.getD auditScanMaxRecords).toNat

/-- `_iter_records` -/
def iterRecords (cs : List Char) : List (Option (List Char)) :=
  lineRecords auditMaxLineChars cs

/-! The hash chain. -/

inductive ChainStatus where
  | valid
  | broken
  | unverified
  deriving DecidableEq, Repr

structure AuditChainStatus where
  status : ChainStatus
  checked : Nat
  firstBrokenSeq : Option Nat
  deriving DecidableEq, Repr

def unverified : AuditChainStatus := ⟨.unverified, 0, none⟩

def isText (s : String) : Tree → Bool
  | .str t => t == s
  | _ => false

/-- `entry.pop("entry_hash")`, what is left. -/
def withoutHash (es : List (String × Tree)) : List (String × Tree) :=
  es.filter fun e => !decide (e.1 = "entry_hash")

def entryDigest (sha256 : Sha256) (es : List (String × Tree)) : String :=
  sha256 (write (canon (.obj (withoutHash es))))

def chainHash (sha256 : Sha256) (expectedPrev : String) : Tree → Option String
  | .obj es =>
    match Dict.lookup "entry_hash" es with
    | none => none
    | some stored =>
      if (Dict.lookup "prev_hash" (withoutHash es)).any (isText expectedPrev) &&
          isText (entryDigest sha256 es) stored then
        some (entryDigest sha256 es)
      else none
  | _ => none

/-- `_verify_stream` -/
def verifyStream (loads : Loads) (sha256 : Sha256) :
    String → Nat → List (Option (List Char)) → Except ReadError AuditChainStatus
  | _, seq, [] => .ok ⟨.valid, seq, none⟩
  | _, _, none :: _ => .ok unverified
  | expectedPrev, seq, some line :: rest =>
    match loads line with
    | .error .recursion => .error .recursion
    | .error .value => .ok ⟨.broken, seq + 1, some (seq + 1)⟩
    | .ok entry =>
      match chainHash sha256 expectedPrev entry.tree with
      | none => .ok ⟨.broken, seq + 1, some (seq + 1)⟩
      | some stored => verifyStream loads sha256 stored (seq + 1) rest

def entriesOf (loads : Loads) (cs : List Char) : List Loaded :=
  (iterRecords cs).filterMap fun r => r.bind fun line => (loads line).toOption

def verifyAuditChain (loads : Loads) (sha256 : Sha256) (file : AuditFile)
    (maxRecords : Option Int := some 10000) : Except ReadError AuditChainStatus :=
  match file with
  | .notALogger => .ok unverified
  | .missing => .ok ⟨.valid, 0, none⟩
  | .unreadable => .ok unverified
  | .text cs =>
    if scanCap maxRecords < (iterRecords cs).length then .ok unverified
    else verifyStream loads sha256 genesisHash 0 (iterRecords cs)

/-! Pages of entries. -/

structure AuditEntryView where
  seq : Nat
  ts : Option Rat
  event : String
  actor : Option String
  orgId : Option String
  hash : String
  prevHash : String
  fields : List (String × Tree)

structure AuditPageView where
  page : Nat
  pageSize : Nat
  total : Option Nat
  entries : List AuditEntryView

/-- What the log is read with: `json.loads`, `sha256`, `datetime.fromisoformat` as an instant, and
`str` of a list or a mapping. -/
structure Reader where
  loads : Loads
  sha256 : Sha256
  fromIso : String → Option Rat
  repr : Tree → String

namespace Reader

variable (R : Reader)

/-- `str(value)` -/
def str : Tree → String
  | .str s => s
  | .null => "None"
  | .bool b => if b then "True" else "False"
  | .num t =>
    if t = "NaN" then "nan" else if t = "Infinity" then "inf"
    else if t = "-Infinity" then "-inf" else t
  | t => R.repr t

/-- `_digest` -/
def digest (value : Tree) : Tree :=
  let raw := match value with
    | .str s => s.toList
    | t => write (canon t)
  .str ("sha256:" ++ String.ofList ((R.sha256 raw).toList.take 16))

def isSafeKey (key : String) : Bool :=
  safeFieldKeys.contains key || safeFieldSuffixes.any fun suffix => suffix.toList.isSuffixOf key.toList

/-- `_scrub_field` -/
def scrubField (key : String) : Tree → Tree
  | .null => .null
  | .bool b => .bool b
  | .num t => .num t
  | .str s =>
    if isSafeKey key && decide (s.toList.length ≤ maxFieldChars) then .str s else R.digest (.str s)
  | t => R.digest t

/-- `_parse_ts` -/
def parseTs : Option Tree → Option Rat
  | some (.str s) => R.fromIso s
  | _ => none

def truthy : Tree → Bool
  | .null => false
  | .bool b => b
  | .num t => !(["0", "0.0", "-0.0"].contains t)
  | .str s => s != ""
  | .arr xs => !xs.isEmpty
  | .obj es => !es.isEmpty

/-- `_entry_view` -/
def entryView (seq : Nat) (entry : List (String × Tree)) : AuditEntryView where
  seq := seq
  ts := R.parseTs (Dict.lookup "timestamp" entry)
  event := ((Dict.lookup "event" entry).map R.str).getD ""
  actor := actorKeys.findSome? fun k => ((Dict.lookup k entry).filter truthy).map R.str
  orgId := match Dict.lookup "org_id" entry with
    | none => none
    | some .null => none
    | some org => some (R.str org)
  hash := ((Dict.lookup "entry_hash" entry).map R.str).getD ""
  prevHash := ((Dict.lookup "prev_hash" entry).map R.str).getD ""
  fields := (entry.filter fun e => !envelopeKeys.contains e.1).map fun e =>
    (e.1, R.scrubField e.1 e.2)

def selects (orgId : Option String) (cutoff : Option Rat) (entry : List (String × Tree)) : Bool :=
  orgId.all (fun org => (Dict.lookup "org_id" entry).any (isText org)) &&
    cutoff.all fun cutoff => (R.parseTs (Dict.lookup "timestamp" entry)).any (cutoff ≤ ·)

/-- `deque(maxlen = …).append` -/
def pushBounded (maxlen : Nat) (kept : List α) (a : α) : List α :=
  (kept ++ [a]).drop ((kept ++ [a]).length - maxlen)

def scan (orgId : Option String) (cutoff : Option Rat) (skip maxlen : Nat) :
    Nat → Nat → List (Nat × List (String × Tree)) → List (Option (List Char)) →
      Except ReadError (Nat × List (Nat × List (String × Tree)))
  | _, matched, kept, [] => .ok (matched, kept)
  | seq, matched, kept, none :: rest =>
    scan orgId cutoff skip maxlen (seq + 1) matched kept rest
  | seq, matched, kept, some line :: rest =>
    if seq ≤ skip then scan orgId cutoff skip maxlen (seq + 1) matched kept rest
    else
      match R.loads line with
      | .error .recursion => .error .recursion
      | .error .value => scan orgId cutoff skip maxlen (seq + 1) matched kept rest
      | .ok loaded =>
        match loaded.tree with
        | .obj entry =>
          if R.selects orgId cutoff entry then
            scan orgId cutoff skip maxlen (seq + 1) (matched + 1)
              (pushBounded maxlen kept (seq, entry)) rest
          else scan orgId cutoff skip maxlen (seq + 1) matched kept rest
        | _ => scan orgId cutoff skip maxlen (seq + 1) matched kept rest

def auditPage (file : AuditFile) (orgId : Option String) (page : Int := 1) (pageSize : Int := 50)
    (since : Option Rat := none) (maxRecords : Option Int := none) :
    Except ReadError AuditPageView :=
  let page := max 1 page.toNat
  let pageSize := min maxPageSize (max 1 pageSize.toNat)
  let cap := max 1 (scanCap maxRecords)
  let start := (page - 1) * pageSize
  let nothing : AuditPageView := ⟨page, pageSize, none, []⟩
  if cap ≤ start then .ok nothing
  else
    match file with
    | .notALogger => .ok nothing
    | .missing => .ok { nothing with total := some 0 }
    | .unreadable => .error .unreadable
    | .text cs =>
      let skip := (iterRecords cs).length - cap
      match R.scan orgId since skip (min (page * pageSize) cap) 1 0 [] (iterRecords cs) with
      | .error e => .error e
      | .ok (matched, kept) =>
        .ok
          { page := page
            pageSize := pageSize
            total := if 0 < skip then none else some matched
            entries := ((kept.reverse.drop start).take pageSize).map fun e =>
              R.entryView e.1 e.2 }

end Reader

end Prismal.Composition
