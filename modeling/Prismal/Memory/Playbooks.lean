import Prismal.Memory.Types
import Prismal.Utils.TokenEstimate

namespace Prismal.Memory
open Prismal.Lib Prismal.Utils
set_option autoImplicit true

inductive DeltaOp where
  | add
  | modify
  | deprecate
  | vote
  deriving DecidableEq, Repr

/-- Where a pinned playbook goes in the prompt. -/
inductive Placement where
  | stablePrefix
  | tail
  deriving DecidableEq, Repr

/-- One procedural rule, its votes and the records it was learned from. -/
structure PlaybookBullet where
  bulletId : String
  (section' : String)
  text : String
  helpful : Int := 0
  harmful : Int := 0
  sourceRecordIds : List String := []
  deriving DecidableEq, Repr

structure Playbook where
  agent : String
  orgId : String
  version : Int
  bullets : List PlaybookBullet
  updatedAt : Rat
  deriving DecidableEq

def Playbook.empty (orgId agent : String) : Playbook where
  agent := agent
  orgId := orgId
  version := 0
  bullets := []
  updatedAt := 0

structure PlaybookDelta where
  op : DeltaOp
  bulletId : Option String
  (section' : String)
  text : Option String
  rationale : String
  sourceRecordIds : List String := []
  deriving DecidableEq, Repr

/-- The playbook pinned for one run, rendered once. -/
structure PinnedPlaybook where
  runId : String
  version : Int
  placement : Placement
  rendered : String
  playbook : Playbook
  deriving DecidableEq

structure PlaybookSettings where
  budgetTokens : Int := 600
  maxDeltas : Nat := 10
  minStableRuns : Nat := 5
  keepVersions : Nat := 10
  budgetTokens_pos : 0 < budgetTokens := by decide
  maxDeltas_pos : 0 < maxDeltas := by decide
  minStableRuns_pos : 0 < minStableRuns := by decide
  keepVersions_pos : 0 < keepVersions := by decide

inductive PlaybookError where
  | delta (message : String)
  | memory (message : String)
  deriving DecidableEq, Repr

/-- The curator, with the Unicode tables and the hash of its platform. -/
structure PlaybookCurator where
  allowUncited : Bool := false
  nfkc : String → String
  sha256 : String → String

def maxBulletChars : Nat := 500

def controlChar (c : Char) : Bool :=
  let n := c.toNat
  n ≤ 8 || n = 11 || n = 12 || (14 ≤ n && n ≤ 31) || n = 127

namespace PlaybookCurator

/-- `InputSanitizer.sanitize` -/
def sanitize (curator : PlaybookCurator) (text : String) (maxChars : Nat) : String :=
  let stripped := String.ofList (text.toList.filter fun c => !controlChar c)
  String.ofList ((curator.nfkc stripped).toList.take maxChars)

def clean (curator : PlaybookCurator) (text : String) : String :=
  " ".intercalate (runs (fun c => !isSpace c) (curator.sanitize text maxBulletChars))

/-- `_bullet_id` -/
def newBulletId (curator : PlaybookCurator) (section' text : String) : String :=
  "b-" ++ String.ofList
    ((curator.sha256 (section' ++ String.ofList [Char.ofNat 0] ++ text)).toList.take 12)

def sharedWith (scope : MemoryScope) (playbook : Playbook) : Bool :=
  decide (scope.orgId = playbook.orgId) && scope.userId.isNone && scope.threadId.isNone &&
    (scope.agent.isNone || decide (scope.agent = some playbook.agent))

def citable (playbook : Playbook) (sources : Dict String MemoryRecord) (rid : String) : Bool :=
  match sources.get? rid with
  | none => false
  | some record => decide (record.id = rid) && sharedWith record.scope playbook &&
      !record.provenance.tainted && decide (record.provenance.trust = .trusted)

def t7Clean (curator : PlaybookCurator) (delta : PlaybookDelta) (playbook : Playbook)
    (sources : Dict String MemoryRecord) : Bool :=
  !((decide (delta.op = .add) || decide (delta.op = .modify)) &&
      delta.sourceRecordIds.isEmpty && !curator.allowUncited) &&
    delta.sourceRecordIds.all (citable playbook sources)

/-- Apply one delta to the bullets, by id; `none` when it changes nothing. -/
def apply (curator : PlaybookCurator) (bullets : Dict String PlaybookBullet)
    (delta : PlaybookDelta) : Option (Dict String PlaybookBullet) :=
  let text := (delta.text.map curator.clean).getD ""
  match delta.op with
  | .add =>
    let bid := curator.newBulletId delta.section' text
    if text = "" ∨ bid ∈ bullets then none
    else
      let bullet : PlaybookBullet :=
        { bulletId := bid, section' := delta.section', text := text,
          sourceRecordIds := delta.sourceRecordIds.eraseDups }
      some (bullets.set bid bullet)
  | .deprecate => do
    let current ← bullets.get? (delta.bulletId.getD "")
    some (bullets.erase current.bulletId)
  | .vote => do
    let current ← bullets.get? (delta.bulletId.getD "")
    if text = "helpful" then
      some (bullets.set current.bulletId { current with helpful := current.helpful + 1 })
    else if text = "harmful" then
      some (bullets.set current.bulletId { current with harmful := current.harmful + 1 })
    else none
  | .modify => do
    let current ← bullets.get? (delta.bulletId.getD "")
    if text = "" ∨ text = current.text then none
    else
      let merged := (current.sourceRecordIds ++ delta.sourceRecordIds).eraseDups
      some (bullets.set current.bulletId { current with text := text, sourceRecordIds := merged })

def merge (curator : PlaybookCurator) (playbook : Playbook) (sources : Dict String MemoryRecord)
    (deltas : List PlaybookDelta) : Dict String PlaybookBullet × Bool :=
  let start := (Dict.collect (playbook.bullets.map fun b => (b.bulletId, b)), false)
  deltas.foldl (fun acc delta =>
    if curator.t7Clean delta playbook sources then
      match curator.apply acc.1 delta with
      | none => acc
      | some bullets => (bullets, true)
    else acc) start

def rewritten (existing : List String) (deltas : List PlaybookDelta) : List String :=
  (deltas.filterMap fun d =>
    if d.op = .modify ∨ d.op = .deprecate then d.bulletId.filter fun b => decide (b ∈ existing)
    else none).eraseDups

/-- Apply the deltas of one cycle under the delta discipline and T7: a new version, or the
playbook itself when nothing changed. -/
def curate (curator : PlaybookCurator) (settings : PlaybookSettings) (now : Rat)
    (playbook : Playbook) (deltas : List PlaybookDelta) (sources : Dict String MemoryRecord) :
    Except PlaybookError Playbook :=
  let existing := (playbook.bullets.map PlaybookBullet.bulletId).eraseDups
  let touched := (rewritten existing deltas).length
  if settings.maxDeltas < deltas.length then
    .error (.delta (toString deltas.length ++ " deltas exceed max " ++
      toString settings.maxDeltas ++ " per cycle"))
  else if max 1 (existing.length / 2) < touched then
    .error (.delta ("delta cycle rewrites " ++ toString touched ++ "/" ++
      toString existing.length ++ " bullets (> 50 %)"))
  else
    let merged := curator.merge playbook sources deltas
    if merged.2 then
      .ok { playbook with version := playbook.version + 1, bullets := merged.1.values,
                          updatedAt := now }
    else .ok playbook

end PlaybookCurator

def bulletLine (b : PlaybookBullet) : String := "- [" ++ b.bulletId ++ "] " ++ b.text

def renderChosen (playbook : Playbook) (chosen : List String) : String :=
  let sections : Dict String (List String) :=
    (playbook.bullets.filter fun b => decide (b.bulletId ∈ chosen)).foldl
      (fun d b => d.set b.section' ((d.get? b.section').getD [] ++ [bulletLine b])) ∅
  "\n\n".intercalate
    (sections.entries.map fun e => "## " ++ e.1 ++ "\n" ++ "\n".intercalate e.2)

def renderPlaybook (playbook : Playbook) (budgetTokens : Int) : String :=
  if budgetTokens ≤ 0 ∨ playbook.bullets = [] then ""
  else
    let ranked := playbook.bullets.mergeSort
      fun a b => decide (a.harmful - a.helpful ≤ b.harmful - b.helpful)
    let chosen := ranked.foldl (fun chosen b =>
      if estimateTokens (renderChosen playbook (chosen ++ [b.bulletId])) ≤ budgetTokens then
        chosen ++ [b.bulletId]
      else chosen) []
    renderChosen playbook chosen

end Prismal.Memory

namespace Prismal.Memory
open Prismal.Lib
set_option autoImplicit true

abbrev PlaybookKey := String × String

abbrev PinKey := String × String × String

/-- Version history, stability counters and the pins, least recently used first. -/
structure PlaybookStore where
  history : Dict PlaybookKey (List Playbook) := ∅
  stable : Dict PlaybookKey (Int × List String) := ∅
  pins : Dict PinKey PinnedPlaybook := ∅

def maxPinnedRuns : Nat := 1024

namespace PlaybookStore

def kept (st : PlaybookStore) (key : PlaybookKey) : List Playbook := (st.history.get? key).getD []

def versions (st : PlaybookStore) (key : PlaybookKey) : List Int :=
  (st.kept key).map Playbook.version

def current (st : PlaybookStore) (orgId agent : String) : Playbook :=
  (st.kept (orgId, agent)).getLast?.getD (Playbook.empty orgId agent)

/-- Record a new version; the oldest beyond `keepVersions` are dropped. -/
def commit (settings : PlaybookSettings) (st : PlaybookStore) (playbook : Playbook) :
    Except PlaybookError (Playbook × PlaybookStore) :=
  let key := (playbook.orgId, playbook.agent)
  if playbook.version ≤ (st.current playbook.orgId playbook.agent).version then
    .error (.delta ("stale playbook version " ++ toString playbook.version ++ " for " ++
      playbook.agent))
  else
    let versions := (st.kept key ++ [playbook]).rtake settings.keepVersions
    .ok (playbook, { st with history := st.history.set key versions })

def rollback (settings : PlaybookSettings) (st : PlaybookStore) (orgId agent : String)
    (version : Int) (now : Rat) : Except PlaybookError (Playbook × PlaybookStore) :=
  match (st.kept (orgId, agent)).reverse.find? fun p => decide (p.version = version) with
  | none => .error (.memory ("playbook version " ++ toString version ++
      " is not kept for rollback"))
  | some kept =>
    let latest := st.current orgId agent
    commit settings st { kept with version := latest.version + 1, updatedAt := now }

def countedRuns (st : PlaybookStore) (key : PlaybookKey) (version : Int) : List String :=
  match st.stable.get? key with
  | none => []
  | some (counted, runs) => if counted ≠ version then [] else runs

/-- The same with `runId` among them. -/
def stableRuns (st : PlaybookStore) (key : PlaybookKey) (version : Int) (runId : String) :
    List String :=
  let runs := st.countedRuns key version
  if runId ∈ runs then runs else (runs ++ [runId]).rtake maxPinnedRuns

/-- Pop the oldest entries while there are more than `n`. -/
def popOldest (n : Nat) : List α → List α
  | [] => []
  | e :: es => if n < (e :: es).length then popOldest n es else e :: es

theorem popOldest_eq_drop (n : Nat) (es : List α) : popOldest n es = es.drop (es.length - n) := by
  induction es with
  | nil => rw [popOldest, List.drop_nil]
  | cons e es ih =>
    rw [popOldest, List.length_cons]
    split
    · have hsub : es.length + 1 - n = es.length - n + 1 := by omega
      rw [ih, hsub, List.drop_succ_cons]
    · have hsub : es.length + 1 - n = 0 := by omega
      rw [hsub, List.drop_zero]

def evictPins (pins : Dict PinKey PinnedPlaybook) : Dict PinKey PinnedPlaybook where
  entries := popOldest maxPinnedRuns pins.entries
  nodup := by
    rw [popOldest_eq_drop, List.map_drop]
    exact pins.nodup.sublist (List.drop_sublist _ _)

def pin (settings : PlaybookSettings) (st : PlaybookStore) (orgId agent runId : String)
    (budgetTokens : Option Int) : PinnedPlaybook × PlaybookStore :=
  let key := (orgId, agent, runId)
  match st.pins.get? key with
  | some pinned => (pinned, { st with pins := (st.pins.erase key).set key pinned })
  | none =>
    let playbook := st.current orgId agent
    let runs := st.stableRuns (orgId, agent) playbook.version runId
    let pinned : PinnedPlaybook :=
      { runId := runId, version := playbook.version,
        placement := if settings.minStableRuns ≤ runs.length then .stablePrefix else .tail,
        rendered := renderPlaybook playbook (budgetTokens.getD settings.budgetTokens),
        playbook := playbook }
    (pinned,
      { st with stable := st.stable.set (orgId, agent) (playbook.version, runs),
                pins := evictPins (st.pins.set key pinned) })

def release (st : PlaybookStore) (runId : String) : PlaybookStore :=
  { st with pins := st.pins.restrict fun k => !decide (k.2.2 = runId) }

def cites (recordIds : List String) (b : PlaybookBullet) : Bool :=
  b.sourceRecordIds.any fun id => decide (id ∈ recordIds)

def withoutCiting (recordIds : List String) (playbook : Playbook) : Playbook :=
  { playbook with bullets := playbook.bullets.filter fun b => !cites recordIds b }

/-- Erase the bullets that cite the records from every kept version of the tenant, and drop its
pins. -/
def purgeCiting (st : PlaybookStore) (recordIds : List String) (orgId : String) :
    Nat × PlaybookStore :=
  if recordIds = [] then (0, st)
  else
    let ofOrg := st.history.restrict fun k => decide (k.1 = orgId)
    let removed := ((ofOrg.values.flatten.map fun p =>
      p.bullets.length - (withoutCiting recordIds p).bullets.length)).sum
    (removed,
      { st with
        history := st.history.mapEntries fun k versions =>
          if k.1 = orgId then versions.map (withoutCiting recordIds) else versions
        pins := st.pins.restrict fun k => !decide (k.1 = orgId) })

inductive Call where
  | commit (playbook : Playbook)
  | rollback (orgId agent : String) (version : Int) (now : Rat)
  | pin (orgId agent runId : String) (budgetTokens : Option Int)
  | release (runId : String)
  | purgeCiting (recordIds : List String) (orgId : String)

def committed (settings : PlaybookSettings) (st : PlaybookStore) :
    Call → Option (Playbook × PlaybookStore)
  | .commit playbook => (commit settings st playbook).toOption
  | .rollback orgId agent version now => (rollback settings st orgId agent version now).toOption
  | _ => none

def after (st : PlaybookStore) : Option (Playbook × PlaybookStore) → PlaybookStore
  | none => st
  | some out => out.2

def call (settings : PlaybookSettings) (st : PlaybookStore) : Call → PlaybookStore
  | .commit playbook => after st (committed settings st (.commit playbook))
  | .rollback orgId agent version now =>
    after st (committed settings st (.rollback orgId agent version now))
  | .pin orgId agent runId budgetTokens => (pin settings st orgId agent runId budgetTokens).2
  | .release runId => st.release runId
  | .purgeCiting recordIds orgId => (st.purgeCiting recordIds orgId).2

/-! What each call does to the history and to the pins. -/

theorem committed_spec (h : committed settings st c = some (p, st')) :
    (st.current p.orgId p.agent).version < p.version ∧
      st' = { st with
        history := st.history.set (p.orgId, p.agent)
          ((st.kept (p.orgId, p.agent) ++ [p]).rtake settings.keepVersions) } := by
  have hcommit : ∀ q, (commit settings st q).toOption = some (p, st') →
      (st.current p.orgId p.agent).version < p.version ∧
        st' = { st with
          history := st.history.set (p.orgId, p.agent)
            ((st.kept (p.orgId, p.agent) ++ [p]).rtake settings.keepVersions) } := by
    intro q hq
    rw [commit] at hq
    split at hq
    · cases hq
    next hlt =>
      cases hq
      exact ⟨not_le.1 hlt, rfl⟩
  cases c with
  | commit q => exact hcommit q h
  | rollback orgId agent version now =>
    rw [committed, rollback] at h
    split at h
    · cases h
    · exact hcommit _ h
  | pin => cases h
  | release => cases h
  | purgeCiting => cases h

end PlaybookStore
end Prismal.Memory
