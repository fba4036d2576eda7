import Prismal.Memory.Process

namespace Prismal.Memory
open Prismal.Lib Prismal.Decisions
set_option autoImplicit true

inductive GateMode where
  | off
  | decision
  | llm
  deriving DecidableEq, Repr

inductive LowConfidence where
  | skip
  | llm
  deriving DecidableEq, Repr

structure WriteGatePolicy where
  tauWorth : Rat := 3 / 5
  tauType : Rat := 3 / 5
  tauRelation : Rat := 7 / 10
  relationK : Nat := 5
  lowConfidence : LowConfidence := .skip
  minChars : Int := 1
  maxChars : Int := 4000

structure WriteGate where
  policy : WriteGatePolicy := {}
  mode : GateMode
  shadow : Bool

/-- What the injected classifier does with a candidate. -/
inductive Classifier where
  | absent
  | raises
  | returns (type : Option MemoryType)

/-- What the gate is told about one candidate: the injection scan, the two calls of the decision
port (no answers when there is no port, or when it raises) and the classifier. -/
structure WriteEnv where
  scanTainted : Bool := false
  injectionFlags : List String := []
  answers : String → Option Decision := fun _ => none
  relationAnswers : String → Option Decision := fun _ => none
  classifier : Classifier := .absent

def worthDecisionId : String := "memory.write.worth"

def typeDecisionId : String := "memory.write.type"

def relationId (index : Nat) : String := "memory.write.relation." ++ toString index

def ungatedConfidence : Rat := 1 / 2

def contentHash (host : Host) (content : String) : String :=
  host.sha256 (strip (collapse isSpace content))

structure Relation where
  neighbor : MemoryRecord
  relation : RelationKind
  confidence : Rat
  related : relation ≠ .unrelated

structure Verdict where
  status : WriteStatus
  type : Option MemoryType
  confidence : Rat
  backend : String
  reason : String
  relations : List Relation := []

def accepted (decision : Option Decision) (tau : Rat) : Bool :=
  decision.any fun d =>
    !d.abstained && d.value.isSome && decide (d.outcome = .accepted) &&
      decide (tau ≤ d.answerConfidence)

/-- `MemoryType(str(value))` -/
def asType (value : Option Answer) : Option MemoryType :=
  match value with
  | some (.label s) => MemoryType.all.find? fun t => decide (t.value = s)
  | _ => none

/-- `RelationKind(str(value))` -/
def asRelation (value : Option Answer) : Option RelationKind :=
  match value with
  | some (.label s) => RelationKind.all.find? fun k => decide (k.value = s)
  | _ => none

def bound (policy : WriteGatePolicy) (raw content : String) : String :=
  if policy.maxChars < raw.length then "too_long"
  else if strip content = "" then "empty"
  else if (strip content).length < policy.minChars then "too_short"
  else ""

/-- A tainted candidate is only ever stored as `EPISODIC`. -/
def downgrade (tainted : Bool) (type : MemoryType) : MemoryType :=
  if tainted && decide (type ≠ .episodic) then .episodic else type

def skipped (backend reason : String) : Verdict := ⟨.skipped, none, 0, backend, reason, []⟩

def gateOff (candidate : MemoryCandidate) (tainted : Bool) : Verdict :=
  ⟨.stored, some (downgrade tainted (candidate.suggestedType.getD .episodic)), ungatedConfidence,
    "none", "gate_off", []⟩

def llmVerdict (env : WriteEnv) (tainted : Bool) (reason : String) : Verdict :=
  match env.classifier with
  | .absent => skipped "none" "no_classifier"
  | .raises => skipped "llm" "classifier_error"
  | .returns none => skipped "llm" "not_worth"
  | .returns (some type) =>
    ⟨.stored, some (downgrade tainted type), ungatedConfidence, "llm", reason, []⟩

def lowConfidence (policy : WriteGatePolicy) (env : WriteEnv) (tainted : Bool) : Verdict :=
  match policy.lowConfidence, env.classifier with
  | .llm, .raises | .llm, .returns _ => llmVerdict env tainted "llm"
  | _, _ => skipped "none" "low_confidence"

def relationTo (policy : WriteGatePolicy) (env : WriteEnv) (neighbor : MemoryRecord × Nat) :
    Option Relation :=
  match env.relationAnswers (relationId neighbor.2) with
  | none => none
  | some d =>
    if accepted (some d) policy.tauRelation then
      match asRelation d.value with
      | none => none
      | some kind =>
        if h : kind ≠ .unrelated then some ⟨neighbor.1, kind, d.answerConfidence, h⟩ else none
    else none

def relations (policy : WriteGatePolicy) (env : WriteEnv) (neighbors : List MemoryRecord) :
    List Relation := neighbors.zipIdx.filterMap (relationTo policy env)

def typeVerdict (policy : WriteGatePolicy) (env : WriteEnv) (worth : Decision) : Verdict :=
  match env.answers typeDecisionId with
  | none => lowConfidence policy env false
  | some kind =>
    match asType kind.value with
    | none => lowConfidence policy env false
    | some type =>
      if accepted (some kind) policy.tauType then
        ⟨.stored, some type, min worth.answerConfidence kind.answerConfidence, worth.backend,
          "accepted", []⟩
      else lowConfidence policy env false

def worthVerdict (policy : WriteGatePolicy) (env : WriteEnv) (tainted : Bool) : Verdict :=
  match env.answers worthDecisionId with
  | none => lowConfidence policy env tainted
  | some worth =>
    if !accepted (some worth) policy.tauWorth then lowConfidence policy env tainted
    else if worth.value = some (.truth false) then
      ⟨.skipped, none, worth.answerConfidence, worth.backend, "not_worth", []⟩
    else if tainted then
      ⟨.stored, some .episodic, worth.answerConfidence, worth.backend, "tainted", []⟩
    else typeVerdict policy env worth

def Verdict.relate (v : Verdict) (relations : List Relation) : Verdict :=
  { v with relations := relations }

def decisionVerdict (policy : WriteGatePolicy) (env : WriteEnv) (neighbors : List MemoryRecord)
    (tainted : Bool) : Verdict :=
  let verdict := worthVerdict policy env tainted
  if verdict.status = .stored && !neighbors.isEmpty then
    verdict.relate (relations policy env neighbors)
  else verdict

def WriteGate.verdict (gate : WriteGate) (env : WriteEnv) (candidate : MemoryCandidate)
    (neighbors : List MemoryRecord) (tainted : Bool) : Verdict :=
  match gate.mode with
  | .off => gateOff candidate tainted
  | .llm => llmVerdict env tainted "gate_llm"
  | .decision => decisionVerdict gate.policy env neighbors tainted

def trustOf (tainted : Bool) (origin : Origin) : Trust :=
  if tainted then .untrusted else if origin = .legacy then .unknown else .trusted

def edgeOf (rid : String) (now : Rat) (r : Relation) : MemoryEdge where
  srcId := rid
  dstId := r.neighbor.id
  relation := r.relation
  confidence := r.confidence
  validFrom := now
  related := r.related

def provenanceOf (candidate : MemoryCandidate) (ctx : MemoryContext) (tainted : Bool)
    (taintSources : List String) (now : Rat) : Provenance where
  origin := candidate.origin
  sourceMessageIds := candidate.sourceMessageIds
  sessionId := some ctx.sessionId
  agent := some ctx.actor
  createdAt := now
  tainted := tainted
  trust := trustOf tainted candidate.origin
  taintSources := if tainted then taintSources else []

/-- `_build` once the clock is read and the id is drawn. -/
def built (candidate : MemoryCandidate) (ctx : MemoryContext) (verdict : Verdict)
    (type : MemoryType) (tainted : Bool) (taintSources : List String) (now : Rat)
    (rid : String) : MemoryRecord where
  id := rid
  type := type
  content := candidate.content
  scope := ctx.scope
  provenance := provenanceOf candidate ctx tainted taintSources now
  confidence := verdict.confidence
  edges := verdict.relations.map (edgeOf rid now)

/-- Only an `UPDATES` relation supersedes, and only where `may_supersede` allows it. -/
def supersedeNeighbor (record : MemoryRecord) (r : Relation) : MemoryM Unit :=
  if r.relation = .updates ∧ supersedeBlockReason record r.neighbor = none then
    update (r.neighbor.supersede record.id)
  else pure ()

def persist (record : MemoryRecord) (supersede : List Relation) : MemoryM Unit := do
  put record
  supersede.forM (supersedeNeighbor record)

/-- `_build`, then `_persist`. -/
def store (host : Host) (candidate : MemoryCandidate) (ctx : MemoryContext) (verdict : Verdict)
    (type : MemoryType) (tainted : Bool) (taintSources : List String) : MemoryM MemoryRecord := do
  let now ← readClock host
  let rid ← newRecordId host
  let record := built candidate ctx verdict type tainted taintSources now rid
  persist record verdict.relations
  pure record

def neighborsOf (host : Host) (policy : WriteGatePolicy) (content : String)
    (ctx : MemoryContext) (records : Records) : List MemoryRecord :=
  ((records.search host.unicode content ctx.scope none (policy.relationK + 1) false).map
    Prod.fst).filter fun r => decide (r.scope.orgId = ctx.scope.orgId)

/-- `_final` -/
def WriteGate.final (gate : WriteGate) (verdict : Verdict) (record : Option MemoryRecord)
    (shadowOf : Option Verdict) : WriteOutcome :=
  let decided := shadowOf.getD verdict
  if gate.shadow then
    { status := .shadow
      recordId := record.map MemoryRecord.id
      type := record.map MemoryRecord.type
      edges := []
      backend := decided.backend
      reason := "verdict=" ++ decided.status.value ++ ":" ++
        (decided.type.map MemoryType.value).getD "-" ++ ":" ++ decided.reason }
  else
    { status := verdict.status
      recordId := record.map MemoryRecord.id
      type := verdict.type
      edges := if verdict.status = .stored then (record.map MemoryRecord.edges).getD [] else []
      backend := verdict.backend
      reason := verdict.reason }

def WriteGate.enforce (host : Host) (gate : WriteGate) (candidate : MemoryCandidate)
    (ctx : MemoryContext) (verdict : Verdict) (tainted : Bool) (taintSources : List String) :
    MemoryM (WriteOutcome × Option MemoryRecord) :=
  match verdict.status, verdict.type with
  | .stored, some type => do
    let record ← store host candidate ctx verdict type tainted taintSources
    pure (gate.final verdict (some record) none, some record)
  | _, _ => pure (gate.final verdict none none, none)

/-- In shadow mode the verdict is only reported, and the candidate is stored as by gate `off`. -/
def WriteGate.shadowed (host : Host) (gate : WriteGate) (candidate : MemoryCandidate)
    (ctx : MemoryContext) (verdict : Verdict) (tainted : Bool) (taintSources : List String) :
    MemoryM (WriteOutcome × Option MemoryRecord) := do
  let off := gateOff candidate tainted
  let type := downgrade tainted (candidate.suggestedType.getD .episodic)
  let record ← store host candidate ctx off type tainted taintSources
  pure (gate.final off (some record) (some verdict), some record)

def injectionFlag (flag : String) : String :=
  if "injection:".toList.isPrefixOf flag.toList then flag else "injection:" ++ flag

def taintSourcesOf (env : WriteEnv) (taintSources : List String) : List String :=
  if env.scanTainted then
    taintSources ++ (env.injectionFlags.map injectionFlag).filter fun f => decide (f ∉ taintSources)
  else taintSources

def WriteGate.admit (host : Host) (gate : WriteGate) (candidate : MemoryCandidate)
    (ctx : MemoryContext) (tainted : Bool) (taintSources : List String) (env : WriteEnv)
    (neighbors : List MemoryRecord) : MemoryM (WriteOutcome × Option MemoryRecord) :=
  let digest := contentHash host candidate.content
  match neighbors.find? fun r => decide (contentHash host r.content = digest) with
  | some dup =>
    pure (gate.final ⟨.merged, some dup.type, dup.confidence, "rule", "duplicate", []⟩ (some dup)
      none, some dup)
  | none =>
    let nearest := neighbors.take gate.policy.relationK
    let verdict := gate.verdict env candidate nearest tainted
    if gate.shadow then gate.shadowed host candidate ctx verdict tainted taintSources
    else gate.enforce host candidate ctx verdict tainted taintSources

def MemoryCandidate.withContent (c : MemoryCandidate) (content : String) : MemoryCandidate :=
  { c with content := content }

def WriteGate.evaluate (host : Host) (gate : WriteGate) (candidate : MemoryCandidate)
    (ctx : MemoryContext) (tainted : Bool) (taintSources : List String) (env : WriteEnv) :
    MemoryM (WriteOutcome × Option MemoryRecord) :=
  let content := host.sanitize candidate.content
  let why := bound gate.policy candidate.content content
  if why ≠ "" then pure (gate.final (skipped "rule" why) none none, none)
  else do
    let p ← get
    gate.admit host (candidate.withContent content) ctx (tainted || env.scanTainted)
      (taintSourcesOf env taintSources) env
      (neighborsOf host gate.policy content ctx p.vault.records)

def openGate : WriteGate where
  mode := .off
  shadow := false

def acmeContext : MemoryContext := ⟨acme, "s1", "planner", .low⟩

end Prismal.Memory
