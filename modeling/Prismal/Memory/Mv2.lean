import Prismal.Lib.JsonText
import Prismal.Memory.Types

namespace Prismal.Memory
open Prismal.Lib
set_option autoImplicit true

/-! The `mv2_*` fields that a record leaves in a store, and the facts that have none. -/

inductive BackendError where
  | keyError (recordId : String)
  | notForgetActor
  | scanLimit (maxScan : Nat)
  | notAValue (kind value : String)
  | unrelatedEdge
  | tenancy
  | batchSize
  deriving DecidableEq, Repr

def BackendError.message : BackendError → String
  | .keyError recordId => s!"'{recordId}'"
  | .notForgetActor => "purge requires a ForgetActor (only ForgetPolicy may call it)"
  | .scanLimit maxScan =>
    s!"memory scan exceeded max_scan={maxScan}; refusing a partial result"
  | .notAValue kind value => s!"'{value}' is not a valid {kind}"
  | .unrelatedEdge => "RelationKind.UNRELATED edges are never materialized"
  | .tenancy => "MemoryScope.org_id must be a non-empty string"
  | .batchSize => "batch_size must be > 0"

structure Mv2Edge where
  srcId : String
  dstId : String
  relation : String
  confidence : Rat
  validFrom : Rat
  validTo : Option Rat
  deriving DecidableEq

structure Mv2 where
  version : Nat
  id : String
  type : String
  org : String
  userId : Option String
  agent : Option String
  threadId : Option String
  prov : Provenance
  edges : List Mv2Edge
  supersededBy : Option String
  confidence : Rat
  recVersion : Int
  expiresAt : Option Rat
  legacyRef : Option String
  deriving DecidableEq

def mv2Version : Nat := 1

def legacyConfidence : Rat := 1 / 2

def MemoryEdge.toMv2 (e : MemoryEdge) : Mv2Edge where
  srcId := e.srcId
  dstId := e.dstId
  relation := e.relation.value
  confidence := e.confidence
  validFrom := e.validFrom
  validTo := e.validTo

def recordToMv2 (r : MemoryRecord) : Mv2 where
  version := mv2Version
  id := r.id
  type := r.type.value
  org := r.scope.orgId
  userId := r.scope.userId
  agent := r.scope.agent
  threadId := r.scope.threadId
  prov := r.provenance
  edges := r.edges.map MemoryEdge.toMv2
  supersededBy := r.supersededBy
  confidence := r.confidence
  recVersion := r.version
  expiresAt := r.expiresAt
  legacyRef := r.legacyRef

/-- `MemoryType(value)` -/
def MemoryType.ofValue (value : String) : Except BackendError MemoryType :=
  match MemoryType.all.find? fun t => decide (t.value = value) with
  | some t => .ok t
  | none => .error (.notAValue "MemoryType" value)

/-- `RelationKind(value)` -/
def RelationKind.ofValue (value : String) : Except BackendError RelationKind :=
  match RelationKind.all.find? fun k => decide (k.value = value) with
  | some k => .ok k
  | none => .error (.notAValue "RelationKind" value)

def scopeFromMv2 (m : Mv2) : Except BackendError MemoryScope :=
  if h : strip m.org ≠ "" then .ok ⟨m.org, m.userId, m.agent, m.threadId, h⟩ else .error .tenancy

def edgeFromMv2 (e : Mv2Edge) : Except BackendError MemoryEdge := do
  let relation ← RelationKind.ofValue e.relation
  if h : relation ≠ .unrelated then
    return ⟨e.srcId, e.dstId, relation, e.confidence, e.validFrom, e.validTo, h⟩
  else throw .unrelatedEdge

def edgesFromMv2 : List Mv2Edge → Except BackendError (List MemoryEdge)
  | [] => return []
  | e :: rest => do
    let edge ← edgeFromMv2 e
    let edges ← edgesFromMv2 rest
    return edge :: edges

def recordFromMv2 (m : Mv2) (content : String) : Except BackendError MemoryRecord := do
  let type ← MemoryType.ofValue m.type
  let scope ← scopeFromMv2 m
  let edges ← edgesFromMv2 m.edges
  return {
    id := m.id
    type := type
    content := content
    scope := scope
    provenance := m.prov
    confidence := m.confidence
    version := m.recVersion
    expiresAt := m.expiresAt
    supersededBy := m.supersededBy
    edges := edges
    legacyRef := m.legacyRef }

@[simp] theorem MemoryType.ofValue_value (t : MemoryType) : MemoryType.ofValue t.value = .ok t := by
  cases t <;> rfl

@[simp] theorem RelationKind.ofValue_value (k : RelationKind) :
    RelationKind.ofValue k.value = .ok k := by
  cases k <;> rfl

@[simp] theorem scopeFromMv2_recordToMv2 (r : MemoryRecord) :
    scopeFromMv2 (recordToMv2 r) = .ok r.scope := dif_pos r.scope.nonEmpty

@[simp] theorem edgeFromMv2_toMv2 (e : MemoryEdge) : edgeFromMv2 e.toMv2 = .ok e := by
  rw [edgeFromMv2, MemoryEdge.toMv2, RelationKind.ofValue_value]
  exact dif_pos e.related

@[simp] theorem edgesFromMv2_map (es : List MemoryEdge) :
    edgesFromMv2 (es.map MemoryEdge.toMv2) = .ok es := by
  induction es with
  | nil => rfl
  | cons e es ih =>
    rw [List.map_cons, edgesFromMv2, edgeFromMv2_toMv2, ih]
    rfl

@[simp] theorem recordFromMv2_recordToMv2 (r : MemoryRecord) (content : String) :
    recordFromMv2 (recordToMv2 r) content = .ok { r with content := content } := by
  have htype : MemoryType.ofValue (recordToMv2 r).type = .ok r.type :=
    MemoryType.ofValue_value r.type
  have hedges : edgesFromMv2 (recordToMv2 r).edges = .ok r.edges := edgesFromMv2_map r.edges
  rw [recordFromMv2, htype, scopeFromMv2_recordToMv2, hedges]
  rfl

/-- The annotation of a stored fact; `record_to_mv2` writes them all. -/
structure Annotation where
  mv2 : Mv2
  written : ∃ r, mv2 = recordToMv2 r

def MemoryRecord.annotation (r : MemoryRecord) : Annotation := ⟨recordToMv2 r, r, rfl⟩

theorem Annotation.readable (a : Annotation) (content : String) :
    ∃ r, recordFromMv2 a.mv2 content = .ok r ∧ r.content = content := by
  obtain ⟨m, r, rfl⟩ := a
  exact ⟨_, recordFromMv2_recordToMv2 r content, rfl⟩

abbrev OrgId := { org : String // strip org ≠ "" }

def legacyRecord (recordId content : String) (org : OrgId) (userId sessionId : Option String)
    (createdAt : Rat) (expiresAt : Option Rat) : MemoryRecord where
  id := recordId
  type := .semantic
  content := content
  scope := { orgId := org.1, userId := userId, nonEmpty := org.2 }
  provenance := {
    origin := .legacy
    sourceMessageIds := []
    sessionId := sessionId
    agent := none
    createdAt := createdAt
    tainted := false
    trust := .unknown }
  confidence := legacyConfidence
  expiresAt := expiresAt
  legacyRef := some recordId

end Prismal.Memory
