import Prismal.Decisions.Types
import Prismal.Lib.Text

namespace Prismal.Memory
open Prismal.Lib Prismal.Decisions
set_option autoImplicit true

inductive MemoryType where
  | episodic
  | semantic
  | procedural
  | preference
  deriving DecidableEq, Repr

def MemoryType.value : MemoryType → String
  | episodic => "episodic"
  | semantic => "semantic"
  | procedural => "procedural"
  | preference => "preference"

def MemoryType.all : List MemoryType := [.episodic, .semantic, .procedural, .preference]

/-- Relation between a new record and an existing neighbor. -/
inductive RelationKind where
  | supports
  | contradicts
  | updates
  | unrelated
  deriving DecidableEq, Repr

def RelationKind.value : RelationKind → String
  | supports => "supports"
  | contradicts => "contradicts"
  | updates => "updates"
  | unrelated => "unrelated"

def RelationKind.all : List RelationKind := [.supports, .contradicts, .updates, .unrelated]

inductive Origin where
  | conversation
  | tool
  | rag
  | a2a
  | consolidation
  | playbook
  | legacy
  | human
  deriving DecidableEq, Repr

inductive Trust where
  | trusted
  | untrusted
  | unknown
  deriving DecidableEq, Repr

inductive WriteStatus where
  | stored
  | merged
  | skipped
  | quarantined
  | shadow
  deriving DecidableEq, Repr

def WriteStatus.value : WriteStatus → String
  | stored => "stored"
  | merged => "merged"
  | skipped => "skipped"
  | quarantined => "quarantined"
  | shadow => "shadow"

/-- `f"mem_{now:016x}{rand}"` with five random bytes. -/
def recordId (now : Nat) (rand : BitVec 40) : String :=
  String.ofList ("mem_".toList ++ hex 16 now ++ hex 10 rand.toNat)

theorem recordId_injective (h : recordId now rand = recordId now' rand') : now = now' := by
  have hl := String.ofList_injective h
  have hlen : (hex 10 rand.toNat).length = (hex 10 rand'.toNat).length := by
    rw [hex_length (by omega), hex_length (by omega)]
  have hhead := (List.append_inj' hl hlen).1
  exact hex_injective (List.append_cancel_left hhead)

theorem recordId_ne_empty (now : Nat) (rand : BitVec 40) : recordId now rand ≠ "" := by
  intro h
  have hempty : "" = String.ofList [] := rfl
  have hl := String.ofList_injective (h.trans hempty)
  have hprefix := (List.append_eq_nil_iff.1 (List.append_eq_nil_iff.1 hl).1).1
  exact absurd hprefix (by decide)

/-- Tenancy key; the other fields narrow the scope. -/
structure MemoryScope where
  orgId : String
  userId : Option String := none
  agent : Option String := none
  threadId : Option String := none
  nonEmpty : strip orgId ≠ ""
  deriving DecidableEq

/-- `MemoryScope(org_id=scope.org_id)` -/
def MemoryScope.tenant (scope : MemoryScope) : MemoryScope where
  orgId := scope.orgId
  nonEmpty := scope.nonEmpty

def compatible (want have' : Option String) : Bool :=
  want.isNone || have'.isNone || decide (have' = want)

def MemoryScope.covers (request record : MemoryScope) : Bool :=
  decide (record.orgId = request.orgId) && compatible request.userId record.userId &&
    compatible request.agent record.agent && compatible request.threadId record.threadId

def demands (want have' : Option String) : Bool := want.isNone || decide (have' = want)

def withinErasureScope (selector record : MemoryScope) : Bool :=
  decide (record.orgId = selector.orgId) && demands selector.userId record.userId &&
    demands selector.agent record.agent && demands selector.threadId record.threadId

theorem covers_orgId {scope record : MemoryScope} (h : scope.covers record = true) :
    record.orgId = scope.orgId := by
  simp only [MemoryScope.covers, Bool.and_eq_true, decide_eq_true_eq] at h
  exact h.1.1.1

theorem compatible_of_demands (h : demands want have' = true) : compatible want have' = true := by
  rw [demands, Bool.or_eq_true] at h
  rw [compatible, Bool.or_assoc, Bool.or_eq_true, Bool.or_eq_true]
  exact h.imp_right Or.inr

theorem covers_of_within (h : withinErasureScope selector record = true) :
    selector.covers record = true := by
  simp only [withinErasureScope, Bool.and_eq_true] at h
  simp only [MemoryScope.covers, Bool.and_eq_true]
  obtain ⟨⟨⟨horg, huser⟩, hagent⟩, hthread⟩ := h
  exact ⟨⟨⟨horg, compatible_of_demands huser⟩, compatible_of_demands hagent⟩,
    compatible_of_demands hthread⟩

theorem compatible_of_demands_of_compatible (h : demands want have' = true)
    (hc : compatible other have' = true) : compatible want other = true := by
  rw [demands, Bool.or_eq_true, Option.isNone_iff_eq_none, decide_eq_true_eq] at h
  rw [compatible, Bool.or_eq_true, Bool.or_eq_true, Option.isNone_iff_eq_none,
    Option.isNone_iff_eq_none, decide_eq_true_eq] at hc ⊢
  rcases h with rfl | rfl
  · exact Or.inl (Or.inl rfl)
  · rcases hc with (hother | hnone) | heq
    · exact Or.inl (Or.inr hother)
    · exact Or.inl (Or.inl hnone)
    · exact Or.inr heq.symm

theorem covers_of_within_of_covers {scope holder record : MemoryScope}
    (h : withinErasureScope scope record = true) (hc : holder.covers record = true) :
    scope.covers holder = true := by
  simp only [withinErasureScope, MemoryScope.covers, Bool.and_eq_true, decide_eq_true_eq]
    at h hc ⊢
  obtain ⟨⟨⟨horg, huser⟩, hagent⟩, hthread⟩ := h
  obtain ⟨⟨⟨horg', huser'⟩, hagent'⟩, hthread'⟩ := hc
  exact ⟨⟨⟨horg'.symm.trans horg, compatible_of_demands_of_compatible huser huser'⟩,
    compatible_of_demands_of_compatible hagent hagent'⟩,
    compatible_of_demands_of_compatible hthread hthread'⟩

/-- Where a record came from and whether it can be trusted. -/
structure Provenance where
  origin : Origin
  sourceMessageIds : List String
  sessionId : Option String
  agent : Option String
  createdAt : Rat
  tainted : Bool
  trust : Trust
  taintSources : List String := []
  deriving DecidableEq

structure MemoryContext where
  scope : MemoryScope
  sessionId : String
  actor : String
  riskTier : RiskTier := .low

structure MemoryCandidate where
  content : String
  sourceMessageIds : List String
  origin : Origin := .conversation
  suggestedType : Option MemoryType := none

/-- A typed relation; invalidated through `validTo`, never deleted by consolidation. -/
structure MemoryEdge where
  srcId : String
  dstId : String
  relation : RelationKind
  confidence : Rat
  validFrom : Rat
  validTo : Option Rat := none
  related : relation ≠ .unrelated
  deriving DecidableEq

structure MemoryRecord where
  id : String
  type : MemoryType
  content : String
  scope : MemoryScope
  provenance : Provenance
  confidence : Rat
  version : Int := 1
  expiresAt : Option Rat := none
  supersededBy : Option String := none
  edges : List MemoryEdge := []
  legacyRef : Option String := none
  deriving DecidableEq

structure WriteOutcome where
  status : WriteStatus
  recordId : Option String
  type : Option MemoryType
  edges : List MemoryEdge
  backend : String
  reason : String

/-- `replace(record, superseded_by=winner)` -/
def MemoryRecord.supersede (r : MemoryRecord) (winner : String) : MemoryRecord :=
  { r with supersededBy := some winner }

/-- `replace(record, edges=edges)` -/
def MemoryRecord.withEdges (r : MemoryRecord) (edges : List MemoryEdge) : MemoryRecord :=
  { r with edges := edges }

structure ForgetSelector where
  recordIds : List String := []
  scope : Option MemoryScope := none
  types : Option (Finset MemoryType) := none
  olderThan : Option Rat := none
  includeDerived : Bool := true
  reason : String := ""
  sessionId : Option String := none
  deriving DecidableEq

inductive ActorKind where
  | rule
  | human
  | other
  deriving DecidableEq, Repr

def validActor (kind : ActorKind) (approvalId : Option String) : Bool :=
  decide (kind ≠ .human) || approvalId.any fun id => decide (id ≠ "")

structure ForgetActor where
  kind : ActorKind
  principal : String
  approvalId : Option String := none
  valid : validActor kind approvalId = true
  deriving DecidableEq

end Prismal.Memory
