import Mathlib.Algebra.Order.Ring.Rat
import Prismal.Lib.Dict
import Prismal.Utils.TokenEstimate

namespace Prismal.Agents
open Prismal.Lib Prismal.Utils
set_option autoImplicit true

/-! The artifact store: large outputs are parked under the tenant and the run that made them, and
read back in slices. -/

structure ArtifactRef where
  id : String
  runId : String
  tenant : String
  tool : Option String
  tokensEstimate : Nat
  createdAt : Rat
  kind : String
  deriving DecidableEq, Repr

structure ArtifactSlice where
  ref : ArtifactRef
  content : String
  start : Nat
  stop : Nat
  totalChars : Nat
  deriving DecidableEq, Repr

/-- `_Record` -/
structure ArtifactRecord where
  ref : ArtifactRef
  content : String
  expiresAt : Option Rat
  deriving DecidableEq, Repr

inductive ArtifactError where
  | notFound
  | negativeTtl
  | integrity
  deriving DecidableEq, Repr

def ArtifactRecord.expired (r : ArtifactRecord) (now : Rat) : Bool :=
  r.expiresAt.any fun at' => decide (at' ≤ now)

/-- `content[start:end]`, clamped. -/
def ArtifactRecord.slice (r : ArtifactRecord) (start : Int) (stop : Option Int) : ArtifactSlice :=
  let total := r.content.toList.length
  let lo := min start.toNat total
  let hi := match stop with
    | none => total
    | some stop => min (max stop lo).toNat total
  { ref := r.ref
    content := String.ofList ((r.content.toList.drop lo).take (hi - lo))
    start := lo
    stop := hi
    totalChars := total }

/-- What an adapter supplies. A save reports the ids that it evicts. -/
structure ArtifactAdapter (σ : Type) where
  save : σ → ArtifactRecord → Except ArtifactError (σ × List String)
  load : σ → String → Option ArtifactRecord
  deleteExpired : σ → Rat → σ × Nat

/-! The adapter in memory. -/

/-- The records, oldest first, with the ids of every tenant. -/
structure ArtifactMemory where
  maxRecords : Nat := 10000
  maxRecordsPerTenant : Nat := 1000
  records : Dict String ArtifactRecord := ∅
  tenantIds : Dict String (List String) := ∅

namespace ArtifactMemory

def idsOf (m : ArtifactMemory) (tenant : String) : List String := (m.tenantIds.get? tenant).getD []

def trimTenant (share : Nat) (records : Dict String ArtifactRecord) :
    List String → Dict String ArtifactRecord × List String × List String
  | [] => (records, [], [])
  | id :: ids =>
    if share < ids.length + 1 then
      let trimmed := trimTenant share (records.erase id) ids
      (trimmed.1, trimmed.2.1, id :: trimmed.2.2)
    else (records, id :: ids, [])

/-- `_forget` -/
def forget (m : ArtifactMemory) (id : String) : ArtifactMemory :=
  match m.records.get? id with
  | none => m
  | some r =>
    { m with
      records := m.records.erase id
      tenantIds := match m.tenantIds.get? r.ref.tenant with
        | none => m.tenantIds
        | some ids => m.tenantIds.set r.ref.tenant (ids.erase id) }

def trimOldest (m : ArtifactMemory) : List String → ArtifactMemory × List String
  | [] => (m, [])
  | id :: ids =>
    if m.maxRecords < m.records.entries.length then
      let trimmed := trimOldest (m.forget id) ids
      (trimmed.1, id :: trimmed.2)
    else (m, [])

def save (m : ArtifactMemory) (r : ArtifactRecord) : ArtifactMemory × List String :=
  let trimmed := trimTenant m.maxRecordsPerTenant (m.records.set r.ref.id r)
    (m.idsOf r.ref.tenant ++ [r.ref.id])
  let shared : ArtifactMemory :=
    { m with records := trimmed.1, tenantIds := m.tenantIds.set r.ref.tenant trimmed.2.1 }
  let bounded := shared.trimOldest shared.records.keys
  (bounded.1, trimmed.2.2 ++ bounded.2)

def expiredIds (m : ArtifactMemory) (now : Rat) : List String :=
  (m.records.entries.filter fun e => e.2.expired now).map Prod.fst

def deleteExpired (m : ArtifactMemory) (now : Rat) : ArtifactMemory × Nat :=
  ((m.expiredIds now).foldl forget m, (m.expiredIds now).length)

def adapter : ArtifactAdapter ArtifactMemory where
  save m r := .ok (m.save r)
  load m id := m.records.get? id
  deleteExpired := deleteExpired

end ArtifactMemory

/-! The adapter on a database. -/

/-- A row of the table `artifacts`. -/
structure ArtifactRow where
  id : String
  runId : String
  tenant : String
  tool : Option String
  kind : String
  tokensEstimate : Nat
  createdAt : Rat
  expiresAt : Option Rat
  content : String
  deriving DecidableEq, Repr

namespace ArtifactTable

def rowOf (r : ArtifactRecord) : ArtifactRow :=
  ⟨r.ref.id, r.ref.runId, r.ref.tenant, r.ref.tool, r.ref.kind, r.ref.tokensEstimate,
    r.ref.createdAt, r.expiresAt, r.content⟩

def recordOf (row : ArtifactRow) : ArtifactRecord where
  ref := ⟨row.id, row.runId, row.tenant, row.tool, row.tokensEstimate, row.createdAt, row.kind⟩
  content := row.content
  expiresAt := row.expiresAt

/-- `INSERT`; the id is the primary key. -/
def save (rows : List ArtifactRow) (r : ArtifactRecord) :
    Except ArtifactError (List ArtifactRow × List String) :=
  if rows.any fun row => row.id == r.ref.id then .error .integrity
  else .ok (rows ++ [rowOf r], [])

/-- `SELECT … WHERE id = ?` -/
def load (rows : List ArtifactRow) (id : String) : Option ArtifactRecord :=
  (rows.find? fun row => row.id == id).map recordOf

/-- `DELETE … WHERE expires_at IS NOT NULL AND expires_at <= ?` -/
def deleteExpired (rows : List ArtifactRow) (now : Rat) : List ArtifactRow × Nat :=
  let gone := fun row : ArtifactRow => row.expiresAt.any fun at' => decide (at' ≤ now)
  (rows.filter fun row => !gone row, (rows.filter gone).length)

def adapter : ArtifactAdapter (List ArtifactRow) where
  save := save
  load := load
  deleteExpired := deleteExpired

end ArtifactTable

/-! The store over an adapter. -/

/-- What is put, with the id that is drawn for it and the time of the clock. -/
structure ArtifactPut where
  content : String
  runId : String
  tenant : String
  kind : String
  tool : Option String := none
  ttlS : Option Int := none
  id : String
  now : Rat

structure ArtifactGet where
  id : String
  runId : String
  tenant : String
  start : Int := 0
  stop : Option Int := none
  now : Rat

inductive ArtifactOp where
  | put (p : ArtifactPut)
  | get (g : ArtifactGet)
  | purgeExpired (now : Rat)

inductive ArtifactEvent where
  | stored (r : ArtifactRecord)
  | evicted (id : String) (tenant : String)
  | purged (now : Rat)
  deriving DecidableEq, Repr

def purgeIntervalS : Rat := 60

/-- `_BaseArtifactStore`, with what has happened so far. -/
structure ArtifactStore (σ : Type) where
  backend : σ
  artifactTtlS : Int
  lastPurge : Rat
  trace : List ArtifactEvent := []

def ArtifactPut.record (p : ArtifactPut) (ttl : Int) : ArtifactRecord where
  ref :=
    { id := p.id
      runId := p.runId
      tenant := p.tenant
      tool := p.tool
      tokensEstimate := estimateTokens p.content
      createdAt := p.now
      kind := p.kind }
  content := p.content
  expiresAt := if ttl = 0 then none else some (p.now + ttl)

namespace ArtifactStore

variable (A : ArtifactAdapter σ)

def purgeExpired (s : ArtifactStore σ) (now : Rat) : ArtifactStore σ :=
  { s with backend := (A.deleteExpired s.backend now).1, trace := s.trace ++ [.purged now] }

def maybePurge (s : ArtifactStore σ) (now : Rat) : ArtifactStore σ :=
  if purgeIntervalS ≤ now - s.lastPurge then { s.purgeExpired A now with lastPurge := now } else s

def put (s : ArtifactStore σ) (p : ArtifactPut) :
    ArtifactStore σ × Except ArtifactError ArtifactRef :=
  let ttl := p.ttlS.getD s.artifactTtlS
  if ttl < 0 then (s, .error .negativeTtl)
  else
    let s := s.maybePurge A p.now
    match A.save s.backend (p.record ttl) with
    | .error e => (s, .error e)
    | .ok (backend, evicted) =>
      ({ s with
          backend := backend
          trace := s.trace ++ .stored (p.record ttl) :: evicted.map (.evicted · p.tenant) },
        .ok (p.record ttl).ref)

def get (s : ArtifactStore σ) (g : ArtifactGet) : Except ArtifactError ArtifactSlice :=
  match (A.load s.backend g.id).filter fun r => !r.expired g.now with
  | none => .error .notFound
  | some r =>
    if r.ref.tenant ≠ g.tenant ∨ r.ref.runId ≠ g.runId then .error .notFound
    else .ok (r.slice g.start g.stop)

def step (s : ArtifactStore σ) : ArtifactOp → ArtifactStore σ
  | .put p => (s.put A p).1
  | .get _ => s
  | .purgeExpired now => s.purgeExpired A now

def run (s : ArtifactStore σ) (ops : List ArtifactOp) : ArtifactStore σ := ops.foldl (step A) s

end ArtifactStore

def drawnIds (ops : List ArtifactOp) : List String :=
  ops.filterMap fun
    | .put p => some p.id
    | _ => none

end Prismal.Agents
