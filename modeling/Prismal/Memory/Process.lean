import Prismal.Lib.State
import Prismal.Memory.Vault

namespace Prismal.Memory
open Prismal.Lib
set_option autoImplicit true

/-- What the process draws from its surroundings; readings are numbered. -/
structure Host where
  unicode : Unicode
  /-- secret redaction, then PII placeholders -/
  sanitize : String → String
  sha256 : String → String
  timeNs : Nat → Nat
  urandom : Nat → BitVec 40
  clock : Nat → Rat

inductive RequestStatus where
  | pending
  | approved
  | rejected
  | executed
  deriving DecidableEq, Repr

structure ForgetRequest where
  requestId : String
  selector : ForgetSelector
  createdAt : Rat
  requestedBy : String
  status : RequestStatus
  approvedBy : Option String := none

/-- What happened at the door of the forget policy. -/
inductive Event where
  | requested (id : String) (selector : ForgetSelector) (requester : String)
  | approved (id principal : String)
  | rejected (id : String)
  | issued (rules : List ForgetSelector)
  | consumed (selector : ForgetSelector)
  | purged (selector : ForgetSelector) (actor : ForgetActor) (ids : List String)
  | completed (id : String)

/-- The state of `ForgetPolicy`; the history is a ghost. -/
structure ForgetPolicy where
  requests : Dict String ForgetRequest := ∅
  issuedRules : Finset ForgetSelector := ∅
  pendingDerived : Dict MemoryScope (Dict String Bool) := ∅
  history : List Event := []

/-- One process: the memory, the forget policy and the consolidator's watermarks. -/
structure Process where
  vault : Vault := {}
  forget : ForgetPolicy := {}
  watermarks : Dict MemoryScope Rat := ∅
  idDraws : Nat := 0
  clockReads : Nat := 0

inductive Fault where
  | keyError (id : String)
  | unpackError
  | tenancy
  | denied (actor reason : String)
  | notPending (id : String)
  | erasureIncomplete (errors : Nat)
  /-- an injected callable raised -/
  | callback
  deriving DecidableEq, Repr

abbrev MemoryM := EStateM Fault Process

namespace Process

def onVault (p : Process) (f : Vault → Vault) : Process := { p with vault := f p.vault }

def onForget (p : Process) (f : ForgetPolicy → ForgetPolicy) : Process :=
  { p with forget := f p.forget }

def tick (p : Process) : Process := { p with clockReads := p.clockReads + 1 }

def drew (p : Process) (n : Nat) : Process :=
  { p with vault := p.vault.draw n, idDraws := p.idDraws + 1 }

def setWatermark (p : Process) (scope : MemoryScope) (t : Rat) : Process :=
  { p with watermarks := p.watermarks.set scope t }

end Process

/-- `self._clock()` -/
def readClock (host : Host) : MemoryM Rat := do
  let p ← get
  modify Process.tick
  pure (host.clock p.clockReads)

def newRecordId (host : Host) : MemoryM String := do
  let p ← get
  let now := max (host.timeNs p.idDraws) (p.vault.lastId + 1)
  modify fun p => p.drew now
  pure (recordId now (host.urandom p.idDraws))

def put (r : MemoryRecord) : MemoryM Unit := modify fun p => p.onVault fun v => v.put r

def putSummary (r : MemoryRecord) : MemoryM Unit :=
  modify fun p => p.onVault fun v => v.putSummary r

def fetch (id : String) (scope : MemoryScope) : MemoryM (Option MemoryRecord) := do
  let p ← get
  pure (p.vault.records.get id scope)

def update (r : MemoryRecord) : MemoryM Unit := do
  let p ← get
  if r.id ∈ p.vault.records then modify fun p => p.onVault fun v => v.store r
  else throw (.keyError r.id)

/-- What a computation that works by lawful effects and purges nothing may have done since `p₀`. -/
structure Steady (p₀ p : Process) : Prop where
  reach : Reach p.vault
  moves : Moves p₀.vault p.vault
  forget : p.forget = p₀.forget
  watermarks : p.watermarks = p₀.watermarks
  purged : p.vault.purged = p₀.vault.purged

theorem Steady.written (h : Steady p₀ p) (id : String) (q : MemoryRecord)
    (hq : p₀.vault.written.get? id = some q) : p.vault.written.get? id = some q :=
  h.moves.later.written id q hq

theorem Steady.trans (h : Steady p₀ p) (h' : Steady p q) : Steady p₀ q where
  reach := h'.reach
  moves := h.moves.trans h'.moves
  forget := h'.forget.trans h.forget
  watermarks := h'.watermarks.trans h.watermarks
  purged := h'.purged.trans h.purged

theorem Steady.refl (h : Reach p.vault) : Steady p p := ⟨h, .refl _, rfl, rfl, rfl⟩

theorem Steady.touch (h : Steady p₀ p) (ht : Proper p.vault t)
    (hp : (p.vault.touch t).purged = p.vault.purged) :
    Steady p₀ (p.onVault fun v => v.touch t) where
  reach := h.reach.touch ht
  moves := h.moves.touch ht
  forget := h.forget
  watermarks := h.watermarks
  purged := hp.trans h.purged

def Holds (rs : List MemoryRecord) (p : Process) : Prop :=
  ∀ r ∈ rs, p.vault.records.get? r.id = some r

section Effects

variable {p₀ : Process} {host : Host} {rs : List MemoryRecord}
  {E : Fault → Process → Prop} {P : Process → Prop}

theorem holds_nil : Holds [] p := by
  intro r h
  cases h

theorem Holds.cons (h : p.vault.records.get? r.id = some r) (hs : Holds rs p) :
    Holds (r :: rs) p := by
  intro q hq
  rcases List.mem_cons.1 hq with rfl | hq
  · exact h
  · exact hs q hq

theorem Holds.tail (h : Holds (r :: rs) p) : Holds rs p :=
  fun q hq => h q (List.mem_cons_of_mem _ hq)

theorem Holds.head (h : Holds (r :: rs) p) : p.vault.records.get? r.id = some r :=
  h r List.mem_cons_self

theorem Holds.store (h : Holds rs p) (hne : ∀ q ∈ rs, r.id ≠ q.id) :
    Holds rs (p.onVault fun v => v.store r) := by
  intro q hq
  change (p.vault.records.put r).get? q.id = some q
  rw [Records.get?_put, if_neg (hne q hq)]
  exact h q hq

theorem Holds.put (h : Holds rs p) (hne : ∀ q ∈ rs, r.id ≠ q.id) :
    Holds rs (p.onVault fun v => v.put r) := h.store hne

/-- Active stored records with different ids: what a search returns. -/
structure Neighbors (ns : List MemoryRecord) (p : Process) : Prop where
  holds : Holds ns p
  nodup : (ns.map MemoryRecord.id).Nodup
  active : ∀ n ∈ ns, n.supersededBy = none

theorem Neighbors.sublist (h : Neighbors ns p) (hs : ms.Sublist ns) : Neighbors ms p where
  holds r hr := h.holds r (hs.subset hr)
  nodup := h.nodup.sublist (hs.map _)
  active n hn := h.active n (hs.subset hn)

theorem Steady.mem_written (h : Steady p₀ p) (hr : p.vault.records.get? r.id = some r) :
    r.id ∈ p.vault.written := by
  obtain ⟨q, hq, -⟩ := h.reach.origin hr
  exact Dict.mem_of_get? hq

theorem readClock_spec (hP : ∀ p, P p → P p.tick) :
    Spec P (readClock host) (fun _ => P) E := by
  apply Spec.bind (Spec.get (Q := fun _ p => P p) fun _ h => h)
  intro p
  apply Spec.bind (Spec.modify (Q := fun _ => P) hP)
  intro _
  exact Spec.pure fun _ h => h

theorem Steady.tick (h : Steady p₀ p) : Steady p₀ p.tick :=
  ⟨h.reach, h.moves, h.forget, h.watermarks, h.purged⟩

theorem newRecordId_spec (host : Host) :
    Spec (fun p => Steady p₀ p ∧ Holds rs p) (newRecordId host)
      (fun id p => (Steady p₀ p ∧ Holds rs p) ∧
        (∃ rand, id = recordId p.vault.lastId rand) ∧ id ∉ p.vault.written) E := by
  intro p hp
  have hlt : p.vault.lastId < max (host.timeNs p.idDraws) (p.vault.lastId + 1) := by omega
  have hdrawn := hp.1.touch (t := .draw (max (host.timeNs p.idDraws) (p.vault.lastId + 1)))
    (.draw hlt) rfl
  exact ⟨⟨⟨hdrawn.reach, hdrawn.moves, hp.1.forget, hp.1.watermarks, hp.1.purged⟩, hp.2⟩,
    ⟨_, rfl⟩, hp.1.reach.fresh hlt⟩

theorem fetch_spec (scope : MemoryScope) (id : String) :
    Spec (Steady p₀) (fetch id scope)
      (fun found p => Steady p₀ p ∧ p.vault.records.get id scope = found) E :=
  fun _ h => ⟨h, rfl⟩

theorem update_ok {r : MemoryRecord} {q : MemoryRecord}
    (h : p.vault.records.get? r.id = some q) :
    update r p = .ok ⟨⟩ (p.onVault fun v => v.store r) := by
  have hm : r.id ∈ p.vault.records := Dict.mem_of_get? h
  change (if r.id ∈ p.vault.records then
    (modify fun p => p.onVault fun v => v.store r : MemoryM Unit)
    else throw (.keyError r.id)) p = _
  rw [if_pos hm]
  rfl

end Effects

def plainHost : Host where
  unicode := ⟨fun c => c.isAlphanum, id, id⟩
  sanitize := id
  sha256 := id
  timeNs := id
  urandom := fun _ => 0
  clock := fun n => n

def acme : MemoryScope where
  orgId := "acme"
  nonEmpty := by decide +kernel

end Prismal.Memory
