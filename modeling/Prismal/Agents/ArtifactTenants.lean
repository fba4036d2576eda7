import Prismal.Agents.ArtifactRuns
import Prismal.Lib.Lists

namespace Prismal.Agents
open Prismal.Lib
set_option autoImplicit true

/-! Evictions across tenants. -/

variable {m : ArtifactMemory} {s : ArtifactStore ArtifactMemory} {tenants : List String}
  {r q : ArtifactRecord} {p : ArtifactPut} {ops : List ArtifactOp} {now : Rat}
  {id : String} {maxRecords share : Nat}

namespace ArtifactMemory

theorem length_le_shares (h : m.Indexed) (hshared : ∀ tenant, (m.idsOf tenant).length ≤ n)
    (htenants : ∀ id r, m.records.get? id = some r → r.ref.tenant ∈ tenants) :
    m.records.entries.length ≤ tenants.length * n := by
  apply length_le_of_classes (f := fun e => e.2.ref.tenant)
  · intro e he
    exact htenants e.1 e.2 (Dict.get?_eq_some.2 he)
  · intro tenant
    have hlen := hshared tenant
    rw [h.index, ownIds, List.length_map] at hlen
    exact hlen

theorem mem_evicted_save (h : m.Sound) (hnew : r.ref.id ∉ m.records)
    (hroom : tenants.length * m.maxRecordsPerTenant ≤ m.maxRecords)
    (htenants : ∀ id q, m.records.get? id = some q → q.ref.tenant ∈ tenants)
    (hr : r.ref.tenant ∈ tenants) (hid : id ∈ (m.save r).2) :
    id = r.ref.id ∨ ∃ q, m.records.get? id = some q ∧ q.ref.tenant = r.ref.tenant := by
  have hindexed := h.indexed.withinShare hnew
  have hlen : (m.withinShare r).records.entries.length ≤
      tenants.length * m.maxRecordsPerTenant := by
    apply length_le_shares hindexed (length_withinShare h.shared r)
    intro id q hq
    obtain ⟨hq, -⟩ := (get?_without _ _ _).1 hq
    rw [Dict.get?_set] at hq
    split at hq
    · cases hq
      exact hr
    · exact htenants id q hq
  have hsurplus : (m.withinShare r).surplus = [] := by
    have hmax : (m.withinShare r).maxRecords = m.maxRecords := rfl
    rw [surplus, hmax, Dict.keys, List.length_map, Nat.sub_eq_zero_of_le (hlen.trans hroom),
      List.take_zero]
  rw [save_eq, trimOldest_eq hindexed rfl, hsurplus, List.append_nil] at hid
  rcases List.mem_append.1 (List.mem_of_mem_take hid) with hmem | hmem
  · right
    rw [h.indexed.index] at hmem
    exact mem_ownIds.1 hmem
  · exact Or.inl (List.mem_singleton.1 hmem)

theorem caps_trimOldest (m : ArtifactMemory) (ids : List String) :
    (m.trimOldest ids).1.maxRecords = m.maxRecords ∧
      (m.trimOldest ids).1.maxRecordsPerTenant = m.maxRecordsPerTenant := by
  induction ids generalizing m with
  | nil => exact ⟨rfl, rfl⟩
  | cons id ids ih =>
    rw [trimOldest]
    split
    · obtain ⟨hmax, hshare⟩ := ih (m.forget id)
      obtain ⟨hmax', hshare'⟩ := maxRecords_forget m id
      exact ⟨hmax.trans hmax', hshare.trans hshare'⟩
    · exact ⟨rfl, rfl⟩

end ArtifactMemory

namespace ArtifactStore

def Caps (maxRecords share : Nat) (s : ArtifactStore ArtifactMemory) : Prop :=
  s.backend.maxRecords = maxRecords ∧ s.backend.maxRecordsPerTenant = share

theorem Caps.purgeExpired (h : Caps maxRecords share s) (now : Rat) :
    Caps maxRecords share (s.purgeExpired ArtifactMemory.adapter now) := by
  have hcaps := ArtifactMemory.caps_forgetAll s.backend (s.backend.expiredIds now)
  exact ⟨hcaps.1.trans h.1, hcaps.2.trans h.2⟩

theorem Caps.maybePurge (h : Caps maxRecords share s) (now : Rat) :
    Caps maxRecords share (s.maybePurge ArtifactMemory.adapter now) := by
  rw [ArtifactStore.maybePurge]
  split
  · exact h.purgeExpired now
  · exact h

theorem Caps.put (h : Caps maxRecords share s) (p : ArtifactPut) :
    Caps maxRecords share (s.put ArtifactMemory.adapter p).1 := by
  rw [ArtifactStore.put]
  dsimp only
  split
  · exact h
  · obtain ⟨hmax, hshare⟩ := h.maybePurge p.now
    have hcaps := ArtifactMemory.caps_trimOldest
    exact ⟨(hcaps _ _).1.trans hmax, (hcaps _ _).2.trans hshare⟩

theorem Caps.run (h : Caps maxRecords share s) (ops : List ArtifactOp) :
    Caps maxRecords share (s.run ArtifactMemory.adapter ops) := by
  induction ops generalizing s with
  | nil => exact h
  | cons op ops ih =>
    apply ih
    cases op with
    | put p => exact h.put p
    | get g => exact h
    | purgeExpired now => exact h.purgeExpired now

def Isolated (s : ArtifactStore ArtifactMemory) : Prop :=
  ∀ id tenant, .evicted id tenant ∈ s.trace →
    ∃ r, .stored r ∈ s.trace ∧ r.ref.id = id ∧ r.ref.tenant = tenant

theorem Isolated.purgeExpired (h : Isolated s) (now : Rat) :
    Isolated (s.purgeExpired ArtifactMemory.adapter now) := by
  intro id tenant he
  rcases List.mem_append.1 he with he | he
  · obtain ⟨r, hr, hrest⟩ := h id tenant he
    exact ⟨r, List.mem_append_left _ hr, hrest⟩
  · cases List.mem_singleton.1 he

theorem Isolated.maybePurge (h : Isolated s) (now : Rat) :
    Isolated (s.maybePurge ArtifactMemory.adapter now) := by
  rw [ArtifactStore.maybePurge]
  split
  · exact h.purgeExpired now
  · exact h

theorem Faithful.tenant_mem {σ : Type} {A : ArtifactAdapter σ} {Good : σ → Prop}
    {s : ArtifactStore σ} (h : Faithful A Good ops s)
    (htenants : ∀ p, .put p ∈ ops → p.tenant ∈ tenants) (hr : .stored r ∈ s.trace) :
    r.ref.tenant ∈ tenants := by
  obtain ⟨p, hp, -, rfl⟩ := (h.stored r).1 hr
  exact htenants p hp

theorem Isolated.put (h : Isolated s)
    (hs : Faithful ArtifactMemory.adapter ArtifactMemory.Sound ops s)
    (hcaps : Caps maxRecords share s) (hroom : tenants.length * share ≤ maxRecords)
    (htenants : ∀ q, .put q ∈ ops ++ [.put p] → q.tenant ∈ tenants)
    (hnew : p.id ∉ drawnIds ops) : Isolated (s.put ArtifactMemory.adapter p).1 := by
  rcases hs.put_cases ArtifactMemory.lawful hnew with
    ⟨-, hsame⟩ | ⟨-, backend, evicted, hsave, hput, -, -⟩
  · rw [hsame]
    exact h
  · have hpurged := hs.maybePurge ArtifactMemory.lawful p.now
    obtain ⟨hmax, hshare⟩ := hcaps.maybePurge p.now
    obtain ⟨-, hevicted⟩ := Prod.mk.inj (Except.ok.inj hsave)
    rw [hput]
    intro id tenant he
    rcases List.mem_append.1 he with he | he
    · obtain ⟨r, hr, hrest⟩ := h.maybePurge p.now id tenant he
      exact ⟨r, List.mem_append_left _ hr, hrest⟩
    · rcases List.mem_cons.1 he with he | he
      · cases he
      · obtain ⟨id', hid, heq⟩ := List.mem_map.1 he
        cases heq
        rw [← hevicted] at hid
        have hshares : tenants.length *
            (s.maybePurge ArtifactMemory.adapter p.now).backend.maxRecordsPerTenant ≤
              (s.maybePurge ArtifactMemory.adapter p.now).backend.maxRecords := by
          rw [hmax, hshare]
          exact hroom
        have howner := ArtifactMemory.mem_evicted_save hpurged.good
          (Dict.get?_eq_none.1 (hpurged.load_new hnew)) hshares
          (fun id q hq => hpurged.tenant_mem (fun q hq => htenants q (List.mem_append_left _ hq))
            ((hpurged.loads id q).1 hq).1.stored)
          (htenants p (List.mem_append_right _ (List.mem_singleton_self _))) hid
        rcases howner with hown | ⟨q, hq, htenant⟩
        · exact ⟨_, List.mem_append_right _ List.mem_cons_self, hown.symm, rfl⟩
        · obtain ⟨hstanding, hqid⟩ := (hpurged.loads id q).1 hq
          exact ⟨q, List.mem_append_left _ hstanding.stored, hqid, htenant⟩

theorem Isolated.run (h : Isolated s)
    (hs : Faithful ArtifactMemory.adapter ArtifactMemory.Sound [] s)
    (hcaps : Caps maxRecords share s) (hroom : tenants.length * share ≤ maxRecords)
    (htenants : ∀ p, .put p ∈ ops → p.tenant ∈ tenants) (hfresh : (drawnIds ops).Nodup) :
    Isolated (s.run ArtifactMemory.adapter ops) := by
  induction ops using List.reverseRecOn with
  | nil => exact h
  | append_singleton ops op ih =>
    have hdrawn : (drawnIds ops).Nodup :=
      hfresh.sublist ((List.sublist_append_left ops [op]).filterMap _)
    have hisolated := ih (fun p hp => htenants p (List.mem_append_left _ hp)) hdrawn
    rw [run_concat]
    cases op with
    | put p =>
      apply hisolated.put (hs.run ArtifactMemory.lawful hdrawn) (hcaps.run ops) hroom htenants
      intro hmem
      rw [drawnIds_concat_put, List.nodup_append] at hfresh
      exact hfresh.2.2 p.id hmem p.id (List.mem_singleton_self _) rfl
    | get g => exact hisolated
    | purgeExpired now => exact hisolated.purgeExpired now

/-! The database evicts nothing. -/

theorem evicts_nothing {rows rows' : List ArtifactRow} {evicted : List String}
    (h : ArtifactTable.adapter.save rows r = .ok (rows', evicted)) : evicted = [] := by
  rw [show ArtifactTable.adapter.save = ArtifactTable.save from rfl, ArtifactTable.save] at h
  split at h
  · cases h
  · cases h
    rfl

theorem not_evicted_run {s : ArtifactStore (List ArtifactRow)}
    (h : ∀ id tenant, .evicted id tenant ∉ s.trace) (ops : List ArtifactOp) (id tenant : String) :
    .evicted id tenant ∉ (s.run ArtifactTable.adapter ops).trace := by
  induction ops generalizing s with
  | nil => exact h id tenant
  | cons op ops ih =>
    have hpurge : ∀ now id tenant,
        .evicted id tenant ∉ (s.purgeExpired ArtifactTable.adapter now).trace := by
      intro now id tenant he
      rcases List.mem_append.1 he with he | he
      · exact h id tenant he
      · cases List.mem_singleton.1 he
    apply ih
    cases op with
    | put p =>
      have hmaybe : ∀ id tenant,
          .evicted id tenant ∉ (s.maybePurge ArtifactTable.adapter p.now).trace := by
        rw [ArtifactStore.maybePurge]
        split
        · exact hpurge p.now
        · exact h
      rw [step, ArtifactStore.put]
      dsimp only
      split
      · exact h
      · split
        · exact hmaybe
        · next hsave =>
          rw [evicts_nothing hsave]
          intro id tenant he
          rcases List.mem_append.1 he with he | he
          · exact hmaybe id tenant he
          · cases List.mem_singleton.1 he
    | get g => exact h
    | purgeExpired now => exact hpurge now

/-- `InMemoryArtifactStore` -/
def inMemory (maxRecords share : Nat) (ttl : Int) (lastPurge : Rat) :
    ArtifactStore ArtifactMemory where
  backend := { maxRecords := maxRecords, maxRecordsPerTenant := share }
  artifactTtlS := ttl
  lastPurge := lastPurge

/-- `SqliteArtifactStore` -/
def sqlite (ttl : Int) (lastPurge : Rat) : ArtifactStore (List ArtifactRow) where
  backend := []
  artifactTtlS := ttl
  lastPurge := lastPurge

theorem faithful_inMemory (maxRecords share : Nat) (ttl : Int) (lastPurge : Rat) :
    Faithful ArtifactMemory.adapter ArtifactMemory.Sound []
      (inMemory maxRecords share ttl lastPurge) := by
  refine ⟨ArtifactMemory.sound_empty maxRecords share, ?_, ?_⟩
  · intro id r
    exact iff_of_false nofun fun h => List.not_mem_nil h.1.stored
  · intro r
    exact iff_of_false List.not_mem_nil fun ⟨p, hp, _⟩ => List.not_mem_nil hp

theorem faithful_sqlite (ttl : Int) (lastPurge : Rat) :
    Faithful ArtifactTable.adapter ArtifactTable.Keyed [] (sqlite ttl lastPurge) := by
  refine ⟨List.nodup_nil, ?_, ?_⟩
  · intro id r
    exact iff_of_false nofun fun h => List.not_mem_nil h.1.stored
  · intro r
    exact iff_of_false List.not_mem_nil fun ⟨p, hp, _⟩ => List.not_mem_nil hp

/-- Both stores read back what was put under the tenant and the run, as long as it was neither
evicted nor expired at the read or at a purge; the one in memory is indexed, within its caps, and
its tenants evict what is their own. -/
theorem artifact_stores (maxRecords share : Nat) (ttl : Int) (lastPurge : Rat)
    (hfresh : (drawnIds ops).Nodup) :
    let memory := (inMemory maxRecords share ttl lastPurge).run ArtifactMemory.adapter ops
    let table := (sqlite ttl lastPurge).run ArtifactTable.adapter ops
    (Exact ArtifactMemory.adapter memory ∧ Exact ArtifactTable.adapter table) ∧
      (∀ r, (.stored r ∈ memory.trace ↔ WasPut ttl ops r) ∧
        (.stored r ∈ table.trace ↔ WasPut ttl ops r)) ∧
      (∀ id tenant, .evicted id tenant ∉ table.trace) ∧
      (memory.backend.Sound ∧ Caps maxRecords share memory) ∧
      ∀ tenants : List String, (∀ p, .put p ∈ ops → p.tenant ∈ tenants) →
        tenants.length * share ≤ maxRecords → ∀ id tenant, .evicted id tenant ∈ memory.trace →
          ∀ r, .stored r ∈ memory.trace → r.ref.id = id → r.ref.tenant = tenant := by
  dsimp only
  have hmemory := (faithful_inMemory maxRecords share ttl lastPurge).run ArtifactMemory.lawful hfresh
  have htable := (faithful_sqlite ttl lastPurge).run ArtifactTable.lawful hfresh
  have hcaps : Caps maxRecords share (inMemory maxRecords share ttl lastPurge) := ⟨rfl, rfl⟩
  refine ⟨⟨hmemory.exact, htable.exact⟩, ?_, ?_, ⟨hmemory.good, hcaps.run ops⟩, ?_⟩
  · intro r
    have httl := hmemory.stored r
    have httl' := htable.stored r
    rw [artifactTtlS_run] at httl httl'
    exact ⟨httl, httl'⟩
  · exact not_evicted_run (fun id tenant => List.not_mem_nil) ops
  · intro tenants htenants hroom id tenant hevicted r hr hid
    have hstart : Isolated (inMemory maxRecords share ttl lastPurge) :=
      fun _ _ he => absurd he List.not_mem_nil
    have hisolated := hstart.run (faithful_inMemory maxRecords share ttl lastPurge) hcaps hroom
      htenants hfresh
    obtain ⟨q, hq, hqid, htenant⟩ := hisolated id tenant hevicted
    rw [hmemory.unique hfresh hr hq (hid.trans hqid.symm)]
    exact htenant

/-- Two tenants with a share of one each: the second report evicts the first. -/
theorem artifact_stores_shares :
    let report := fun id now => ArtifactOp.put
      { content := "report", runId := "run", tenant := "acme", kind := "text", id := id, now := now }
    let other := ArtifactOp.put
      { content := "notes", runId := "run", tenant := "globex", kind := "text", id := "c", now := 1 }
    let s := (inMemory 2 1 60 0).run ArtifactMemory.adapter [report "a" 0, other, report "b" 2]
    Exact ArtifactMemory.adapter s ∧ s.backend.records.keys = ["c", "b"] := by
  dsimp only
  have hfresh : (drawnIds [
      .put { content := "report", runId := "run", tenant := "acme", kind := "text", id := "a",
             now := 0 },
      .put { content := "notes", runId := "run", tenant := "globex", kind := "text", id := "c",
             now := 1 },
      .put { content := "report", runId := "run", tenant := "acme", kind := "text", id := "b",
             now := 2 }]).Nodup := by decide
  exact ⟨(artifact_stores 2 1 60 0 hfresh).1.1, by decide +kernel⟩

/-- A purge with a later time removes an artifact that a read would still find fresh. -/
theorem purged_early :
    let p : ArtifactPut :=
      { content := "report", runId := "run", tenant := "acme", kind := "text", ttlS := some 10,
        id := "a", now := 0 }
    let ops := [.put p, .purgeExpired 20]
    let g : ArtifactGet := { id := "a", runId := "run", tenant := "acme", now := 5 }
    (p.record 10).expired g.now = false ∧
      ((inMemory 100 10 60 0).run ArtifactMemory.adapter ops).get ArtifactMemory.adapter g =
        .error .notFound ∧
      ((sqlite 60 0).run ArtifactTable.adapter ops).get ArtifactTable.adapter g =
        .error .notFound ∧
      ((inMemory 100 10 60 0).run ArtifactMemory.adapter ops).trace =
        [.stored (p.record 10), .purged 20] := by
  decide +kernel

end ArtifactStore

end Prismal.Agents
