import Prismal.Memory.BackendRefinement
import Prismal.Memory.LangGraphBackfill

namespace Prismal.Memory
open Prismal.Lib Prismal.Lib.Sweep
set_option autoImplicit true

/-! The backend over the long-term memory: the table `memory_entries` and its companion
`memory_v2_meta`. -/

/-- `strptime` reads a timestamp of the table, `dumps` and `loads` write and read a meta text. -/
structure LongTermConfig where
  legacyOrg : Option OrgId
  strptime : String → Option Rat
  dumps : Mv2 → String
  loads : String → Except BackendError Mv2
  loads_dumps : ∀ r : MemoryRecord, loads (dumps (recordToMv2 r)) = .ok (recordToMv2 r)

abbrev LongTermConfig.Stamp (cfg : LongTermConfig) :=
  { text : String // (cfg.strptime text).isSome }

def LongTermConfig.strToTs (cfg : LongTermConfig) (stamp : cfg.Stamp) : Rat :=
  (cfg.strptime stamp.1).get stamp.2

structure EntryRow (cfg : LongTermConfig) where
  sessionId : String
  content : String
  createdAt : cfg.Stamp
  expiresAt : cfg.Stamp

structure MetaRow (cfg : LongTermConfig) where
  orgId : String
  text : String
  written : ∃ r, text = cfg.dumps (recordToMv2 r)

structure LongTermStore (cfg : LongTermConfig) where
  entries : Dict String (EntryRow cfg)
  metas : Dict String (MetaRow cfg)

namespace LongTerm

variable {cfg : LongTermConfig}

def metaRow (cfg : LongTermConfig) (r : MemoryRecord) : MetaRow cfg :=
  ⟨r.scope.orgId, cfg.dumps (recordToMv2 r), r, rfl⟩

def legacyVisible (cfg : LongTermConfig) (scope : MemoryScope) : Bool :=
  cfg.legacyOrg.any fun org => decide (org.1 = scope.orgId)

/-- `_TENANT_WHERE` -/
def tenantRow (store : LongTermStore cfg) (scope : MemoryScope) (rowId : String) : Bool :=
  match store.metas.get? rowId with
  | some m => decide (m.orgId = scope.orgId)
  | none => legacyVisible cfg scope

def legacyRow (rowId : String) (row : EntryRow cfg) : Option MemoryRecord :=
  cfg.legacyOrg.map fun org => legacyRecord rowId row.content org none (some row.sessionId)
    (cfg.strToTs row.createdAt) (some (cfg.strToTs row.expiresAt))

def rowToRecord (store : LongTermStore cfg) (rowId : String) (row : EntryRow cfg) :
    Except BackendError (Option MemoryRecord) :=
  match store.metas.get? rowId with
  | some m => do
    let mv2 ← cfg.loads m.text
    let r ← recordFromMv2 mv2 row.content
    return some r
  | none => return legacyRow rowId row

def fetch (store : LongTermStore cfg) (rowId : String) (scope : MemoryScope) :
    Except BackendError (Option MemoryRecord) :=
  match store.entries.get? rowId with
  | none => return none
  | some row =>
    if tenantRow store scope rowId then do
      let r ← rowToRecord store rowId row
      return r.filter fun r => scope.covers r.scope
    else return none

/-- `ORDER BY created_at, id` -/
def rowBefore (a b : String × EntryRow cfg) : Prop :=
  a.2.createdAt.1 < b.2.createdAt.1 ∨ a.2.createdAt.1 = b.2.createdAt.1 ∧ a.1 ≤ b.1

instance : DecidableRel (@rowBefore cfg) := fun _ _ => inferInstanceAs (Decidable (_ ∨ _))

def tenantRows (store : LongTermStore cfg) (scope : MemoryScope) : List (String × EntryRow cfg) :=
  (store.entries.entries.filter fun e => tenantRow store scope e.1).insertionSort rowBefore

def rowsToRecords (store : LongTermStore cfg) (read : String → MemoryRecord → α) :
    List (String × EntryRow cfg) → Except BackendError (List α)
  | [] => return []
  | (rowId, row) :: rest => do
    let r ← rowToRecord store rowId row
    let others ← rowsToRecords store read rest
    return (r.map (read rowId)).toList ++ others

def list (store : LongTermStore cfg) (scope : MemoryScope) (since : Option Rat) (limit : Int) :
    Except BackendError (List MemoryRecord) := do
  let records ← rowsToRecords store (fun _ r => r) (tenantRows store scope)
  return ((records.filter (Records.listed scope since)).insertionSort Records.Earlier).take
    (max limit 0).toNat

/-- Rows of the legacy table visible to `scope`; v2-native ones come back annotated. -/
def scanLegacy (store : LongTermStore cfg) (scope : MemoryScope) (limit offset : Nat) :
    Except BackendError (List LegacyEntry) :=
  rowsToRecords store (fun rowId r => ⟨r, decide (rowId ∈ store.metas)⟩)
    (((tenantRows store scope).drop offset).take limit)

/-- `INSERT OR IGNORE`, where the entry exists. -/
def annotate (store : LongTermStore cfg) (r : MemoryRecord) : Bool × LongTermStore cfg :=
  if r.id ∈ store.entries ∧ r.id ∉ store.metas then
    (true, { store with metas := store.metas.set r.id (metaRow cfg r) })
  else (false, store)

/-! The tables while they are annotated. -/

def rowView (store : LongTermStore cfg) (rowId : String) (row : EntryRow cfg) :
    Option MemoryRecord := (rowToRecord store rowId row).toOption.join

theorem rowToRecord_some (h : store.metas.get? rowId = some m)
    (hr : m.text = cfg.dumps (recordToMv2 r)) (row : EntryRow cfg) :
    rowToRecord store rowId row = .ok (some { r with content := row.content }) := by
  rw [rowToRecord, h]
  simp only [hr, cfg.loads_dumps]
  change (recordFromMv2 (recordToMv2 r) row.content >>= fun r => pure (some r)) = _
  rw [recordFromMv2_recordToMv2]
  rfl

theorem rowToRecord_eq (store : LongTermStore cfg) (rowId : String) (row : EntryRow cfg) :
    rowToRecord store rowId row = .ok (rowView store rowId row) := by
  have h : ∃ r, rowToRecord store rowId row = .ok r := by
    cases hmeta : store.metas.get? rowId with
    | none =>
      rw [rowToRecord, hmeta]
      exact ⟨_, rfl⟩
    | some m =>
      obtain ⟨r, hr⟩ := m.written
      exact ⟨_, rowToRecord_some hmeta hr row⟩
  obtain ⟨r, hr⟩ := h
  rw [rowView, hr]
  rfl

theorem rowView_none (h : store.metas.get? rowId = none) (row : EntryRow cfg) :
    rowView store rowId row = legacyRow rowId row := by
  rw [rowView, rowToRecord, h]
  rfl

theorem rowsToRecords_eq (store : LongTermStore cfg) (read : String → MemoryRecord → α)
    (rows : List (String × EntryRow cfg)) :
    rowsToRecords store read rows =
      .ok (rows.filterMap fun e => (rowView store e.1 e.2).map (read e.1)) := by
  induction rows with
  | nil => rfl
  | cons e rest ih =>
    obtain ⟨rowId, row⟩ := e
    rw [rowsToRecords, rowToRecord_eq, ih, List.filterMap_cons]
    change Except.ok (((rowView store rowId row).map (read rowId)).toList ++ _) = _
    cases rowView store rowId row <;> rfl

def metaAt (store : LongTermStore cfg) (rowId : String) : Option (MetaRow cfg) :=
  ((store.entries.get? rowId).bind (legacyRow rowId)).map (metaRow cfg)

def annotatedRow (store : LongTermStore cfg) (rowId : String) : Bool :=
  decide (rowId ∈ store.metas)

/-- The tables at the start with the flagged rows annotated. -/
structure Annotated (store₀ store : LongTermStore cfg) (flag : String → Bool) : Prop where
  le : ∀ rowId, annotatedRow store₀ rowId = true → flag rowId = true
  entries : store.entries = store₀.entries
  metas : ∀ rowId, store.metas.get? rowId =
    if flag rowId then (store₀.metas.get? rowId).or (metaAt store₀ rowId)
    else store₀.metas.get? rowId

variable {store store₀ : LongTermStore cfg} {scope : MemoryScope}

theorem annotated_start (store : LongTermStore cfg) :
    Annotated store store (annotatedRow store) := by
  refine ⟨fun _ h => h, rfl, ?_⟩
  intro rowId
  split
  next h =>
    obtain ⟨m, hm⟩ := Dict.mem_iff_get?.1 (of_decide_eq_true h)
    rw [hm, Option.some_or]
  next => rfl

theorem Annotated.meta_cases (h : Annotated store₀ store flag)
    (hrow : store₀.entries.get? rowId = some row) :
    store.metas.get? rowId = store₀.metas.get? rowId ∨
      ∃ r, store₀.metas.get? rowId = none ∧ legacyRow rowId row = some r ∧
        store.metas.get? rowId = some (metaRow cfg r) := by
  rw [h.metas]
  cases flag rowId with
  | false => exact Or.inl rfl
  | true =>
    rw [if_pos rfl, metaAt, hrow, Option.bind_some]
    cases store₀.metas.get? rowId with
    | some m => exact Or.inl rfl
    | none =>
      cases legacyRow rowId row with
      | none => exact Or.inl rfl
      | some r => exact Or.inr ⟨r, rfl, rfl, rfl⟩

theorem legacyRow_eq_some {row : EntryRow cfg} (h : legacyRow rowId row = some r) :
    r.id = rowId ∧ r.content = row.content ∧
      ∀ scope : MemoryScope, legacyVisible cfg scope = decide (r.scope.orgId = scope.orgId) := by
  obtain ⟨org, horg, rfl⟩ := Option.map_eq_some_iff.1 h
  refine ⟨rfl, rfl, ?_⟩
  intro scope
  rw [legacyVisible, horg]
  rfl

theorem Annotated.tenantRow_eq (h : Annotated store₀ store flag)
    (hrow : store₀.entries.get? rowId = some row) (scope : MemoryScope) :
    tenantRow store scope rowId = tenantRow store₀ scope rowId := by
  rw [tenantRow, tenantRow]
  cases h.meta_cases hrow with
  | inl hsame => rw [hsame]
  | inr hnew =>
    obtain ⟨r, hnone, hr, hsome⟩ := hnew
    rw [hnone, hsome]
    exact ((legacyRow_eq_some hr).2.2 scope).symm

theorem Annotated.rowView_eq (h : Annotated store₀ store flag)
    (hrow : store₀.entries.get? rowId = some row) :
    rowView store rowId row = rowView store₀ rowId row := by
  cases h.meta_cases hrow with
  | inl hsame => rw [rowView, rowView, rowToRecord, rowToRecord, hsame]
  | inr hnew =>
    obtain ⟨r, hnone, hr, hsome⟩ := hnew
    have hcontent := (legacyRow_eq_some hr).2.1
    rw [rowView_none hnone, hr, rowView, rowToRecord_some hsome rfl, ← hcontent]
    rfl

theorem Annotated.fetch_eq (h : Annotated store₀ store flag) : fetch store = fetch store₀ := by
  funext rowId scope
  rw [fetch, fetch, h.entries]
  cases hrow : store₀.entries.get? rowId with
  | none => rfl
  | some row =>
    simp only [h.tenantRow_eq hrow, rowToRecord_eq, h.rowView_eq hrow]

theorem Annotated.tenantRows_eq (h : Annotated store₀ store flag) (scope : MemoryScope) :
    tenantRows store scope = tenantRows store₀ scope := by
  rw [tenantRows, tenantRows, h.entries]
  congr 1
  apply List.filter_congr
  intro e he
  exact h.tenantRow_eq (Dict.get?_eq_some.2 he) scope

theorem get?_of_mem_tenantRows (he : e ∈ tenantRows store scope) :
    store.entries.get? e.1 = some e.2 :=
  Dict.get?_eq_some.2 (List.mem_of_mem_filter ((List.mem_insertionSort _).1 he))

theorem Annotated.list_eq (h : Annotated store₀ store flag) : list store = list store₀ := by
  funext scope since limit
  rw [list, list, rowsToRecords_eq, rowsToRecords_eq, h.tenantRows_eq]
  have hrecords : ((tenantRows store₀ scope).filterMap fun e =>
      (rowView store e.1 e.2).map fun r => r) =
        (tenantRows store₀ scope).filterMap fun e => (rowView store₀ e.1 e.2).map fun r => r := by
    apply List.filterMap_congr
    intro e he
    rw [h.rowView_eq (get?_of_mem_tenantRows he)]
  rw [hrecords]

/-! The rows that a backfill scans. -/

def rowKeys (store : LongTermStore cfg) (scope : MemoryScope) : List String :=
  (tenantRows store scope).map Prod.fst

def recordAt (store : LongTermStore cfg) (scope : MemoryScope) (rowId : String) : MemoryRecord :=
  ((store.entries.get? rowId).bind (rowView store rowId)).getD
    (legacyRecord "" "" ⟨scope.orgId, scope.nonEmpty⟩ none none 0 none)

def pending (store : LongTermStore cfg) (scope : MemoryScope) : List String :=
  (rowKeys store scope).filter fun rowId => !annotatedRow store rowId

theorem nodup_rowKeys (store : LongTermStore cfg) (scope : MemoryScope) :
    (rowKeys store scope).Nodup := by
  have hperm := (List.perm_insertionSort rowBefore
    (store.entries.entries.filter fun e => tenantRow store scope e.1)).map Prod.fst
  exact hperm.nodup_iff.2 (Dict.nodup_filter store.entries.nodup _)

theorem rowView_isSome (he : e ∈ tenantRows store scope) : ∃ r, rowView store e.1 e.2 = some r := by
  have htenant := (List.mem_filter.1 ((List.mem_insertionSort _).1 he)).2
  rw [tenantRow] at htenant
  cases hmeta : store.metas.get? e.1 with
  | some m =>
    obtain ⟨r, hr⟩ := m.written
    rw [rowView, rowToRecord_some hmeta hr]
    exact ⟨_, rfl⟩
  | none =>
    simp only [hmeta, legacyVisible] at htenant
    obtain ⟨org, horg, -⟩ := (Option.any_eq_true _ _).1 htenant
    rw [rowView_none hmeta, legacyRow, horg]
    exact ⟨_, rfl⟩

theorem recordAt_eq (hrow : store.entries.get? rowId = some row)
    (hview : rowView store rowId row = some r) : recordAt store scope rowId = r := by
  rw [recordAt, hrow, Option.bind_some, hview, Option.getD_some]

theorem Annotated.flag_eq (h : Annotated store₀ store flag)
    (hrow : store₀.entries.get? rowId = some row) (hview : rowView store₀ rowId row = some r) :
    decide (rowId ∈ store.metas) = flag rowId := by
  have hmem : rowId ∈ store.metas ↔ (store.metas.get? rowId).isSome = true := by
    rw [Dict.mem_iff_get?, Option.isSome_iff_exists]
  cases hflag : flag rowId with
  | false =>
    have hnone : annotatedRow store₀ rowId = false := by
      rw [Bool.eq_false_iff]
      intro hup
      rw [h.le rowId hup] at hflag
      cases hflag
    apply decide_eq_false
    rw [hmem, h.metas, hflag, if_neg Bool.false_ne_true,
      Dict.get?_eq_none.2 (of_decide_eq_false hnone)]
    exact Bool.false_ne_true
  | true =>
    apply decide_eq_true
    rw [hmem, h.metas, hflag, if_pos rfl]
    cases hmeta : store₀.metas.get? rowId with
    | some m => rfl
    | none =>
      rw [rowView_none hmeta] at hview
      rw [metaAt, hrow, Option.bind_some, hview]
      rfl

theorem Annotated.scan (h : Annotated store₀ store flag) :
    scanLegacy store scope limit offset =
      .ok ((((rowKeys store₀ scope).drop offset).take limit).map fun rowId =>
        ⟨recordAt store₀ scope rowId, flag rowId⟩) := by
  rw [scanLegacy, rowsToRecords_eq, h.tenantRows_eq, rowKeys, ← List.map_drop, ← List.map_take,
    List.map_map, ← List.filterMap_eq_map]
  congr 1
  apply List.filterMap_congr
  intro e he
  have hmem : e ∈ tenantRows store₀ scope := List.mem_of_mem_drop (List.mem_of_mem_take he)
  have hrow := get?_of_mem_tenantRows hmem
  obtain ⟨r, hr⟩ := rowView_isSome hmem
  rw [h.rowView_eq hrow, hr, Option.map_some, h.flag_eq hrow hr]
  simp only [Function.comp, recordAt_eq hrow hr]

theorem Annotated.annotate (h : Annotated store₀ store flag) (hkey : rowId ∈ rowKeys store₀ scope)
    (hplain : annotatedRow store₀ rowId = false) :
    ∃ store', annotate store (recordAt store₀ scope rowId) = (!flag rowId, store') ∧
      Annotated store₀ store' (mark flag rowId) := by
  obtain ⟨⟨rowId, row⟩, he, rfl⟩ := List.mem_map.1 hkey
  have hrow := get?_of_mem_tenantRows he
  obtain ⟨r, hr⟩ := rowView_isSome he
  have hnone := Dict.get?_eq_none.2 (of_decide_eq_false hplain)
  have hlegacy : legacyRow rowId row = some r := (rowView_none hnone row).symm.trans hr
  obtain ⟨hid, -, -⟩ := legacyRow_eq_some hlegacy
  have hentry : r.id ∈ store.entries := by
    rw [hid, h.entries]
    exact Dict.mem_of_get? hrow
  have hflag := h.flag_eq hrow hr
  have hmeta : metaAt store₀ rowId = some (metaRow cfg r) := by
    rw [metaAt, hrow, Option.bind_some, hlegacy]
    rfl
  rw [recordAt_eq hrow hr, LongTerm.annotate]
  cases hup : flag rowId with
  | true =>
    have hmem : rowId ∈ store.metas := of_decide_eq_true (hflag.trans hup)
    refine ⟨store, if_neg fun hnew => hnew.2 (hid ▸ hmem), ?_⟩
    rw [mark_of_up hup]
    exact h
  | false =>
    have hnot : rowId ∉ store.metas := of_decide_eq_false (hflag.trans hup)
    refine ⟨_, if_pos ⟨hentry, hid ▸ hnot⟩, ?_, h.entries, ?_⟩
    · intro other hother
      exact le_mark (h.le other hother)
    · intro other
      rw [Dict.get?_set, hid]
      by_cases hother : rowId = other
      · rw [if_pos hother, ← hother, mark_self, if_pos rfl, hnone, Option.none_or, hmeta]
      · have hmark : mark flag rowId other = flag other := by
          rw [mark, decide_eq_false (Ne.symm hother), Bool.or_false]
        rw [if_neg hother, h.metas, hmark]

theorem Annotated.cell_eq (h : Annotated store₀ store flag) (rowId : String) :
    (store.entries.get? rowId, store.metas.get? rowId) =
      if flag rowId = true ∧ annotatedRow store₀ rowId = false then
        (store₀.entries.get? rowId, metaAt store₀ rowId)
      else (store₀.entries.get? rowId, store₀.metas.get? rowId) := by
  rw [h.entries, h.metas]
  cases flag rowId with
  | false => rw [if_neg Bool.false_ne_true, if_neg fun hup => Bool.false_ne_true hup.1]
  | true =>
    rw [if_pos rfl]
    cases hmarked : annotatedRow store₀ rowId with
    | true =>
      obtain ⟨m, hm⟩ := Dict.mem_iff_get?.1 (of_decide_eq_true hmarked)
      rw [hm, if_neg fun hup => Bool.false_ne_true hup.2.symm]
      rfl
    | false =>
      rw [Dict.get?_eq_none.2 (of_decide_eq_false hmarked), Option.none_or, if_pos ⟨rfl, rfl⟩]

/-- The long-term backend with its hooks and its readers. A place is an entry and its meta row. -/
def backend (cfg : LongTermConfig) : LegacyBackend (LongTermStore cfg) String
    (Option (EntryRow cfg) × Option (MetaRow cfg)) where
  scanLegacy := scanLegacy
  annotate := LongTerm.annotate
  get := fetch
  list := LongTerm.list
  cell store rowId := (store.entries.get? rowId, store.metas.get? rowId)
  pending := pending
  annotated store rowId := (store.entries.get? rowId, metaAt store rowId)

theorem veiled (store : LongTermStore cfg) (scope : MemoryScope) :
    Veiled (backend cfg) store scope (rowKeys store scope) (annotatedRow store)
      (recordAt store scope) (Annotated store) where
  le h hup := h.le _ hup
  scan h := h.scan
  annotate h hkey hplain := h.annotate hkey hplain
  start := annotated_start store
  get h := h.fetch_eq
  list h := h.list_eq
  cells h rowId := h.cell_eq rowId
  nodup := (nodup_rowKeys store scope).filter _
  pending rowId := by
    change rowId ∈ (rowKeys store scope).filter _ ↔ _
    rw [List.mem_filter, Bool.not_eq_true']

theorem exact (store : LongTermStore cfg) (scope : MemoryScope) (hbatch : 0 < batchSize) :
    Exact (backend cfg) store scope batchSize :=
  ((veiled store scope).exact_iff hbatch).2 ((nodup_rowKeys store scope).filter _)

end LongTerm

end Prismal.Memory

namespace Prismal.Memory
open Prismal.Lib
set_option autoImplicit true

/-! The backfill of both backends. -/

/-- No pending fact lies under two of the legacy namespaces, and no scan exceeds `max_scan`. -/
structure Apart (cfg : LangGraphConfig) (store : BaseStore) (scope : MemoryScope) : Prop where
  fits : ∀ pre ∈ cfg.legacyNs, LangGraph.Fits cfg store pre
  once : ∀ addr ∈ LangGraph.pending cfg store scope,
    cfg.legacyNs.countP (fun pre => pre.isPrefixOf addr.1) ≤ 1

/-- The backfill of the store backend is exact if and only if its legacy namespaces are apart, and
the backfill of the long-term memory always is. -/
theorem backfill_exact (batchSize : Int) (hbatch : 0 < batchSize) :
    (∀ (cfg : LangGraphConfig) (store : BaseStore) (scope : MemoryScope),
      Exact (LangGraph.backend cfg) store scope batchSize ↔ Apart cfg store scope) ∧
    ∀ (cfg : LongTermConfig) (store : LongTermStore cfg) (scope : MemoryScope),
      Exact (LongTerm.backend cfg) store scope batchSize := by
  refine ⟨?_, fun cfg store scope => LongTerm.exact store scope hbatch⟩
  intro cfg store scope
  rw [LangGraph.exact_iff cfg store scope hbatch]
  apply Iff.intro
  · exact fun h => ⟨h.1, h.2⟩
  · exact fun h => ⟨h.fits, h.once⟩

/-! A legacy fact under one prefix, or under the same prefix twice. -/

noncomputable def prefsConfig (copies : Nat) : LangGraphConfig where
  search := plainConfig.search
  json := writtenJson
  sanitize := id
  legacyNs := List.replicate copies ["preferences"]
  legacyOrg := some ⟨teaScope.orgId, teaScope.nonEmpty⟩
  pageSize := 200
  maxScanArg := none
  unrooted ns h := by
    rw [List.eq_of_mem_replicate h]
    decide

def teaAddress : Address := (["preferences"], "drink")

def prefsStore : BaseStore :=
  (∅ : BaseStore).set teaAddress (.dict ⟨"tea", "", some 1, none, none⟩)

theorem pending_prefs (copies : Nat) :
    LangGraph.pending (prefsConfig (copies + 1)) prefsStore teaScope = [teaAddress] := rfl

/-- Found twice, the fact is annotated once, and the dry run counts it twice. -/
theorem overlapping_rehearsal :
    ¬ Exact (LangGraph.backend (prefsConfig 2)) prefsStore teaScope 1 := by
  intro h
  have hmem : teaAddress ∈ LangGraph.pending (prefsConfig 2) prefsStore teaScope := by
    rw [pending_prefs]
    exact List.mem_singleton_self _
  have hone := ((LangGraph.exact_iff _ _ _ one_pos).1 h).2 teaAddress hmem
  have htwo : (prefsConfig 2).legacyNs.countP (fun pre => pre.isPrefixOf teaAddress.1) = 2 := rfl
  omega

theorem backfill_prefs : Exact (LangGraph.backend (prefsConfig 1)) prefsStore teaScope 1 := by
  apply ((backfill_exact 1 one_pos).1 (prefsConfig 1) prefsStore teaScope).2
  refine ⟨?_, ?_⟩
  · intro pre _ m hm
    cases hm
  · intro addr haddr
    rw [pending_prefs] at haddr
    rw [List.mem_singleton.1 haddr]
    exact List.countP_le_length

end Prismal.Memory
