import Prismal.Lib.SortBy
import Prismal.Lib.Run
import Prismal.Memory.LangGraphStore

namespace Prismal.Memory
open Prismal.Lib Prismal.Lib.Json
set_option autoImplicit true

/-! The store backend does what the in-memory backend does. -/

variable {cfg : LangGraphConfig} {d d' : Records} {store store' : BaseStore} {r : MemoryRecord}
  {scope : MemoryScope}

def entryOf (cfg : LangGraphConfig) (r : MemoryRecord) : Address × Stored :=
  ((namespaceOf r.scope r.type, r.id), .dict (LangGraph.document cfg r))

/-- A record that the backend stores under its tenant and reads back as it is. -/
structure Native (cfg : LangGraphConfig) (r : MemoryRecord) : Prop where
  decode : decodeLegacyId cfg.json r.id = none
  clean : cfg.sanitize r.content = r.content

/-- The store holds the documents of the records and nothing else. -/
structure Mirrors (cfg : LangGraphConfig) (d : Records) (store : BaseStore) : Prop where
  keyed : Records.Keyed d
  entries : store.entries.Perm (d.values.map (entryOf cfg))
  native : ∀ r ∈ d.values, Native cfg r

theorem mirrors_empty (cfg : LangGraphConfig) : Mirrors cfg ∅ ∅ where
  keyed := Records.keyed_empty
  entries := List.Perm.refl _
  native r h := by cases h

theorem Native.target_eq (h : Native cfg r) : LangGraph.target cfg r = (entryOf cfg r).1 := by
  rw [LangGraph.target, h.decode]
  rfl

theorem Native.view_eq (h : Native cfg r) :
    LangGraph.view cfg (entryOf cfg r).1 (entryOf cfg r).2 = some r := by
  have hread : LangGraph.toRecord cfg (entryOf cfg r).1 (entryOf cfg r).2 =
      (recordFromMv2 (recordToMv2 r) (cfg.sanitize r.content) >>= fun r => .ok (some r)) := rfl
  rw [LangGraph.view, hread, recordFromMv2_recordToMv2, h.clean]
  rfl

theorem namespaceOf_prefix (scope record : MemoryScope) (type : MemoryType) :
    List.isPrefixOf [root, scope.orgId] (namespaceOf record type) =
      decide (record.orgId = scope.orgId) := by
  rw [Bool.eq_iff_iff]
  simp only [namespaceOf, List.isPrefixOf, beq_self_eq_true, Bool.true_and, Bool.and_true,
    beq_iff_eq, decide_eq_true_eq]
  exact eq_comm

theorem perm_values {d d' : Records} (h : ∀ rid, d'.get? rid = d.get? rid) :
    d'.values.Perm d.values := by
  have hperm : d'.entries.Perm d.entries := by
    rw [List.perm_ext_iff_of_nodup (Dict.nodup_entries d') (Dict.nodup_entries d)]
    intro e
    rw [← Dict.get?_eq_some, ← Dict.get?_eq_some, h]
  exact hperm.map Prod.snd

theorem Mirrors.congr (h : Mirrors cfg d store)
    (hd : ∀ rid, d'.get? rid = d.get? rid)
    (hstore : ∀ addr, store'.get? addr = store.get? addr) : Mirrors cfg d' store' := by
  have hvalues := perm_values hd
  refine ⟨?_, ?_, ?_⟩
  · exact h.keyed.of_subset fun rid r hr => (hd rid).symm.trans hr
  · have hentries : store'.entries.Perm store.entries := by
      rw [List.perm_ext_iff_of_nodup (Dict.nodup_entries store') (Dict.nodup_entries store)]
      intro e
      rw [← Dict.get?_eq_some, ← Dict.get?_eq_some, hstore]
    exact hentries.trans (h.entries.trans (hvalues.map _).symm)
  · intro r hr
    exact h.native r (hvalues.mem_iff.1 hr)

theorem Mirrors.stored (h : Mirrors cfg d store) (hr : r ∈ d.values) :
    store.get? (entryOf cfg r).1 = some (entryOf cfg r).2 :=
  Dict.get?_eq_some.2 (h.entries.mem_iff.2 (List.mem_map_of_mem hr))

theorem Mirrors.put (h : Mirrors cfg d store) (hfresh : r.id ∉ d) (hr : Native cfg r) :
    Mirrors cfg (d.put r) (store.set (entryOf cfg r).1 (entryOf cfg r).2) := by
  have hvalues : (d.put r).values.Perm (r :: d.values) := by
    have hperm := (Dict.perm_entries_set d r.id r).map Prod.snd
    rw [Dict.erase_of_not_mem hfresh] at hperm
    exact hperm
  have haddr : (entryOf cfg r).1 ∉ store := by
    intro hmem
    obtain ⟨value, hvalue⟩ := Dict.mem_iff_get?.1 hmem
    obtain ⟨q, hq, heq⟩ := List.mem_map.1 (h.entries.mem_iff.1 (Dict.get?_eq_some.1 hvalue))
    have hid : q.id = r.id := congrArg (fun e => e.1.2) heq
    exact hfresh (hid ▸ Dict.mem_of_get? (h.keyed.stored hq))
  refine ⟨h.keyed.put r, ?_, ?_⟩
  · have hperm := Dict.perm_entries_set store (entryOf cfg r).1 (entryOf cfg r).2
    rw [Dict.erase_of_not_mem haddr] at hperm
    exact hperm.trans ((h.entries.cons _).trans (hvalues.map (entryOf cfg)).symm)
  · intro q hq
    cases List.mem_cons.1 (hvalues.mem_iff.1 hq) with
    | inl heq => exact heq ▸ hr
    | inr hmem => exact h.native q hmem

theorem Mirrors.erase (h : Mirrors cfg d store) (hr : d.get? rid = some r) :
    Mirrors cfg (d.erase rid) (store.erase (entryOf cfg r).1) := by
  have hvalues : d.values.Perm (r :: (d.erase rid).values) :=
    (Dict.perm_entries_erase hr).map Prod.snd
  have hmem : r ∈ d.values := hvalues.mem_iff.2 List.mem_cons_self
  refine ⟨?_, ?_, ?_⟩
  · exact h.keyed.of_subset fun rid q hq => Dict.get?_of_get?_erase hq
  · have hperm := (Dict.perm_entries_erase (h.stored hmem)).symm.trans
      (h.entries.trans (hvalues.map (entryOf cfg)))
    exact hperm.cons_inv
  · intro q hq
    exact h.native q (hvalues.mem_iff.2 (List.mem_cons_of_mem _ hq))

theorem Mirrors.update (h : Mirrors cfg d store) (hold : d.get? r.id = some old)
    (hr : Native cfg r) :
    Mirrors cfg (d.put r) (LangGraph.write cfg store r (some (entryOf cfg old).1)) := by
  have herased := h.erase hold
  have hfresh : r.id ∉ d.erase r.id := by
    rw [Dict.mem_erase]
    exact fun hmem => hmem.1 rfl
  apply (herased.put hfresh hr).congr
  · intro rid
    rw [Records.put, Records.put, Dict.get?_set, Dict.get?_set, Dict.get?_erase]
    split <;> rfl
  · intro addr
    rw [LangGraph.write, hr.target_eq]
    by_cases hsame : (entryOf cfg old).1 = (entryOf cfg r).1
    · simp only [if_pos hsame]
      rw [Dict.get?_set, Dict.get?_set, Dict.get?_erase, hsame]
      split <;> rfl
    · simp only [if_neg hsame]
      rfl

/-! Reads. -/

theorem matching_tenant (h : Mirrors cfg d store) (scope : MemoryScope) (mv2Id : Option String) :
    (LangGraph.matching store [root, scope.orgId] mv2Id).Perm
      ((d.values.filter fun r => decide (r.scope.orgId = scope.orgId) &&
        mv2Id.all fun rid => decide (r.id = rid)).map (entryOf cfg)) := by
  have hfilter := h.entries.filter fun e => List.isPrefixOf [root, scope.orgId] e.1.1 &&
    mv2Id.all fun rid => decide (e.2.mv2Id = some rid)
  apply hfilter.trans
  rw [List.filter_map]
  apply List.Perm.of_eq
  congr 1
  apply List.filter_congr
  intro r _
  have hid : (Stored.dict (LangGraph.document cfg r)).mv2Id = some r.id := rfl
  simp only [Function.comp, entryOf, namespaceOf_prefix, hid, Option.some.injEq]

/-- The tenant's documents do not exceed `max_scan`. -/
def TenantFits (cfg : LangGraphConfig) (d : Records) (scope : MemoryScope) : Prop :=
  ∀ m ∈ cfg.maxScan, d.values.countP (fun r => decide (r.scope.orgId = scope.orgId)) ≤ m

theorem visible_perm (h : Mirrors cfg d store) (hlegacy : cfg.legacyNs = [])
    (hfit : TenantFits cfg d scope) :
    ∃ records, LangGraph.visible cfg store scope = .ok records ∧
      records.Perm (d.values.filter fun r => scope.covers r.scope) := by
  have hmatching := matching_tenant h scope none
  have hfits : ∀ pre ∈ [root, scope.orgId] :: cfg.legacyNs, LangGraph.Fits cfg store pre := by
    rw [hlegacy]
    intro pre hpre m hm
    cases List.mem_singleton.1 hpre
    rw [hmatching.length_eq, List.length_map, ← List.countP_eq_length_filter]
    simpa using hfit m hm
  refine ⟨_, LangGraph.visible_ok hfits, ?_⟩
  rw [hlegacy, List.flatMap_cons, List.flatMap_nil, List.append_nil]
  have hperm := ((LangGraph.found_perm cfg store [root, scope.orgId] none).trans
    hmatching).filterMap fun e => LangGraph.seen cfg scope e.1 e.2
  apply hperm.trans
  rw [List.filterMap_map]
  have hseen : ∀ r ∈ d.values.filter fun r => decide (r.scope.orgId = scope.orgId) &&
      (none : Option String).all fun rid => decide (r.id = rid),
      ((fun e => LangGraph.seen cfg scope e.1 e.2) ∘ entryOf cfg) r =
        Option.guard (fun r => scope.covers r.scope) r := by
    intro r hr
    have hnative := h.native r (List.mem_of_mem_filter hr)
    rw [Function.comp, LangGraph.seen, hnative.view_eq]
    rfl
  rw [List.filterMap_congr hseen, List.filterMap_eq_filter, List.filter_filter]
  apply List.Perm.of_eq
  apply List.filter_congr
  intro r _
  cases hcovers : scope.covers r.scope with
  | false => rfl
  | true => simp [covers_orgId hcovers]

theorem filter_id_eq (hkeyed : Records.Keyed d) (org rid : String) :
    (d.values.filter fun r => decide (r.scope.orgId = org) && decide (r.id = rid)) =
      ((d.get? rid).filter fun r => decide (r.scope.orgId = org)).toList := by
  have hn := (hkeyed.ids_nodup.of_map _).filter
    fun r : MemoryRecord => decide (r.scope.orgId = org) && decide (r.id = rid)
  have hmem : ∀ q, q ∈ d.values.filter (fun r => decide (r.scope.orgId = org) &&
      decide (r.id = rid)) ↔ d.get? rid = some q ∧ q.scope.orgId = org := by
    intro q
    rw [List.mem_filter, Bool.and_eq_true, decide_eq_true_eq, decide_eq_true_eq]
    refine ⟨?_, ?_⟩
    · intro h
      obtain ⟨hq, horg, hid⟩ := h
      exact ⟨hid ▸ hkeyed.stored hq, horg⟩
    · intro h
      exact ⟨Dict.mem_values.2 ⟨rid, h.1⟩, h.2, hkeyed rid q h.1⟩
  cases hget : (d.get? rid).filter fun r => decide (r.scope.orgId = org) with
  | none =>
    apply List.eq_nil_iff_forall_not_mem.2
    intro q hq
    obtain ⟨hq, horg⟩ := (hmem q).1 hq
    rw [hq] at hget
    simp [horg] at hget
  | some q =>
    obtain ⟨hq, horg⟩ := Option.filter_eq_some_iff.1 hget
    have hperm : (d.values.filter fun r => decide (r.scope.orgId = org) &&
        decide (r.id = rid)).Perm [q] := by
      rw [List.perm_ext_iff_of_nodup hn (List.nodup_singleton q)]
      intro q'
      rw [hmem, List.mem_singleton, hq]
      refine ⟨fun h => (Option.some.inj h.1).symm, ?_⟩
      intro h
      exact ⟨congrArg some h.symm, h ▸ of_decide_eq_true horg⟩
    exact List.perm_singleton.1 hperm

theorem locate_eq (h : Mirrors cfg d store) (hlegacy : cfg.legacyNs = []) (rid : String)
    (scope : MemoryScope) :
    LangGraph.locate cfg store rid scope =
      .ok ((d.get rid scope).map fun r => ((entryOf cfg r).1, r)) := by
  rw [LangGraph.locate]
  cases hdecode : decodeLegacyId cfg.json rid with
  | some addr =>
    have hnone : d.get rid scope = none := by
      rw [Option.eq_none_iff_forall_ne_some]
      intro r hr
      obtain ⟨hget, -⟩ := Records.get_eq_some.1 hr
      have hid := h.keyed rid r hget
      have hnative := (h.native r (Dict.mem_values.2 ⟨rid, hget⟩)).decode
      rw [hid, hdecode] at hnative
      cases hnative
    simp only [hnone, hlegacy, List.any_nil]
    rfl
  | none =>
    have hperm := (LangGraph.found_perm cfg store [root, scope.orgId] (some rid)).trans
      (matching_tenant h scope (some rid))
    simp only [Option.all_some] at hperm
    rw [filter_id_eq h.keyed] at hperm
    rw [Records.get]
    cases hget : d.get? rid with
    | none =>
      rw [hget] at hperm
      have hfound := List.perm_nil.1 hperm
      simp only [hfound]
      rfl
    | some r =>
      have hnative := h.native r (Dict.mem_values.2 ⟨rid, hget⟩)
      rw [hget] at hperm
      by_cases horg : r.scope.orgId = scope.orgId
      · have hkept : (some r).filter (fun r => decide (r.scope.orgId = scope.orgId)) = some r := by
          simp [Option.filter, horg]
        rw [hkept] at hperm
        have hfound := List.perm_singleton.1 hperm
        simp only [hfound]
        change (LangGraph.toRecord cfg (entryOf cfg r).1 (entryOf cfg r).2 >>= _) = _
        rw [LangGraph.toRecord_eq, hnative.view_eq]
        cases hcovers : scope.covers r.scope with
        | true =>
          have hseen : (some r).filter (fun r => scope.covers r.scope) = some r := by
            simp [Option.filter, hcovers]
          rw [hseen]
          change Except.ok (((some r).filter fun r => scope.covers r.scope).map _) = _
          rw [hseen]
          rfl
        | false =>
          have hhidden : (some r).filter (fun r => scope.covers r.scope) = none := by
            simp [Option.filter, hcovers]
          rw [hhidden]
          change Except.ok (((some r).filter fun r => scope.covers r.scope).map _) = _
          rw [hhidden]
          rfl
      · have hdropped : (some r).filter (fun r => decide (r.scope.orgId = scope.orgId)) = none := by
          simp [Option.filter, horg]
        rw [hdropped] at hperm
        have hfound := List.perm_nil.1 hperm
        have hcovers : scope.covers r.scope = false := by
          rw [Bool.eq_false_iff]
          exact fun hcovers => horg (covers_orgId hcovers)
        have hhidden : (some r).filter (fun r => scope.covers r.scope) = none := by
          simp [Option.filter, hcovers]
        simp only [hfound, hhidden]
        rfl

/-! Ties: a record is determined by its id. -/

theorem eq_of_id (hkeyed : Records.Keyed d) (ha : a ∈ d.values) (hb : b ∈ d.values)
    (hid : a.id = b.id) : a = b := by
  have hget := hkeyed.stored ha
  rw [hid] at hget
  exact Option.some.inj (hget.symm.trans (hkeyed.stored hb))

theorem strict_earlier (hkeyed : Records.Keyed d) : Strict Records.Earlier d.values := by
  intro a ha b hb hab hba
  apply eq_of_id hkeyed ha hb
  cases hab with
  | inl hlt =>
    cases hba with
    | inl hlt' => exact absurd (hlt.trans hlt') (lt_irrefl _)
    | inr heq => exact absurd (heq.1 ▸ hlt) (lt_irrefl _)
  | inr hid =>
    cases hba with
    | inl hlt => exact absurd (hid.1 ▸ hlt) (lt_irrefl _)
    | inr hid' => exact String.le_antisymm hid.2 hid'.2

def matched (d : Records) (u : Unicode) (text : String) (scope : MemoryScope)
    (types : Option (List MemoryType)) (includeSuperseded : Bool) : List (MemoryRecord × Rat) :=
  d.values.filterMap (Records.hit u text scope types includeSuperseded)

theorem hit_score (h : Records.hit u text scope types sup r = some hit') :
    hit' = (r, overlapScore u text r.content) := by
  rw [Records.hit] at h
  grind

theorem strict_closer (hkeyed : Records.Keyed d) :
    Strict Records.Closer (matched d u text scope types sup) := by
  intro a ha b hb hab hba
  obtain ⟨r, hr, hhit⟩ := List.mem_filterMap.1 ha
  obtain ⟨q, hq, hhit'⟩ := List.mem_filterMap.1 hb
  rw [hit_score hhit] at hab hba ⊢
  rw [hit_score hhit'] at hab hba ⊢
  have hid : r.id = q.id := by
    cases hab with
    | inl hlt =>
      cases hba with
      | inl hlt' => exact absurd (hlt.trans hlt') (lt_irrefl _)
      | inr heq => exact absurd (heq.1 ▸ hlt) (lt_irrefl _)
    | inr hle =>
      cases hba with
      | inl hlt => exact absurd (hle.1 ▸ hlt) (lt_irrefl _)
      | inr hle' => exact String.le_antisymm hle.2 hle'.2
  rw [eq_of_id hkeyed hr hq hid]

def live (now : Rat) (h : MemoryRecord × Rat) : Bool :=
  !h.1.expiresAt.any fun t => decide (t < now)

theorem hit_eq (u : Unicode) (text : String) (scope : MemoryScope)
    (types : Option (List MemoryType)) (sup : Bool) (now : Rat) (r : MemoryRecord) :
    ((Option.guard (fun r => scope.covers r.scope) r).bind
      (LangGraph.hit u text types sup now)) =
        (Records.hit u text scope types sup r).filter (live now) := by
  rw [Records.hit, Option.guard]
  cases scope.covers r.scope with
  | false => rfl
  | true =>
    simp only [if_true, Option.bind_some, Bool.not_true, Bool.false_eq_true, if_false]
    rw [LangGraph.hit]
    split
    · rfl
    · split
      · rfl
      · by_cases hpos : 0 < overlapScore u text r.content
        · simp only [if_pos hpos]
          cases hexp : r.expiresAt.any fun t => decide (t < now) <;>
            simp [Option.filter, live, hexp]
        · simp only [if_neg hpos, ite_self]
          rfl

/-! Answers. -/

/-- The calls that both backends are made for: new records have new ids, and an update keeps the
scope of its record. -/
def Admitted (cfg : LangGraphConfig) (d : Records) : BackendCall → Prop
  | .put r => r.id ∉ d ∧ cfg.sanitize r.content = r.content
  | .update r => (∀ old, d.get? r.id = some old → old.scope = r.scope) ∧
      cfg.sanitize r.content = r.content
  | _ => True

/-- A search finds no expired record among its first `k`, an id is not the address of a legacy
fact, and no scan exceeds `max_scan`. -/
def Unexpired (cfg : LangGraphConfig) (u : Unicode) (d : Records) : BackendCall → Prop
  | .put r => decodeLegacyId cfg.json r.id = none
  | .search text scope types k includeSuperseded now => 0 < k → TenantFits cfg d scope ∧
      ∀ h ∈ matched d u text scope types includeSuperseded, live now h = false →
        Outranked Records.Closer (matched d u text scope types includeSuperseded) k.toNat h
  | .list scope _ _ => TenantFits cfg d scope
  | _ => True

theorem search_eq (h : Mirrors cfg d store) (hlegacy : cfg.legacyNs = [])
    (hok : Unexpired cfg u d (.search text scope types k sup now)) :
    LangGraph.search cfg store u text scope types k sup now =
      .ok (d.search u text scope types (max k 0).toNat sup) := by
  rw [LangGraph.search]
  by_cases hk : k ≤ 0
  · rw [if_pos hk, max_eq_right hk, Records.search]
    rfl
  · obtain ⟨hfit, hbehind⟩ := hok (lt_of_not_ge hk)
    obtain ⟨records, hvisible, hperm⟩ := visible_perm h hlegacy hfit
    rw [if_neg hk, hvisible, max_eq_left (le_of_not_ge hk)]
    change Except.ok _ = Except.ok _
    have hhits : (records.filterMap (LangGraph.hit u text types sup now)).Perm
        ((matched d u text scope types sup).filter (live now)) := by
      apply (hperm.filterMap _).trans
      rw [← List.filterMap_eq_filter, List.filterMap_filterMap, matched,
        ← List.filterMap_eq_filter, List.filterMap_filterMap]
      apply List.Perm.of_eq
      apply List.filterMap_congr
      intro r _
      rw [hit_eq]
      cases Records.hit u text scope types sup r <;> rfl
    have hstrict : Strict Records.Closer (matched d u text scope types sup) :=
      strict_closer h.keyed
    rw [← insertionSort_eq_of_perm hhits.symm
      (hstrict.mono fun a ha => List.mem_of_mem_filter ha)]
    exact congrArg Except.ok (take_insertionSort_filter hstrict hbehind)

theorem list_eq (h : Mirrors cfg d store) (hlegacy : cfg.legacyNs = [])
    (hfit : TenantFits cfg d scope) :
    LangGraph.list cfg store scope since limit =
      .ok (d.list scope since (max limit 0).toNat) := by
  obtain ⟨records, hvisible, hperm⟩ := visible_perm h hlegacy hfit
  rw [LangGraph.list, hvisible]
  change Except.ok _ = Except.ok _
  have hkept : (records.filter fun r => since.all fun t => decide (t < r.provenance.createdAt)).Perm
      (d.values.filter (Records.listed scope since)) := by
    apply (hperm.filter _).trans
    rw [List.filter_filter]
    apply List.Perm.of_eq
    apply List.filter_congr
    intro r _
    exact Bool.and_comm _ _
  have hstrict := strict_earlier h.keyed
  rw [← insertionSort_eq_of_perm hkept.symm (hstrict.mono fun a ha => List.mem_of_mem_filter ha),
    insertionSort_filter hstrict]
  rfl

theorem Mirrors.purgeOne (h : Mirrors cfg d store) (hlegacy : cfg.legacyNs = [])
    (scope : MemoryScope) (rid : String) (rest : List String) (removed : Nat) :
    ∃ store', Mirrors cfg (Records.purgeOne scope (d, removed) rid).1 store' ∧
      LangGraph.purgeEach cfg scope (rid :: rest) store removed =
        LangGraph.purgeEach cfg scope rest store'
          (Records.purgeOne scope (d, removed) rid).2 := by
  rw [LangGraph.purgeEach, locate_eq h hlegacy, Records.purgeOne, Records.visible]
  cases hget : d.get rid scope with
  | none => exact ⟨store, h, rfl⟩
  | some r => exact ⟨_, h.erase (Records.get_eq_some.1 hget).1, rfl⟩

theorem Mirrors.purgeEach (h : Mirrors cfg d store) (hlegacy : cfg.legacyNs = [])
    (scope : MemoryScope) (rids : List String) (removed : Nat) :
    ∃ store', Mirrors cfg (rids.foldl (Records.purgeOne scope) (d, removed)).1 store' ∧
      LangGraph.purgeEach cfg scope rids store removed =
        .ok (store', (rids.foldl (Records.purgeOne scope) (d, removed)).2) := by
  induction rids generalizing d store removed with
  | nil => exact ⟨store, h, rfl⟩
  | cons rid rest ih =>
    obtain ⟨store₁, h₁, heq⟩ := h.purgeOne hlegacy scope rid rest removed
    obtain ⟨store₂, h₂, hrest⟩ := ih h₁ (Records.purgeOne scope (d, removed) rid).2
    exact ⟨store₂, h₂, heq.trans hrest⟩

theorem visible_purgeOne (acc : Records × Nat) (rid other : String) :
    (Records.purgeOne scope acc rid).1.visible scope other = true →
      acc.1.visible scope other = true ∧ other ≠ rid := by
  intro hvisible
  obtain ⟨r, hr⟩ := Option.isSome_iff_exists.1 hvisible
  obtain ⟨hget, hcovers⟩ := Records.get_eq_some.1 hr
  obtain ⟨hbefore, hother⟩ := (Records.get?_purgeOne acc rid).1 hget
  refine ⟨Option.isSome_iff_exists.2 ⟨r, Records.get_eq_some.2 ⟨hbefore, hcovers⟩⟩, ?_⟩
  cases hother with
  | inl hne => exact hne
  | inr hhidden => exact absurd (hcovers.symm.trans hhidden) (by decide)

theorem foldl_purgeOne_filter (rids : List String) (acc : Records × Nat)
    (h : ¬ acc.1.visible scope rid = true) :
    (rids.filter fun other => !other == rid).foldl (Records.purgeOne scope) acc =
      rids.foldl (Records.purgeOne scope) acc := by
  induction rids generalizing acc with
  | nil => rfl
  | cons other rest ih =>
    have hlater : ¬ (Records.purgeOne scope acc other).1.visible scope rid = true :=
      fun hvisible => h (visible_purgeOne acc other rid hvisible).1
    by_cases heq : other = rid
    · subst heq
      have hskip : Records.purgeOne scope acc other = acc := if_neg h
      rw [List.filter_cons_of_neg (by simp), ih acc h, List.foldl_cons, hskip]
    · rw [List.filter_cons_of_pos (by simpa using heq), List.foldl_cons, List.foldl_cons,
        ih _ hlater]

theorem foldl_purgeOne_eraseDups (rids : List String) (acc : Records × Nat) :
    rids.eraseDups.foldl (Records.purgeOne scope) acc =
      rids.foldl (Records.purgeOne scope) acc := by
  induction hlen : rids.length using Nat.strong_induction_on generalizing rids acc with
  | _ n ih =>
    cases rids with
    | nil => rfl
    | cons rid rest =>
      have hgone : ¬ (Records.purgeOne scope acc rid).1.visible scope rid = true :=
        fun hvisible => (visible_purgeOne acc rid rid hvisible).2 rfl
      have hshort : (rest.filter fun other => !other == rid).length < n := by
        rw [← hlen]
        exact Nat.lt_succ_of_le (List.length_filter_le _ _)
      rw [List.eraseDups_cons, List.foldl_cons, List.foldl_cons, ih _ hshort _ _ rfl,
        foldl_purgeOne_filter rest _ hgone]

theorem covers_self (scope : MemoryScope) : scope.covers scope = true := by
  simp [MemoryScope.covers, compatible]

theorem Mirrors.answer (h : Mirrors cfg d store) (hlegacy : cfg.legacyNs = [])
    (hadmitted : Admitted cfg d c) (hok : Unexpired cfg u d c) :
    (d.answer u c).1 = (LangGraph.answer cfg u store c).1 ∧
      Mirrors cfg (d.answer u c).2 (LangGraph.answer cfg u store c).2 := by
  cases c with
  | put r =>
    have hnative : Native cfg r := ⟨hok, hadmitted.2⟩
    have hnone : d.get r.id r.scope = none := by
      rw [Records.get, Dict.get?_eq_none.2 hadmitted.1]
      rfl
    have hput : LangGraph.put cfg store r =
        .ok (store.set (entryOf cfg r).1 (entryOf cfg r).2) := by
      rw [LangGraph.put, locate_eq h hlegacy, hnone]
      change Except.ok (store.set (LangGraph.target cfg r) _) = _
      rw [hnative.target_eq]
      rfl
    rw [LangGraph.answer, hput]
    exact ⟨rfl, h.put hadmitted.1 hnative⟩
  | get rid scope =>
    have hget : LangGraph.get cfg store rid scope = .ok (d.get rid scope) := by
      rw [LangGraph.get, locate_eq h hlegacy]
      cases d.get rid scope <;> rfl
    rw [LangGraph.answer, hget]
    exact ⟨rfl, h⟩
  | search text scope types k sup now =>
    rw [LangGraph.answer, search_eq h hlegacy hok]
    exact ⟨rfl, h⟩
  | update r =>
    rw [Records.answer, LangGraph.answer, LangGraph.update, locate_eq h hlegacy]
    cases hold : d.get? r.id with
    | none =>
      have hnone : d.get r.id r.scope = none := by
        rw [Records.get, hold]
        rfl
      rw [if_neg (Dict.get?_eq_none.1 hold), hnone]
      exact ⟨rfl, h⟩
    | some old =>
      have hscope := hadmitted.1 old hold
      have hcovers : d.get r.id r.scope = some old :=
        Records.get_eq_some.2 ⟨hold, hscope ▸ covers_self old.scope⟩
      have hnative : Native cfg r := by
        have hdecode := (h.native old (Dict.mem_values.2 ⟨r.id, hold⟩)).decode
        rw [h.keyed r.id old hold] at hdecode
        exact ⟨hdecode, hadmitted.2⟩
      rw [if_pos (Dict.mem_of_get? hold), hcovers]
      exact ⟨rfl, h.update hold hnative⟩
  | list scope since limit =>
    rw [LangGraph.answer, list_eq h hlegacy hok]
    exact ⟨rfl, h⟩
  | purge rids scope authorized =>
    cases authorized with
    | none => exact ⟨rfl, h⟩
    | some actor =>
      obtain ⟨store', hstore', heq⟩ := h.purgeEach hlegacy scope rids.eraseDups 0
      rw [foldl_purgeOne_eraseDups] at hstore' heq
      rw [LangGraph.answer, LangGraph.purge, heq]
      exact ⟨rfl, hstore'⟩

/-! Runs of calls. -/

def bothStep (cfg : LangGraphConfig) (u : Unicode) (s : Records × BaseStore) (c : BackendCall) :
    Records × BaseStore :=
  ((s.1.answer u c).2, (LangGraph.answer cfg u s.2 c).2)

def fresh : Records × BaseStore := (∅, ∅)

/-- Two backends are given the same calls. Where no search meets an expired record among its first
`k` hits, no new id is the address of a legacy fact and no scan exceeds `max_scan`, they give the
same answers and raise in the same cases. -/
theorem interchangeable (cfg : LangGraphConfig) (u : Unicode) (hlegacy : cfg.legacyNs = [])
    (calls : List BackendCall)
    (hcalls : Run.Along (bothStep cfg u)
      (fun s c _ => Admitted cfg s.1 c ∧ Unexpired cfg u s.1 c) fresh calls) :
    Run.Along (bothStep cfg u)
      (fun s c _ => (s.1.answer u c).1 = (LangGraph.answer cfg u s.2 c).1) fresh calls := by
  apply Run.Along.of_invariant (I := fun s _ => Mirrors cfg s.1 s.2) (mirrors_empty cfg) _ hcalls
  intro s c rest hmirrors hc
  exact hmirrors.answer hlegacy hc.1 hc.2

/-! A fact in both backends. -/

noncomputable def writtenJson : JsonReader where
  loads text := open Classical in
    if h : ∃ t, wellFormed t = true ∧ idDialect.write t = text then some h.choose else none
  str t := match t with
    | .str s => s
    | _ => ""
  loads_write t ht := by
    have h : ∃ t', wellFormed t' = true ∧ idDialect.write t' = idDialect.write t := ⟨t, ht, rfl⟩
    rw [dif_pos h, idDialect.write_injective h.choose_spec.1 ht h.choose_spec.2]
  str_str _ := rfl

noncomputable def plainConfig : LangGraphConfig where
  search := ⟨id, fun _ => List.Perm.refl _⟩
  json := writtenJson
  sanitize := id
  legacyNs := []
  legacyOrg := none
  pageSize := 200
  maxScanArg := none
  unrooted ns h := by cases h

def ascii : Unicode where
  isWord c := c.isAlphanum || c == '_'
  lower text := String.ofList (text.toList.map Char.toLower)
  casefold text := String.ofList (text.toList.map Char.toLower)

def teaScope : MemoryScope where
  orgId := "tea-house"
  nonEmpty := by decide

def teaFact (expiresAt : Option Rat) : MemoryRecord where
  id := "mem_1"
  type := .semantic
  content := "tea"
  scope := teaScope
  provenance := ⟨.human, [], none, none, 1, false, .trusted, []⟩
  confidence := 1
  expiresAt := expiresAt

def teaSearch (now : Rat) : BackendCall := .search "tea" teaScope none 5 false now

theorem overlap_tea : overlapScore ascii "tea" "tea" = 1 := by decide +kernel

theorem hit_tea (expiresAt : Option Rat) :
    Records.hit ascii "tea" teaScope none false (teaFact expiresAt) =
      some (teaFact expiresAt, 1) := by
  have hscore : overlapScore ascii "tea" (teaFact expiresAt).content = 1 := overlap_tea
  rw [Records.hit, hscore]
  rfl

def teaCalls (expiresAt : Option Rat) : List BackendCall :=
  [.put (teaFact expiresAt), teaSearch 20]

theorem answer_tea (expiresAt : Option Rat) :
    ((fresh.1.put (teaFact expiresAt)).answer ascii (teaSearch 20)).1 =
      .ok (.hits [(teaFact expiresAt, 1)]) := by
  have hmatched : matched (fresh.1.put (teaFact expiresAt)) ascii "tea" teaScope none false =
      [(teaFact expiresAt, 1)] := List.filterMap_cons_some (hit_tea expiresAt)
  change Except.ok (BackendAnswer.hits
    ((List.insertionSort Records.Closer (matched _ _ _ _ _ _)).take 5)) = _
  rw [hmatched]
  rfl

/-- A fact that has expired: only the in-memory backend still finds it. -/
theorem expired_found_in_memory :
    Run.Along (bothStep plainConfig ascii) (fun s c _ => Admitted plainConfig s.1 c) fresh
      (teaCalls (some 10)) ∧
    ¬ Run.Along (bothStep plainConfig ascii)
      (fun s c _ => (s.1.answer ascii c).1 = (LangGraph.answer plainConfig ascii s.2 c).1) fresh
      (teaCalls (some 10)) := by
  refine ⟨⟨⟨?_, rfl⟩, trivial, trivial⟩, ?_⟩
  · intro h
    cases h
  · intro h
    obtain ⟨-, hsearch, -⟩ := h
    have hstore : (LangGraph.answer plainConfig ascii
        (bothStep plainConfig ascii fresh (.put (teaFact (some 10)))).2 (teaSearch 20)).1 =
          .ok (.hits []) := rfl
    change ((fresh.1.put (teaFact (some 10))).answer ascii (teaSearch 20)).1 = _ at hsearch
    rw [answer_tea, hstore] at hsearch
    cases hsearch

/-- A fact that does not expire is found in both. -/
theorem interchangeable_tea :
    Run.Along (bothStep plainConfig ascii)
      (fun s c _ => (s.1.answer ascii c).1 = (LangGraph.answer plainConfig ascii s.2 c).1) fresh
      (teaCalls none) := by
  apply interchangeable plainConfig ascii rfl (teaCalls none)
  refine ⟨⟨⟨?_, rfl⟩, rfl⟩, ⟨trivial, ?_⟩, trivial⟩
  · intro h
    cases h
  · intro _
    refine ⟨?_, ?_⟩
    · intro m hm
      cases hm
    · intro h hh hexpired
      have hmatched : matched (fresh.1.put (teaFact none)) ascii "tea" teaScope none false =
          [(teaFact none, 1)] := List.filterMap_cons_some (hit_tea none)
      change h ∈ matched (fresh.1.put (teaFact none)) ascii "tea" teaScope none false at hh
      rw [hmatched] at hh
      cases List.mem_singleton.1 hh
      cases hexpired

end Prismal.Memory
