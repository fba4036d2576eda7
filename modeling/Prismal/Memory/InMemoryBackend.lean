import Prismal.Memory.Types

namespace Prismal.Memory
open Prismal.Lib
set_option autoImplicit true

/-- The Unicode tables that the text functions consult. -/
structure Unicode where
  isWord : Char → Bool
  lower : String → String
  casefold : String → String

def normalizeContent (u : Unicode) (text : String) : String :=
  strip (collapse isSpace (collapse (fun c => !u.isWord c && !isSpace c) (u.casefold text)))

def isTainted (r : MemoryRecord) : Bool :=
  r.provenance.tainted || decide (r.provenance.trust = .untrusted)

/-- Tainted or non-trusted provenance may only be stored as `EPISODIC`. -/
def allowedTypes (p : Provenance) : List MemoryType :=
  if p.tainted || decide (p.trust ≠ .trusted) then [.episodic] else MemoryType.all

def provenanceRank (r : MemoryRecord) : Nat :=
  if r.provenance.origin = .human then 3
  else
    match r.provenance.trust with
    | .trusted => 2
    | .unknown => 1
    | .untrusted => 0

inductive BlockReason where
  | self
  | tenant
  | scope
  | t6
  | precedence
  deriving DecidableEq, Repr

/-- Why `newer` may not supersede `older`. -/
def supersedeBlockReason (newer older : MemoryRecord) : Option BlockReason :=
  if newer.id = older.id then some .self
  else if newer.scope.orgId ≠ older.scope.orgId then some .tenant
  else if newer.scope ≠ older.scope then some .scope
  else if isTainted newer && !isTainted older then some .t6
  else if provenanceRank newer < provenanceRank older then some .precedence
  else none

def maySupersede (newer older : MemoryRecord) : Bool := (supersedeBlockReason newer older).isNone

def agree (u : Unicode) : List MemoryRecord → Bool
  | [] => false
  | first :: rest =>
    (rest.any fun second =>
      decide (normalizeContent u second.content = normalizeContent u first.content) &&
        decide (second.id ≠ first.id) &&
        second.provenance.sourceMessageIds.all fun m =>
          decide (m ∉ first.provenance.sourceMessageIds)) || agree u rest

def independentAgreement (u : Unicode) (records : List MemoryRecord) : Bool :=
  agree u (records.filter fun r => !isTainted r && !r.provenance.sourceMessageIds.isEmpty)

def mayPromote (u : Unicode) (records : List MemoryRecord) (target : MemoryType)
    (humanApproved : Bool) : Bool :=
  if target = .episodic || humanApproved then true
  else if records.isEmpty then false
  else if records.all fun r => !isTainted r && decide (r.provenance.trust = .trusted) then true
  else independentAgreement u records

/-- The tests of `supersede_block_reason` that a winner passed. -/
structure Supersedes (winner loser : MemoryRecord) : Prop where
  other : winner.id ≠ loser.id
  scope : winner.scope = loser.scope
  taint : isTainted winner = true → isTainted loser = true
  rank : provenanceRank loser ≤ provenanceRank winner

theorem supersedes_of_noBlock (h : supersedeBlockReason winner loser = none) :
    Supersedes winner loser := by
  rw [supersedeBlockReason] at h
  split at h
  · cases h
  next hid =>
    split at h
    · cases h
    · split at h
      · cases h
      next hsc =>
        split at h
        · cases h
        next ht =>
          split at h
          · cases h
          next hr =>
            refine ⟨hid, not_not.1 hsc, fun hw => ?_, Nat.le_of_not_lt hr⟩
            rw [hw, Bool.true_and, Bool.not_eq_true', Bool.not_eq_false] at ht
            exact ht

theorem supersedes_of_may (h : maySupersede winner loser = true) : Supersedes winner loser :=
  supersedes_of_noBlock (Option.isNone_iff_eq_none.1 h)

theorem isTainted_eq_false {r : MemoryRecord} :
    isTainted r = false ↔ r.provenance.tainted = false ∧ r.provenance.trust ≠ .untrusted := by
  rw [isTainted, Bool.or_eq_false_iff, decide_eq_false_iff_not]

abbrev Records := Dict String MemoryRecord

def tokens (u : Unicode) (text : String) : Finset String :=
  ((runs u.isWord text).map u.lower).toFinset

def overlapScore (u : Unicode) (query content : String) : Rat :=
  if tokens u query = ∅ then 0
  else ((tokens u query ∩ tokens u content).card : Rat) / (tokens u query).card

namespace Records

variable {d : Records} {r : MemoryRecord} {scope : MemoryScope}

def put (d : Records) (r : MemoryRecord) : Records := d.set r.id r

def get (d : Records) (id : String) (scope : MemoryScope) : Option MemoryRecord :=
  (d.get? id).filter fun r => scope.covers r.scope

def hit (u : Unicode) (text : String) (scope : MemoryScope) (types : Option (List MemoryType))
    (includeSuperseded : Bool) (r : MemoryRecord) : Option (MemoryRecord × Rat) :=
  if !scope.covers r.scope then none
  else if !types.all fun ts => decide (r.type ∈ ts) then none
  else if r.supersededBy.isSome && !includeSuperseded then none
  else if 0 < overlapScore u text r.content then some (r, overlapScore u text r.content)
  else none

def Closer (a b : MemoryRecord × Rat) : Prop := b.2 < a.2 ∨ a.2 = b.2 ∧ a.1.id ≤ b.1.id

instance : DecidableRel Closer := fun _ _ => inferInstanceAs (Decidable (_ ∨ _))

def search (d : Records) (u : Unicode) (text : String) (scope : MemoryScope)
    (types : Option (List MemoryType)) (k : Nat) (includeSuperseded : Bool) :
    List (MemoryRecord × Rat) :=
  ((d.values.filterMap (hit u text scope types includeSuperseded)).insertionSort Closer).take k

def Earlier (a b : MemoryRecord) : Prop :=
  a.provenance.createdAt < b.provenance.createdAt ∨
    a.provenance.createdAt = b.provenance.createdAt ∧ a.id ≤ b.id

instance : DecidableRel Earlier := fun _ _ => inferInstanceAs (Decidable (_ ∨ _))

def listed (scope : MemoryScope) (since : Option Rat) (r : MemoryRecord) : Bool :=
  scope.covers r.scope && since.all fun t => decide (t < r.provenance.createdAt)

def list (d : Records) (scope : MemoryScope) (since : Option Rat) (limit : Nat) :
    List MemoryRecord :=
  ((d.values.insertionSort Earlier).filter (listed scope since)).take limit

def visible (d : Records) (scope : MemoryScope) (id : String) : Bool := (d.get id scope).isSome

def purgeOne (scope : MemoryScope) (acc : Records × Nat) (id : String) : Records × Nat :=
  if acc.1.visible scope id then (acc.1.erase id, acc.2 + 1) else acc

def purge (d : Records) (ids : List String) (scope : MemoryScope) : Records × Nat :=
  ids.foldl (purgeOne scope) (d, 0)

def Keyed (d : Records) : Prop := ∀ id r, d.get? id = some r → r.id = id

theorem keyed_empty : Keyed (∅ : Records) := by
  intro id r h
  rw [Dict.get?_empty] at h
  cases h

theorem Keyed.put (h : Keyed d) (r : MemoryRecord) : Keyed (d.put r) := by
  intro id q hq
  rw [Records.put, Dict.get?_set] at hq
  split at hq
  next he =>
    cases hq
    exact he
  next => exact h id q hq

theorem Keyed.of_subset (h : Keyed d) {d' : Records}
    (hsub : ∀ id r, d'.get? id = some r → d.get? id = some r) : Keyed d' :=
  fun id r hr => h id r (hsub id r hr)

theorem Keyed.stored (h : Keyed d) (hr : r ∈ d.values) : d.get? r.id = some r := by
  obtain ⟨id, hid⟩ := Dict.mem_values.1 hr
  rw [h id r hid]
  exact hid

theorem get_eq_some {id : String} :
    d.get id scope = some r ↔ d.get? id = some r ∧ scope.covers r.scope = true := by
  rw [get, Option.filter_eq_some_iff]

theorem hit_eq_some (h : hit u text scope types sup r = some (q, score)) :
    q = r ∧ scope.covers r.scope = true ∧ (∀ ts, types = some ts → r.type ∈ ts) ∧
      (sup = false → r.supersededBy = none) := by
  rw [hit] at h
  split at h
  · cases h
  next hc =>
    split at h
    · cases h
    next ht =>
      split at h
      · cases h
      next hs =>
        split at h
        · rw [Option.some.injEq, Prod.mk.injEq] at h
          refine ⟨h.1.symm, by simpa using hc, fun ts hts => ?_, fun hsup => ?_⟩
          · simpa [hts] using ht
          · simpa [hsup] using hs
        · cases h

theorem hit_of_search (h : (r, score) ∈ d.search u text scope types k sup) :
    r ∈ d.values ∧ hit u text scope types sup r = some (r, score) := by
  have hm := (List.mem_insertionSort Closer).1 (List.mem_of_mem_take h)
  obtain ⟨q, hq, hhit⟩ := List.mem_filterMap.1 hm
  obtain ⟨rfl, -⟩ := hit_eq_some hhit
  exact ⟨hq, hhit⟩

theorem mem_search (hd : Keyed d) (h : (r, score) ∈ d.search u text scope types k sup) :
    d.get? r.id = some r ∧ scope.covers r.scope = true ∧
      (∀ ts, types = some ts → r.type ∈ ts) ∧ (sup = false → r.supersededBy = none) := by
  obtain ⟨hm, hhit⟩ := hit_of_search h
  exact ⟨hd.stored hm, (hit_eq_some hhit).2⟩

theorem Keyed.ids (h : Keyed d) : d.values.map MemoryRecord.id = d.keys := by
  rw [Dict.values, Dict.keys, List.map_map]
  apply List.map_congr_left
  rintro ⟨id, r⟩ hm
  exact h id r (Dict.get?_eq_some.2 hm)

theorem Keyed.ids_nodup (h : Keyed d) : (d.values.map MemoryRecord.id).Nodup := by
  rw [h.ids]
  exact d.nodup

theorem hit_sublist (rs : List MemoryRecord) :
    ((rs.filterMap (hit u text scope types sup)).map Prod.fst).Sublist rs := by
  induction rs with
  | nil => exact List.Sublist.slnil
  | cons r rs ih =>
    rw [List.filterMap_cons]
    split
    · exact ih.cons _
    next h hh =>
      rw [List.map_cons, (hit_eq_some hh).1]
      exact ih.cons_cons _

theorem search_nodup (hd : Keyed d) :
    (((d.search u text scope types k sup).map Prod.fst).map MemoryRecord.id).Nodup := by
  have hsub : ((d.values.filterMap (hit u text scope types sup)).map Prod.fst).Sublist d.values :=
    hit_sublist d.values
  have hall := hd.ids_nodup.sublist (hsub.map MemoryRecord.id)
  have hperm := List.perm_insertionSort Closer (d.values.filterMap (hit u text scope types sup))
  have hsorted := (((hperm.map Prod.fst).map MemoryRecord.id).nodup_iff).2 hall
  exact hsorted.sublist (((List.take_sublist k _).map Prod.fst).map MemoryRecord.id)

theorem mem_list (hd : Keyed d) (h : r ∈ d.list scope since limit) :
    d.get? r.id = some r ∧ scope.covers r.scope = true := by
  obtain ⟨hm, hp⟩ := List.mem_filter.1 (List.mem_of_mem_take h)
  rw [listed, Bool.and_eq_true] at hp
  exact ⟨hd.stored ((List.mem_insertionSort Earlier).1 hm), hp.1⟩

theorem list_nodup (hd : Keyed d) :
    ((d.list scope since limit).map MemoryRecord.id).Nodup := by
  have hperm := (List.perm_insertionSort Earlier d.values).map MemoryRecord.id
  have hsub : (d.list scope since limit).Sublist (d.values.insertionSort Earlier) :=
    (List.take_sublist _ _).trans List.filter_sublist
  exact (hperm.nodup_iff.2 hd.ids_nodup).sublist (hsub.map _)

theorem get?_put {id : String} (d : Records) (r : MemoryRecord) :
    (d.put r).get? id = if r.id = id then some r else d.get? id := Dict.get?_set d

theorem get?_purgeOne {id : String} (acc : Records × Nat) (i : String) :
    (purgeOne scope acc i).1.get? id = some r ↔
      acc.1.get? id = some r ∧ (id ≠ i ∨ scope.covers r.scope = false) := by
  rw [purgeOne]
  by_cases hv : acc.1.visible scope i
  · rw [if_pos hv]
    change (acc.1.erase i).get? id = some r ↔ _
    rw [Dict.get?_erase]
    by_cases he : i = id
    · subst he
      rw [if_pos rfl]
      constructor
      · intro h
        cases h
      · rintro ⟨hr, h | h⟩
        · exact absurd rfl h
        · rw [visible, Option.isSome_iff_exists] at hv
          obtain ⟨q, hq⟩ := hv
          obtain ⟨hq, hc⟩ := get_eq_some.1 hq
          obtain rfl := Option.some.inj (hr.symm.trans hq)
          rw [hc] at h
          cases h
    · have hne : id ≠ i := fun h => he h.symm
      simp only [he, if_false, hne, ne_eq, not_false_eq_true, true_or, and_true]
  · rw [if_neg hv]
    by_cases he : id = i
    · subst he
      refine ⟨fun hr => ⟨hr, Or.inr ?_⟩, fun h => h.1⟩
      by_contra hc
      rw [visible, Option.isSome_iff_exists] at hv
      exact hv ⟨r, get_eq_some.2 ⟨hr, by simpa using hc⟩⟩
    · exact ⟨fun hr => ⟨hr, Or.inl he⟩, fun h => h.1⟩

theorem get?_foldl_purgeOne {id : String} (ids : List String) (acc : Records × Nat) :
    (ids.foldl (purgeOne scope) acc).1.get? id = some r ↔
      acc.1.get? id = some r ∧ (id ∉ ids ∨ scope.covers r.scope = false) := by
  induction ids generalizing acc with
  | nil => simp
  | cons i ids ih =>
    rw [List.foldl_cons, ih, get?_purgeOne, List.mem_cons, not_or]
    constructor
    · rintro ⟨⟨hr, h₁⟩, h₂⟩
      refine ⟨hr, ?_⟩
      rcases h₁ with h₁ | h₁
      · exact h₂.imp_left fun h => ⟨h₁, h⟩
      · exact Or.inr h₁
    · rintro ⟨hr, h⟩
      exact ⟨⟨hr, h.imp_left And.left⟩, h.imp_left And.right⟩

theorem get?_purge {id : String} (d : Records) (ids : List String) (scope : MemoryScope) :
    (d.purge ids scope).1.get? id = some r ↔
      d.get? id = some r ∧ (id ∉ ids ∨ scope.covers r.scope = false) :=
  get?_foldl_purgeOne ids (d, 0)

end Records

theorem earlier_total (a b : MemoryRecord) : Records.Earlier a b ∨ Records.Earlier b a := by
  rw [Records.Earlier, Records.Earlier]
  rcases lt_trichotomy a.provenance.createdAt b.provenance.createdAt with h | h | h
  · exact Or.inl (Or.inl h)
  · rcases String.le_total a.id b.id with hid | hid
    · exact Or.inl (Or.inr ⟨h, hid⟩)
    · exact Or.inr (Or.inr ⟨h.symm, hid⟩)
  · exact Or.inr (Or.inl h)

theorem earlier_trans (h : Records.Earlier a b) (h' : Records.Earlier b r) :
    Records.Earlier a r := by
  rcases h with h | ⟨h, hid⟩
  · rcases h' with h' | ⟨h', -⟩
    · exact Or.inl (h.trans h')
    · exact Or.inl (h' ▸ h)
  · rcases h' with h' | ⟨h', hid'⟩
    · exact Or.inl (h ▸ h')
    · exact Or.inr ⟨h.trans h', String.le_trans hid hid'⟩

instance : Std.Total Records.Earlier := ⟨earlier_total⟩

instance : IsTrans MemoryRecord Records.Earlier := ⟨fun _ _ _ => earlier_trans⟩

theorem sorted_values (d : Records) : (d.values.insertionSort Records.Earlier).Pairwise
    Records.Earlier := by
  exact List.pairwise_insertionSort Records.Earlier _

theorem closer_total (a b : MemoryRecord × Rat) : Records.Closer a b ∨ Records.Closer b a := by
  rw [Records.Closer, Records.Closer]
  rcases lt_trichotomy a.2 b.2 with h | h | h
  · exact Or.inr (Or.inl h)
  · rcases String.le_total a.1.id b.1.id with hid | hid
    · exact Or.inl (Or.inr ⟨h, hid⟩)
    · exact Or.inr (Or.inr ⟨h.symm, hid⟩)
  · exact Or.inl (Or.inl h)

theorem closer_trans (h : Records.Closer a b) (h' : Records.Closer b r) : Records.Closer a r := by
  rcases h with h | ⟨h, hid⟩
  · rcases h' with h' | ⟨h', -⟩
    · exact Or.inl (h'.trans h)
    · exact Or.inl (h' ▸ h)
  · rcases h' with h' | ⟨h', hid'⟩
    · exact Or.inl (h ▸ h')
    · exact Or.inr ⟨h.trans h', String.le_trans hid hid'⟩

instance : Std.Total Records.Closer := ⟨closer_total⟩

instance : IsTrans (MemoryRecord × Rat) Records.Closer := ⟨fun _ _ _ => closer_trans⟩

end Prismal.Memory
