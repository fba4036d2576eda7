import Prismal.Agents.Artifacts

namespace Prismal.Agents
open Prismal.Lib
set_option autoImplicit true

/-! What the adapters answer, and what the one in memory evicts. -/

variable {m : ArtifactMemory} {records : Dict String ArtifactRecord} {r q : ArtifactRecord}
  {id tenant : String} {ids : List String} {now : Rat}

/-! The records of a tenant. -/

def ownIds (records : Dict String ArtifactRecord) (tenant : String) : List String :=
  (records.entries.filter fun e => decide (e.2.ref.tenant = tenant)).map Prod.fst

def without (records : Dict String ArtifactRecord) (ids : List String) :
    Dict String ArtifactRecord := records.restrict fun id => decide (id ∉ ids)

theorem mem_ownIds : id ∈ ownIds records tenant ↔
    ∃ r, records.get? id = some r ∧ r.ref.tenant = tenant := by
  rw [ownIds, List.mem_map]
  constructor
  · rintro ⟨e, he, rfl⟩
    obtain ⟨hmem, ht⟩ := List.mem_filter.1 he
    exact ⟨e.2, Dict.get?_eq_some.2 hmem, of_decide_eq_true ht⟩
  · rintro ⟨r, hr, ht⟩
    exact ⟨(id, r), List.mem_filter.2 ⟨Dict.get?_eq_some.1 hr, decide_eq_true ht⟩, rfl⟩

theorem nodup_ownIds (records : Dict String ArtifactRecord) (tenant : String) :
    (ownIds records tenant).Nodup :=
  records.nodup.sublist ((List.filter_sublist).map Prod.fst)

theorem ownIds_restrict (p : String → Bool) (records : Dict String ArtifactRecord)
    (tenant : String) : ownIds (records.restrict p) tenant = (ownIds records tenant).filter p := by
  rw [ownIds, ownIds, List.filter_map, List.filter_filter]
  have hentries : (records.restrict p).entries = records.entries.filter fun e => p e.1 := rfl
  rw [hentries, List.filter_filter]
  congr 1
  apply List.filter_congr
  intro e _
  exact Bool.and_comm _ _

theorem ownIds_set_new (h : r.ref.id ∉ records) :
    ownIds (records.set r.ref.id r) tenant =
      ownIds records tenant ++ if r.ref.tenant = tenant then [r.ref.id] else [] := by
  have hentries : (records.set r.ref.id r).entries = records.entries ++ [(r.ref.id, r)] :=
    Dict.put_new records.entries h
  rw [ownIds, hentries, List.filter_append, List.map_append]
  congr 1
  by_cases ht : r.ref.tenant = tenant
  · have hkeep : [(r.ref.id, r)].filter (fun e => decide (e.2.ref.tenant = tenant)) =
        [(r.ref.id, r)] := List.filter_cons_of_pos (decide_eq_true ht)
    rw [if_pos ht, hkeep]
    rfl
  · have hdrop : [(r.ref.id, r)].filter (fun e => decide (e.2.ref.tenant = tenant)) = [] :=
      List.filter_cons_of_neg fun hd => ht (of_decide_eq_true hd)
    rw [if_neg ht, hdrop]
    rfl

theorem without_nil (records : Dict String ArtifactRecord) : without records [] = records :=
  Dict.filter_all fun _ _ => decide_eq_true List.not_mem_nil

theorem without_erase (records : Dict String ArtifactRecord) (id : String) (ids : List String) :
    without (records.erase id) ids = without records (id :: ids) := by
  rw [without, without, Dict.restrict, Dict.restrict, Dict.erase, Dict.filter_filter]
  apply Dict.filter_congr
  intro e _
  rw [Bool.eq_iff_iff, Bool.and_eq_true, Bool.not_eq_true', decide_eq_false_iff_not,
    decide_eq_true_eq, decide_eq_true_eq, List.mem_cons, not_or]

theorem without_without (records : Dict String ArtifactRecord) (ids later : List String) :
    without (without records ids) later = without records (ids ++ later) := by
  rw [without, without, without, Dict.restrict, Dict.restrict, Dict.restrict, Dict.filter_filter]
  apply Dict.filter_congr
  intro e _
  rw [Bool.eq_iff_iff, Bool.and_eq_true, decide_eq_true_eq, decide_eq_true_eq, decide_eq_true_eq,
    List.mem_append, not_or]

theorem get?_without (records : Dict String ArtifactRecord) (ids : List String) (id : String) :
    (without records ids).get? id = some r ↔ records.get? id = some r ∧ id ∉ ids := by
  rw [without, Dict.get?_restrict]
  by_cases h : id ∈ ids
  · rw [if_neg (by simpa using h)]
    constructor
    · intro hr
      cases hr
    · intro hr
      exact absurd h hr.2
  · rw [if_pos (decide_eq_true h)]
    constructor
    · intro hr
      exact ⟨hr, h⟩
    · intro hr
      exact hr.1

/-! The index. -/

namespace ArtifactMemory

/-- The index of every tenant has its records, oldest first. -/
structure Indexed (m : ArtifactMemory) : Prop where
  keyed : ∀ id r, m.records.get? id = some r → r.ref.id = id
  index : ∀ tenant, m.idsOf tenant = ownIds m.records tenant

theorem idsOf_forget (h : m.Indexed) (hr : m.records.get? id = some r) (tenant : String) :
    (m.forget id).idsOf tenant =
      if r.ref.tenant = tenant then (m.idsOf tenant).erase id else m.idsOf tenant := by
  have hmem : id ∈ m.idsOf r.ref.tenant := by
    rw [h.index, mem_ownIds]
    exact ⟨r, hr, rfl⟩
  rw [idsOf] at hmem
  rw [idsOf, ArtifactMemory.forget, hr]
  cases hids : m.tenantIds.get? r.ref.tenant with
  | none =>
    rw [hids] at hmem
    cases hmem
  | some ids =>
    dsimp only
    rw [hids, Dict.get?_set]
    split
    · next heq =>
      subst heq
      rw [idsOf, hids]
      rfl
    · rfl

theorem Indexed.forget (h : m.Indexed) (id : String) :
    (m.forget id).Indexed ∧ (m.forget id).records = m.records.erase id := by
  cases hr : m.records.get? id with
  | none =>
    have hsame : m.forget id = m := by rw [ArtifactMemory.forget, hr]
    rw [hsame, Dict.erase_of_not_mem (Dict.get?_eq_none.1 hr)]
    exact ⟨h, rfl⟩
  | some r =>
    have hrecords : (m.forget id).records = m.records.erase id := by
      rw [ArtifactMemory.forget, hr]
    refine ⟨⟨?_, ?_⟩, hrecords⟩
    · intro other q hq
      rw [hrecords] at hq
      exact h.keyed other q (Dict.get?_of_get?_erase hq)
    · intro tenant
      have hown : ownIds (m.records.erase id) tenant =
          (ownIds m.records tenant).filter fun other => !decide (other = id) :=
        ownIds_restrict (fun other => !decide (other = id)) m.records tenant
      rw [hrecords, hown, idsOf_forget h hr, h.index]
      split
      · rw [(nodup_ownIds m.records tenant).erase_eq_filter]
        apply List.filter_congr
        intro other _
        rfl
      · next hne =>
        symm
        apply List.filter_eq_self.2
        intro other hother
        obtain ⟨q, hq, ht⟩ := mem_ownIds.1 hother
        rw [Bool.not_eq_true', decide_eq_false_iff_not]
        intro heq
        subst heq
        rw [hr] at hq
        cases hq
        exact hne ht

theorem Indexed.forgetAll (h : m.Indexed) (ids : List String) :
    (ids.foldl ArtifactMemory.forget m).Indexed ∧
      (ids.foldl ArtifactMemory.forget m).records = without m.records ids := by
  induction ids generalizing m with
  | nil => exact ⟨h, (without_nil m.records).symm⟩
  | cons id ids ih =>
    obtain ⟨hindexed, hrecords⟩ := h.forget id
    obtain ⟨hindexed', hrecords'⟩ := ih hindexed
    refine ⟨hindexed', ?_⟩
    rw [List.foldl_cons, hrecords', hrecords, without_erase]

/-! Evictions. -/

theorem trimTenant_eq (share : Nat) (records : Dict String ArtifactRecord) (ids : List String) :
    trimTenant share records ids =
      (without records (ids.take (ids.length - share)), ids.drop (ids.length - share),
        ids.take (ids.length - share)) := by
  induction ids generalizing records with
  | nil => rw [trimTenant, List.take_nil, List.drop_nil, without_nil]
  | cons id ids ih =>
    rw [trimTenant]
    split
    · next hover =>
      have hlen : (id :: ids).length - share = ids.length - share + 1 := by
        rw [List.length_cons]
        omega
      rw [ih, hlen, List.take_succ_cons, List.drop_succ_cons, without_erase]
    · next hroom =>
      have hlen : (id :: ids).length - share = 0 := by
        rw [List.length_cons]
        omega
      rw [hlen, List.take_zero, List.drop_zero, without_nil]

def surplus (m : ArtifactMemory) : List String :=
  m.records.keys.take (m.records.keys.length - m.maxRecords)

theorem maxRecords_forget (m : ArtifactMemory) (id : String) :
    (m.forget id).maxRecords = m.maxRecords ∧
      (m.forget id).maxRecordsPerTenant = m.maxRecordsPerTenant := by
  rw [ArtifactMemory.forget]
  split <;> exact ⟨rfl, rfl⟩

theorem trimOldest_eq (h : m.Indexed) (hids : m.records.keys = ids) :
    m.trimOldest ids = (m.surplus.foldl ArtifactMemory.forget m, m.surplus) := by
  induction ids generalizing m with
  | nil =>
    rw [trimOldest, surplus, hids, List.take_nil]
    rfl
  | cons id ids ih =>
    have hlen : m.records.entries.length = ids.length + 1 := by
      rw [← List.length_cons (a := id), ← hids, Dict.keys, List.length_map]
    obtain ⟨hindexed, hrecords⟩ := h.forget id
    have hkeys : (m.forget id).records.keys = ids := by
      rw [hrecords]
      exact Dict.keys_erase_oldest hids
    rw [trimOldest, hlen]
    split
    · next hover =>
      have hsurplus : m.surplus = id :: (m.forget id).surplus := by
        rw [surplus, surplus, hkeys, hids, (maxRecords_forget m id).1, List.length_cons,
          Nat.succ_sub (by omega), List.take_succ_cons]
      rw [ih hindexed hkeys, hsurplus, List.foldl_cons]
    · next hroom =>
      have hsurplus : m.surplus = [] := by
        rw [surplus, hids, List.length_cons, Nat.sub_eq_zero_of_le (by omega), List.take_zero]
      rw [hsurplus]
      rfl

structure Sound (m : ArtifactMemory) : Prop where
  indexed : m.Indexed
  capped : m.records.entries.length ≤ m.maxRecords
  shared : ∀ tenant, (m.idsOf tenant).length ≤ m.maxRecordsPerTenant

def excess (m : ArtifactMemory) (r : ArtifactRecord) : List String :=
  (m.idsOf r.ref.tenant ++ [r.ref.id]).take
    ((m.idsOf r.ref.tenant ++ [r.ref.id]).length - m.maxRecordsPerTenant)

def withinShare (m : ArtifactMemory) (r : ArtifactRecord) : ArtifactMemory :=
  { m with
    records := without (m.records.set r.ref.id r) (m.excess r)
    tenantIds := m.tenantIds.set r.ref.tenant
      ((m.idsOf r.ref.tenant ++ [r.ref.id]).drop
        ((m.idsOf r.ref.tenant ++ [r.ref.id]).length - m.maxRecordsPerTenant)) }

theorem save_eq (m : ArtifactMemory) (r : ArtifactRecord) :
    m.save r = (((m.withinShare r).trimOldest (m.withinShare r).records.keys).1,
      m.excess r ++ ((m.withinShare r).trimOldest (m.withinShare r).records.keys).2) := by
  rw [ArtifactMemory.save, trimTenant_eq]
  rfl

theorem filter_not_mem_take {l : List String} (h : l.Nodup) (n : Nat) :
    l.filter (fun id => decide (id ∉ l.take n)) = l.drop n := by
  have hdisjoint := List.disjoint_take_drop h (Nat.le_refl n)
  have htake : (l.take n).filter (fun id => decide (id ∉ l.take n)) = [] := by
    apply List.filter_eq_nil_iff.2
    intro id hid
    simpa using hid
  have hdrop : (l.drop n).filter (fun id => decide (id ∉ l.take n)) = l.drop n := by
    apply List.filter_eq_self.2
    intro id hid
    exact decide_eq_true fun hmem => hdisjoint hmem hid
  calc l.filter (fun id => decide (id ∉ l.take n))
      = (l.take n ++ l.drop n).filter (fun id => decide (id ∉ l.take n)) := by
        rw [List.take_append_drop]
    _ = l.drop n := by rw [List.filter_append, htake, hdrop, List.nil_append]

theorem idsOf_withinShare (m : ArtifactMemory) (r : ArtifactRecord) (tenant : String) :
    (m.withinShare r).idsOf tenant =
      if r.ref.tenant = tenant then (m.idsOf tenant ++ [r.ref.id]).drop
        ((m.idsOf tenant ++ [r.ref.id]).length - m.maxRecordsPerTenant)
      else m.idsOf tenant := by
  rw [idsOf, withinShare]
  dsimp only
  rw [Dict.get?_set]
  split
  · next heq =>
    subst heq
    rfl
  · rfl

theorem Indexed.withinShare (h : m.Indexed) (hnew : r.ref.id ∉ m.records) :
    (m.withinShare r).Indexed := by
  constructor
  · intro id q hq
    obtain ⟨hq, -⟩ := (get?_without _ _ _).1 hq
    rw [Dict.get?_set] at hq
    split at hq
    · next heq =>
      cases hq
      exact heq
    · exact h.keyed id q hq
  · intro tenant
    have hown : ownIds (m.withinShare r).records tenant =
        (ownIds (m.records.set r.ref.id r) tenant).filter fun id => decide (id ∉ m.excess r) :=
      ownIds_restrict _ _ _
    have hnodup := nodup_ownIds (m.records.set r.ref.id r) tenant
    rw [idsOf_withinShare, hown]
    rw [ownIds_set_new hnew] at hnodup ⊢
    split
    · next heq =>
      subst heq
      rw [if_pos rfl] at hnodup
      rw [excess, h.index]
      exact (filter_not_mem_take hnodup _).symm
    · next hne =>
      rw [List.append_nil, h.index]
      symm
      apply List.filter_eq_self.2
      intro id hid
      apply decide_eq_true
      intro hexcess
      obtain ⟨q, hq, ht⟩ := mem_ownIds.1 hid
      rcases List.mem_append.1 (List.mem_of_mem_take hexcess) with hmem | hmem
      · rw [h.index] at hmem
        obtain ⟨q', hq', ht'⟩ := mem_ownIds.1 hmem
        rw [hq] at hq'
        cases hq'
        exact hne (ht'.symm.trans ht)
      · rw [List.mem_singleton.1 hmem] at hq
        exact hnew (Dict.mem_of_get? hq)

theorem length_withinShare (hshared : ∀ tenant, (m.idsOf tenant).length ≤ m.maxRecordsPerTenant)
    (r : ArtifactRecord) (tenant : String) :
    ((m.withinShare r).idsOf tenant).length ≤ m.maxRecordsPerTenant := by
  rw [idsOf_withinShare]
  split
  · rw [List.length_drop]
    omega
  · exact hshared tenant

theorem caps_forgetAll (m : ArtifactMemory) (ids : List String) :
    (ids.foldl ArtifactMemory.forget m).maxRecords = m.maxRecords ∧
      (ids.foldl ArtifactMemory.forget m).maxRecordsPerTenant = m.maxRecordsPerTenant := by
  induction ids generalizing m with
  | nil => exact ⟨rfl, rfl⟩
  | cons id ids ih =>
    obtain ⟨hmax, hshare⟩ := ih (m.forget id)
    obtain ⟨hmax', hshare'⟩ := maxRecords_forget m id
    exact ⟨hmax.trans hmax', hshare.trans hshare'⟩

theorem keys_without (records : Dict String ArtifactRecord) (ids : List String) :
    (without records ids).keys = records.keys.filter fun id => decide (id ∉ ids) :=
  Dict.keys_restrict _ _

theorem shared_forgetAll (h : m.Indexed) (ids : List String)
    (hshared : ∀ tenant, (m.idsOf tenant).length ≤ n) (tenant : String) :
    ((ids.foldl ArtifactMemory.forget m).idsOf tenant).length ≤ n := by
  obtain ⟨hindexed, hrecords⟩ := h.forgetAll ids
  rw [hindexed.index, hrecords, without, ownIds_restrict]
  refine (List.length_filter_le _ _).trans ?_
  rw [← h.index]
  exact hshared tenant

theorem Sound.save (h : m.Sound) (hnew : r.ref.id ∉ m.records) :
    (m.save r).1.Sound ∧
      (m.save r).1.records = without (m.records.set r.ref.id r) (m.save r).2 := by
  have hindexed := h.indexed.withinShare hnew
  have hcaps := caps_forgetAll (m.withinShare r) (m.withinShare r).surplus
  obtain ⟨hindexed', hrecords'⟩ := hindexed.forgetAll (m.withinShare r).surplus
  rw [save_eq, trimOldest_eq hindexed rfl]
  refine ⟨⟨hindexed', ?_, ?_⟩, ?_⟩
  · have hkeys : (without (m.withinShare r).records (m.withinShare r).surplus).keys =
        (m.withinShare r).records.keys.drop
          ((m.withinShare r).records.keys.length - (m.withinShare r).maxRecords) := by
      rw [keys_without]
      exact filter_not_mem_take (m.withinShare r).records.nodup _
    have hlen := congrArg List.length hkeys
    rw [Dict.keys, List.length_map, List.length_drop] at hlen
    rw [hrecords', hcaps.1, hlen]
    omega
  · rw [hcaps.2]
    exact shared_forgetAll hindexed _ (length_withinShare h.shared r)
  · rw [hrecords', ← without_without]
    rfl

theorem Sound.forgetAll (h : m.Sound) (ids : List String) :
    (ids.foldl ArtifactMemory.forget m).Sound := by
  obtain ⟨hindexed, hrecords⟩ := h.indexed.forgetAll ids
  have hcaps := caps_forgetAll m ids
  refine ⟨hindexed, ?_, ?_⟩
  · rw [hrecords, hcaps.1]
    exact (Dict.length_filter_le _ _).trans h.capped
  · rw [hcaps.2]
    exact shared_forgetAll h.indexed ids h.shared

theorem sound_empty (maxRecords share : Nat) :
    (ArtifactMemory.mk maxRecords share ∅ ∅).Sound := by
  refine ⟨⟨?_, ?_⟩, ?_, ?_⟩
  · intro id r hr
    cases hr
  · intro tenant
    rfl
  · exact Nat.zero_le _
  · intro tenant
    exact Nat.zero_le _

end ArtifactMemory

end Prismal.Agents
