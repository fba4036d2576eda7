import Mathlib.Combinatorics.SimpleGraph.Connectivity.Connected
import Mathlib.Data.Set.Card
import Prismal.Memory.UnionFind

namespace Prismal.Memory
open Prismal.Lib Prismal.Lib.Roots
set_option autoImplicit true

def Seen (host : Host) (es : List MemoryRecord) (x y : String) : Prop :=
  ∃ a ∈ es, ∃ b ∈ es, a.id = x ∧ b.id = y ∧ a.id < b.id ∧ a.scope = b.scope ∧
    linked host a b = true

section Scan

variable {host : Host} {fuel : Nat} {es : List MemoryRecord}

theorem linkTo_of_linkStep (h : linkStep (linked host) fuel a f b = some f') :
    linkTo host fuel a f b = f' := by
  rw [linkStep] at h
  rw [linkTo]
  split at h
  next hc =>
    rw [if_pos hc]
    exact Forest.union_of_unionWithin h
  next hc =>
    rw [if_neg hc]
    exact Option.some.inj h

theorem linkAll_of_linkScan (h : linkScan (linked host) fuel rs f = some f') :
    linkAll host fuel rs f = f' := by
  induction rs generalizing f with
  | nil => exact Option.some.inj h
  | cons a rs ih =>
    rw [linkScan] at h
    obtain ⟨f₁, hstep, h⟩ := Option.bind_eq_some_iff.1 h
    rw [linkAll, foldl_of_foldlM (fun _ _ _ => linkTo_of_linkStep) hstep]
    exact ih h

theorem groupOne_of_groupStep (h : groupStep fuel acc r = some acc') :
    groupOne fuel acc r = acc' := by
  rw [groupStep] at h
  obtain ⟨found, hfound, h⟩ := Option.bind_eq_some_iff.1 h
  rw [groupOne, Forest.find_of_findWithin hfound]
  exact Option.some.inj h

theorem groups_of_groupsWithin (h : groupsWithin (linked host) es.length es = some g) :
    groups host es = g := by
  rw [groupsWithin] at h
  obtain ⟨f, hscan, h⟩ := Option.bind_eq_some_iff.1 h
  obtain ⟨acc, hrun, h⟩ := Option.bind_eq_some_iff.1 h
  rw [groups, linkAll_of_linkScan hscan,
    foldl_of_foldlM (fun _ _ _ => groupOne_of_groupStep) hrun]
  exact Option.some.inj h

def Chained (host : Host) (es : List MemoryRecord) (a b : MemoryRecord) : Prop :=
  Relation.EqvGen (Seen host es) a.id b.id

theorem groups_spec (host : Host) (hn : (es.map MemoryRecord.id).Pairwise (· < ·)) :
    ∃ f : Forest, Grouped f es (groups host es) ∧
      (∀ a ∈ es, ∃ r, Root f.parent a.id r) ∧
      ∀ a ∈ es, ∀ b ∈ es, SameTree f.parent a.id b.id ↔ Chained host es a b := by
  obtain ⟨g, f, hg, hgrouped, hroots, hjoined⟩ :=
    groupsWithin_spec (linked host) hn (Nat.le_refl es.length)
  rw [groups_of_groupsWithin hg]
  exact ⟨f, hgrouped, hroots, hjoined⟩

def SupportJoined (a b : MemoryRecord) : Prop :=
  ∃ e ∈ a.edges ++ b.edges, e.relation = .supports ∧
    ((e.srcId = a.id ∧ e.dstId = b.id) ∨ (e.srcId = b.id ∧ e.dstId = a.id))

theorem episodes_sorted {records : Records} (hk : records.Keyed)
    (hn : (window.map MemoryRecord.id).Nodup) (scope : MemoryScope) :
    ((episodes records scope window).map MemoryRecord.id).Pairwise (· < ·) := by
  let found := (window.filterMap fun r => records.get r.id scope).filter fun r =>
    decide (r.type = .episodic) && r.supersededBy.isNone
  have hids : ∀ ws : List MemoryRecord, ((ws.filterMap fun r => records.get r.id scope).map
      MemoryRecord.id).Sublist (ws.map MemoryRecord.id) := by
    intro ws
    induction ws with
    | nil => exact List.Sublist.slnil
    | cons r ws ih =>
      rw [List.filterMap_cons]
      split
      · exact ih.cons _
      next q hq =>
        rw [List.map_cons, List.map_cons, hk _ q (Records.get_eq_some.1 hq).1]
        exact ih.cons_cons _
  have hnodup : (found.map MemoryRecord.id).Nodup :=
    (hn.sublist (hids window)).sublist (List.filter_sublist.map _)
  have hsorted : (found.insertionSort fun a b => a.id ≤ b.id).Pairwise fun a b => a.id ≤ b.id := by
    have htotal : Std.Total fun a b : MemoryRecord => a.id ≤ b.id := ⟨fun a b => le_total a.id b.id⟩
    have htrans : IsTrans MemoryRecord fun a b => a.id ≤ b.id := ⟨fun a b c => le_trans⟩
    exact List.pairwise_insertionSort _ found
  have hperm := (List.perm_insertionSort (fun a b => a.id ≤ b.id) found).map MemoryRecord.id
  have hne := hperm.nodup_iff.2 hnodup
  apply List.pairwise_map.2
  apply (hsorted.and (List.pairwise_map.1 hne)).imp
  intro a b h
  exact lt_of_le_of_ne h.1 h.2

def Clustered (host : Host) (es : List MemoryRecord) (a b : MemoryRecord) : Prop :=
  ∃ c ∈ clusters host es, a ∈ c ∧ b ∈ c

def Enough (host : Host) (es : List MemoryRecord) (a : MemoryRecord) : Prop :=
  ∃ g : List MemoryRecord, g.Sublist es ∧ minCluster ≤ g.length ∧ ∀ r ∈ g, Chained host es a r

theorem clustered_iff (hn : (es.map MemoryRecord.id).Pairwise (· < ·)) (ha : a ∈ es)
    (hb : b ∈ es) : Clustered host es a b ↔ Chained host es a b ∧ Enough host es a := by
  obtain ⟨f, hgrouped, hroots, hjoined⟩ := groups_spec host hn
  constructor
  · rintro ⟨c, hc, hac, hbc⟩
    obtain ⟨g, hg, rfl⟩ := List.mem_map.1 hc
    obtain ⟨hg, hlen⟩ := List.mem_filter.1 hg
    obtain ⟨k, hget⟩ := Dict.mem_values.1 hg
    obtain ⟨hsub, hmem⟩ := hgrouped k
    rw [hget, Option.getD_some] at hsub hmem
    have hra := ((hmem a).1 ((List.mem_insertionSort _).1 hac)).2
    have hrb := ((hmem b).1 ((List.mem_insertionSort _).1 hbc)).2
    refine ⟨(hjoined a ha b hb).1 ⟨k, hra, hrb⟩, g, hsub, of_decide_eq_true hlen, fun r hr => ?_⟩
    obtain ⟨hres, hrr⟩ := (hmem r).1 hr
    exact (hjoined a ha r hres).1 ⟨k, hra, hrr⟩
  · rintro ⟨hchain, others, hsub, hlen, hothers⟩
    obtain ⟨k, hra⟩ := hroots a ha
    obtain ⟨hgsub, hmem⟩ := hgrouped k
    have hin : ∀ r ∈ es, Chained host es a r → r ∈ ((groups host es).get? k).getD [] := by
      intro r hr hc
      obtain ⟨k', hra', hrr⟩ := (hjoined a ha r hr).2 hc
      rw [hra'.unique hra] at hrr
      exact (hmem r).2 ⟨hr, hrr⟩
    have hself : a ∈ ((groups host es).get? k).getD [] := (hmem a).2 ⟨ha, hra⟩
    cases hget : (groups host es).get? k with
    | none =>
      rw [hget] at hself
      cases hself
    | some g =>
      rw [hget, Option.getD_some] at hin hself
      have hids : (es.map MemoryRecord.id).Nodup := hn.imp fun h => ne_of_lt h
      have hnodup : es.Nodup := hids.of_map
      have hfew : others.length ≤ g.length :=
        ((hnodup.sublist hsub).subperm fun r hr => hin r (hsub.subset hr) (hothers r hr)).length_le
      refine ⟨g.insertionSort Records.Earlier, List.mem_map.2 ⟨g, List.mem_filter.2
        ⟨Dict.mem_values.2 ⟨k, hget⟩, decide_eq_true (hlen.trans hfew)⟩, rfl⟩, ?_, ?_⟩
      · exact (List.mem_insertionSort _).2 hself
      · exact (List.mem_insertionSort _).2 (hin b hb hchain)

/-- Two episodes of the window that a SUPPORTS edge joins are in one cluster exactly when links
that the scan sees connect them, to each other and to enough others. -/
theorem supports_clustered (host : Host) {records : Records} (hk : records.Keyed)
    (scope : MemoryScope) (window : List MemoryRecord) (hn : (window.map MemoryRecord.id).Nodup) :
    ∀ a ∈ episodes records scope window, ∀ b ∈ episodes records scope window,
      SupportJoined a b →
        (Clustered host (episodes records scope window) a b ↔
          Chained host (episodes records scope window) a b ∧
            Enough host (episodes records scope window) a) :=
  fun _ ha _ hb _ => clustered_iff (episodes_sorted hk hn scope) ha hb

end Scan

def episode (id content : String) (createdAt : Rat) (edges : List MemoryEdge) : MemoryRecord where
  id := id
  type := .episodic
  content := content
  scope := acme
  provenance :=
    { origin := .conversation, sourceMessageIds := [], sessionId := none, agent := none,
      createdAt := createdAt, tainted := false, trust := .trusted }
  confidence := 1
  edges := edges

def supportsFirst : MemoryEdge where
  srcId := "m4"
  dstId := "m1"
  relation := .supports
  confidence := 1
  validFrom := 4
  related := by decide

def firstNote : MemoryRecord := episode "m1" "tea time" 1 []

def fourthNote : MemoryRecord := episode "m4" "coffee" 4 [supportsFirst]

def notes : List MemoryRecord :=
  [firstNote, episode "m2" "tea time" 2 [], episode "m3" "tea time" 3 [], fourthNote]

def noteStore : Records := Dict.collect (notes.map fun r => (r.id, r))

instance (host : Host) (es : List MemoryRecord) (a b : MemoryRecord) :
    Decidable (Clustered host es a b) :=
  inferInstanceAs (Decidable (∃ c ∈ clusters host es, a ∈ c ∧ b ∈ c))

instance (a b : MemoryRecord) : Decidable (SupportJoined a b) :=
  inferInstanceAs (Decidable (∃ e ∈ a.edges ++ b.edges, _))

theorem noteStore_keyed : noteStore.Keyed := by
  intro id r h
  obtain ⟨q, -, he⟩ := List.mem_map.1 (Dict.mem_of_get?_collect h)
  cases he
  rfl

theorem supports_clustered_newer :
    ¬(Chained plainHost (episodes noteStore acme notes) firstNote fourthNote ∧
      Enough plainHost (episodes noteStore acme notes) firstNote) := by
  intro h
  have hclustered := (supports_clustered plainHost noteStore_keyed acme notes
    (by decide) firstNote (by decide) fourthNote (by decide)
    (by decide)).2 h
  revert hclustered
  decide +kernel

/-- The edge is on the newer record, so the first one is clustered without it. -/
theorem newer_support_left_out : SupportJoined firstNote fourthNote ∧
    (∀ r ∈ [firstNote, fourthNote], r ∈ episodes noteStore acme notes) ∧
    (∃ c ∈ clusters plainHost (episodes noteStore acme notes), firstNote ∈ c) ∧
    ¬Clustered plainHost (episodes noteStore acme notes) firstNote fourthNote := by
  decide +kernel

end Prismal.Memory

namespace Prismal.Memory
open Prismal.Lib Prismal.Lib.Roots
set_option autoImplicit true

/-! The clusters are the connected components of the links between the episodes. -/

/-- `episodes`: the active episodic records of the window under their ids. -/
def episodeDict (records : Records) (scope : MemoryScope) (window : List MemoryRecord) :
    Dict String MemoryRecord :=
  Dict.collect (((window.filterMap fun r => records.get r.id scope).filter fun r =>
    decide (r.type = .episodic) && r.supersededBy.isNone).map fun r => (r.id, r))

/-- The episodes in the order of `sorted(episodes)`. -/
def episodesById (records : Records) (scope : MemoryScope) (window : List MemoryRecord) :
    List MemoryRecord :=
  ((episodeDict records scope window).keys.insertionSort (· ≤ ·)).filterMap
    (episodeDict records scope window).get?

def linkGraph (link : MemoryRecord → MemoryRecord → Bool) (es : List MemoryRecord) :
    SimpleGraph {r : MemoryRecord // r ∈ es} :=
  .fromRel fun a b => a.1.id < b.1.id ∧ a.1.scope = b.1.scope ∧ link a.1 b.1 = true

section Episodes

variable {records : Records} {scope : MemoryScope} {window : List MemoryRecord}

theorem get?_episodeDict (h : (episodeDict records scope window).get? k = some r) :
    r.id = k ∧ r.type = .episodic ∧ r.supersededBy = none := by
  obtain ⟨q, hq, he⟩ := List.mem_map.1 (Dict.mem_of_get?_collect h)
  cases he
  have hactive := (List.mem_filter.1 hq).2
  rw [Bool.and_eq_true, decide_eq_true_eq, Option.isNone_iff_eq_none] at hactive
  exact ⟨rfl, hactive⟩

theorem episodesById_active (h : r ∈ episodesById records scope window) :
    r.type = .episodic ∧ r.supersededBy = none := by
  obtain ⟨k, -, hk⟩ := List.mem_filterMap.1 h
  exact (get?_episodeDict hk).2

theorem map_filterMap_get? {d : Dict String MemoryRecord} {ks : List String}
    (hks : ∀ k ∈ ks, k ∈ d) (hd : ∀ k r, d.get? k = some r → r.id = k) :
    (ks.filterMap d.get?).map MemoryRecord.id = ks := by
  induction ks with
  | nil => rfl
  | cons k ks ih =>
    obtain ⟨r, hr⟩ := Dict.mem_iff_get?.1 (hks k List.mem_cons_self)
    rw [List.filterMap_cons_some hr, List.map_cons, hd k r hr,
      ih fun j hj => hks j (List.mem_cons_of_mem k hj)]

theorem episodesById_sorted (records : Records) (scope : MemoryScope)
    (window : List MemoryRecord) :
    ((episodesById records scope window).map MemoryRecord.id).Pairwise (· < ·) := by
  let d := episodeDict records scope window
  have hmem : ∀ k ∈ d.keys.insertionSort (· ≤ ·), k ∈ d :=
    fun k hk => (List.mem_insertionSort _).1 hk
  rw [episodesById, map_filterMap_get? hmem fun k r hr => (get?_episodeDict hr).1]
  have hsorted := List.pairwise_insertionSort (· ≤ ·) d.keys
  have hnodup := (List.perm_insertionSort (· ≤ ·) d.keys).nodup_iff.2 d.nodup
  apply (hsorted.and hnodup).imp
  intro a b h
  exact lt_of_le_of_ne h.1 h.2

theorem episodesById_eq (hk : records.Keyed) (hn : (window.map MemoryRecord.id).Nodup) :
    episodesById records scope window = episodes records scope window := by
  have hsorted := episodesById_sorted records scope window
  have hsorted' := episodes_sorted hk hn scope
  have hmem : ∀ r, r ∈ episodesById records scope window ↔ r ∈ episodes records scope window := by
    intro r
    let found := (window.filterMap fun r => records.get r.id scope).filter fun r =>
      decide (r.type = .episodic) && r.supersededBy.isNone
    have hids : (found.map MemoryRecord.id).Nodup := by
      have hperm := List.perm_insertionSort (fun a b : MemoryRecord => a.id ≤ b.id) found
      exact (hperm.map MemoryRecord.id).nodup_iff.1 (hsorted'.imp fun h => ne_of_lt h)
    have hkeys : ((found.map fun r => (r.id, r)).map Prod.fst).Nodup := by
      rwa [List.map_map]
    rw [episodes, List.mem_insertionSort, episodesById, List.mem_filterMap]
    apply Iff.intro
    · rintro ⟨k, -, hr⟩
      obtain ⟨q, hq, he⟩ := List.mem_map.1 (Dict.mem_of_get?_collect hr)
      cases he
      exact hq
    · intro hr
      have hget : (episodeDict records scope window).get? r.id = some r :=
        Dict.get?_collect hkeys (List.mem_map_of_mem hr)
      exact ⟨r.id, (List.mem_insertionSort _).2 (Dict.mem_of_get? hget), hget⟩
  have hnodup : ∀ {l : List MemoryRecord}, (l.map MemoryRecord.id).Pairwise (· < ·) → l.Nodup :=
    fun h => List.Nodup.of_map MemoryRecord.id (h.imp fun h => ne_of_lt h)
  apply List.Perm.eq_of_pairwise _ (List.pairwise_map.1 hsorted) (List.pairwise_map.1 hsorted')
  · exact (List.perm_ext_iff_of_nodup (hnodup hsorted) (hnodup hsorted')).2 hmem
  · intro a b _ _ hab hba
    exact absurd hba (lt_asymm hab)

end Episodes

section Components

variable {link : MemoryRecord → MemoryRecord → Bool} {es : List MemoryRecord}

theorem linkGraph_adj (h : (linkGraph link es).Adj a b) :
    a.1.scope = b.1.scope ∧ Relation.EqvGen (Joined link es) a.1.id b.1.id := by
  obtain ⟨-, ⟨hlt, hscope, hlink⟩ | ⟨hlt, hscope, hlink⟩⟩ := (SimpleGraph.fromRel_adj _ _ _).1 h
  · exact ⟨hscope, .rel _ _ ⟨a.1, a.2, b.1, b.2, rfl, rfl, hlt, hscope, hlink⟩⟩
  · exact ⟨hscope.symm, .symm _ _ (.rel _ _ ⟨b.1, b.2, a.1, a.2, rfl, rfl, hlt, hscope, hlink⟩)⟩

theorem linkGraph_reachable (h : (linkGraph link es).Reachable a b) :
    a.1.scope = b.1.scope ∧ Relation.EqvGen (Joined link es) a.1.id b.1.id := by
  induction (SimpleGraph.reachable_iff_reflTransGen a b).1 h with
  | refl => exact ⟨rfl, .refl _⟩
  | tail hsteps hadj ih =>
    obtain ⟨hscope, hchain⟩ := ih ((SimpleGraph.reachable_iff_reflTransGen _ _).2 hsteps)
    obtain ⟨hscope', hlink⟩ := linkGraph_adj hadj
    exact ⟨hscope.trans hscope', hchain.trans _ _ _ hlink⟩

theorem record_eq_of_id (hn : (es.map MemoryRecord.id).Nodup) (a b : {r // r ∈ es})
    (h : a.1.id = b.1.id) : a = b :=
  Subtype.ext (List.inj_on_of_nodup_map hn a.2 b.2 h)

theorem walk_of_eqvGen (hn : (es.map MemoryRecord.id).Nodup)
    (h : Relation.EqvGen (Joined link es) x y) :
    x = y ∨ ∃ a b : {r // r ∈ es}, a.1.id = x ∧ b.1.id = y ∧ (linkGraph link es).Reachable a b := by
  induction h with
  | rel x y h =>
    obtain ⟨a, ha, b, hb, rfl, rfl, hlt, hscope, hlink⟩ := h
    have hne : (⟨a, ha⟩ : {r // r ∈ es}) ≠ ⟨b, hb⟩ := by
      intro he
      rw [congrArg (fun r => r.1.id) he] at hlt
      exact lt_irrefl _ hlt
    have hadj : (linkGraph link es).Adj ⟨a, ha⟩ ⟨b, hb⟩ :=
      (SimpleGraph.fromRel_adj _ _ _).2 ⟨hne, .inl ⟨hlt, hscope, hlink⟩⟩
    exact .inr ⟨⟨a, ha⟩, ⟨b, hb⟩, rfl, rfl, hadj.reachable⟩
  | refl x => exact .inl rfl
  | symm x y _ ih =>
    cases ih with
    | inl heq => exact .inl heq.symm
    | inr hwalk =>
      obtain ⟨a, b, ha, hb, hreach⟩ := hwalk
      exact .inr ⟨b, a, hb, ha, hreach.symm⟩
  | trans x y z _ _ ihxy ihyz =>
    cases ihxy with
    | inl heq => rwa [heq]
    | inr hxy =>
      cases ihyz with
      | inl heq =>
        rw [← heq]
        exact .inr hxy
      | inr hyz =>
        obtain ⟨a, b, ha, hb, hab⟩ := hxy
        obtain ⟨b', c, hb', hc, hbc⟩ := hyz
        rw [record_eq_of_id hn b' b (hb'.trans hb.symm)] at hbc
        exact .inr ⟨a, c, ha, hc, hab.trans hbc⟩

theorem reachable_iff (hn : (es.map MemoryRecord.id).Nodup) (a b : {r // r ∈ es}) :
    (linkGraph link es).Reachable a b ↔ Relation.EqvGen (Joined link es) a.1.id b.1.id := by
  apply Iff.intro
  · intro h
    exact (linkGraph_reachable h).2
  · intro h
    cases walk_of_eqvGen hn h with
    | inl heq => rw [record_eq_of_id hn a b heq]
    | inr hwalk =>
      obtain ⟨a', b', ha, hb, hreach⟩ := hwalk
      rwa [record_eq_of_id hn a' a ha, record_eq_of_id hn b' b hb] at hreach

def members (cluster : List MemoryRecord) : Set MemoryRecord := {r | r ∈ cluster}

theorem ncard_members (h : c.Nodup) : (members c).ncard = c.length := by
  rw [members, ← List.coe_toFinset, Set.ncard_coe_finset, List.toFinset_card_of_nodup h]

theorem members_insertionSort (le : MemoryRecord → MemoryRecord → Prop) [DecidableRel le]
    (c : List MemoryRecord) : members (c.insertionSort le) = members c :=
  Set.ext fun _ => List.mem_insertionSort le

def componentMembers (C : (linkGraph link es).ConnectedComponent) : Set MemoryRecord :=
  Subtype.val '' C.supp

theorem mem_componentMembers (a : {r // r ∈ es}) :
    r ∈ componentMembers ((linkGraph link es).connectedComponentMk a) ↔
      ∃ hr : r ∈ es, (linkGraph link es).Reachable ⟨r, hr⟩ a := by
  apply Iff.intro
  · rintro ⟨b, hb, rfl⟩
    exact ⟨b.2, SimpleGraph.ConnectedComponent.eq.1 hb⟩
  · rintro ⟨hr, hreach⟩
    exact ⟨⟨r, hr⟩, SimpleGraph.ConnectedComponent.eq.2 hreach, rfl⟩

/-- Groups under the roots of a forest that joins what chains of links connect. -/
structure Grouping (link : MemoryRecord → MemoryRecord → Bool) (es : List MemoryRecord)
    (f : Forest) (g : Dict String (List MemoryRecord)) : Prop where
  distinct : (es.map MemoryRecord.id).Nodup
  grouped : Grouped f es g
  grounded : ∀ a ∈ es, ∃ r, Root f.parent a.id r
  joined : ∀ a ∈ es, ∀ b ∈ es,
    SameTree f.parent a.id b.id ↔ Relation.EqvGen (Joined link es) a.id b.id

namespace Grouping
variable {f : Forest} {g : Dict String (List MemoryRecord)}

theorem mem_iff (h : Grouping link es f g) (hget : g.get? k = some m) :
    r ∈ m ↔ r ∈ es ∧ Root f.parent r.id k := by
  have hmem := (h.grouped k).2 r
  rwa [hget] at hmem

theorem nodup (h : Grouping link es f g) (hget : g.get? k = some m) : m.Nodup := by
  have hsub := (h.grouped k).1
  rw [hget] at hsub
  exact h.distinct.of_map.sublist hsub

theorem members_eq (h : Grouping link es f g) (hget : g.get? k = some m) (a : {r // r ∈ es})
    (ha : a.1 ∈ m) :
    members m = componentMembers ((linkGraph link es).connectedComponentMk a) := by
  have hroot := ((h.mem_iff hget).1 ha).2
  ext r
  rw [mem_componentMembers]
  apply Iff.trans (h.mem_iff hget)
  apply Iff.intro
  · intro ⟨hr, hrk⟩
    exact ⟨hr, (reachable_iff h.distinct _ _).2 ((h.joined r hr a.1 a.2).1 ⟨k, hrk, hroot⟩)⟩
  · intro ⟨hr, hreach⟩
    obtain ⟨k', hrk, hak⟩ :=
      (h.joined r hr a.1 a.2).2 ((reachable_iff h.distinct ⟨r, hr⟩ a).1 hreach)
    rw [hak.unique hroot] at hrk
    exact ⟨hr, hrk⟩

theorem exists_group (h : Grouping link es f g) (a : {r // r ∈ es}) :
    ∃ k m, g.get? k = some m ∧ a.1 ∈ m := by
  obtain ⟨k, hk⟩ := h.grounded a.1 a.2
  have ha := ((h.grouped k).2 a.1).2 ⟨a.2, hk⟩
  cases hget : g.get? k with
  | none =>
    rw [hget] at ha
    cases ha
  | some m =>
    rw [hget] at ha
    exact ⟨k, m, hget, ha⟩

theorem large_iff (h : Grouping link es f g) (S : Set MemoryRecord) :
    (∃ k m, g.get? k = some m ∧ minCluster ≤ m.length ∧ members m = S) ↔
      ∃ C : (linkGraph link es).ConnectedComponent,
        componentMembers C = S ∧ minCluster ≤ S.ncard := by
  apply Iff.intro
  · rintro ⟨k, m, hget, hlen, rfl⟩
    rw [ncard_members (h.nodup hget)]
    cases m with
    | nil => cases hlen
    | cons a m =>
      have ha := ((h.mem_iff hget).1 List.mem_cons_self).1
      exact ⟨_, (h.members_eq hget ⟨a, ha⟩ List.mem_cons_self).symm, hlen⟩
  · rintro ⟨C, rfl, hcard⟩
    induction C using SimpleGraph.ConnectedComponent.ind with
    | h a =>
      obtain ⟨k, m, hget, ha⟩ := h.exists_group a
      rw [← h.members_eq hget a ha, ncard_members (h.nodup hget)] at hcard
      exact ⟨k, m, hget, hcard, h.members_eq hget a ha⟩

theorem disjoint (h : Grouping link es f g) : g.values.Pairwise List.Disjoint := by
  apply List.pairwise_map.2
  apply (List.pairwise_map.1 g.nodup).imp_of_mem
  intro e e' he he' hne r hr hr'
  have hroot := ((h.mem_iff (Dict.get?_eq_some.2 he)).1 hr).2
  have hroot' := ((h.mem_iff (Dict.get?_eq_some.2 he')).1 hr').2
  exact hne (hroot.unique hroot')

end Grouping

theorem clustersWithin_spec (link : MemoryRecord → MemoryRecord → Bool)
    (hn : (es.map MemoryRecord.id).Pairwise (· < ·)) (hfuel : es.length ≤ fuel) :
    ∃ cs, clustersWithin link fuel es = some cs ∧
      (∀ S, (∃ c ∈ cs, members c = S) ↔ ∃ C : (linkGraph link es).ConnectedComponent,
        componentMembers C = S ∧ minCluster ≤ S.ncard) ∧
      cs.Pairwise List.Disjoint ∧ ∀ c ∈ cs, c.Nodup := by
  obtain ⟨g, f, hg, hgrouped, hroots, hjoined⟩ := groupsWithin_spec link hn hfuel
  have h : Grouping link es f g := ⟨hn.imp fun hlt => ne_of_lt hlt, hgrouped, hroots, hjoined⟩
  refine ⟨_, by rw [clustersWithin, hg]; rfl, fun S => ?_, ?_, ?_⟩
  · rw [← h.large_iff S]
    apply Iff.intro
    · rintro ⟨c, hc, rfl⟩
      obtain ⟨m, hm, rfl⟩ := List.mem_map.1 hc
      obtain ⟨hm, hlen⟩ := List.mem_filter.1 hm
      obtain ⟨k, hget⟩ := Dict.mem_values.1 hm
      exact ⟨k, m, hget, of_decide_eq_true hlen, (members_insertionSort _ m).symm⟩
    · rintro ⟨k, m, hget, hlen, rfl⟩
      have hm : m ∈ g.values.filter fun m => decide (minCluster ≤ m.length) :=
        List.mem_filter.2 ⟨Dict.mem_values.2 ⟨k, hget⟩, decide_eq_true hlen⟩
      exact ⟨_, List.mem_map_of_mem hm, members_insertionSort _ m⟩
  · apply List.pairwise_map.2
    apply (h.disjoint.sublist List.filter_sublist).imp
    intro m m' hdisjoint r hr hr'
    exact hdisjoint ((List.mem_insertionSort _).1 hr) ((List.mem_insertionSort _).1 hr')
  · intro c hc
    obtain ⟨m, hm, rfl⟩ := List.mem_map.1 hc
    obtain ⟨k, hget⟩ := Dict.mem_values.1 (List.mem_filter.1 hm).1
    exact (List.perm_insertionSort _ m).nodup_iff.2 (h.nodup hget)

theorem componentMembers_scope (C : (linkGraph link es).ConnectedComponent)
    (hr : r ∈ componentMembers C) (hs : s ∈ componentMembers C) : r.scope = s.scope := by
  obtain ⟨a, ha, rfl⟩ := hr
  obtain ⟨b, hb, rfl⟩ := hs
  exact (linkGraph_reachable (SimpleGraph.ConnectedComponent.eq.1 (ha.trans hb.symm))).1

/-- Whatever the links, every `find` ends within a round for each episode; the clusters are the
connected components of at least three episodes, each of one scope, and no two share a record. -/
theorem clusters_are_components (link : MemoryRecord → MemoryRecord → Bool) (records : Records)
    (scope : MemoryScope) (window : List MemoryRecord) (extra : Nat) :
    ∃ cs, clustersWithin link ((episodesById records scope window).length + extra)
        (episodesById records scope window) = some cs ∧
      (∀ S, (∃ c ∈ cs, members c = S) ↔
        ∃ C : (linkGraph link (episodesById records scope window)).ConnectedComponent,
          componentMembers C = S ∧ 3 ≤ S.ncard) ∧
      cs.Pairwise List.Disjoint ∧
      ∀ c ∈ cs, c.Nodup ∧ ∀ r ∈ c, r.type = .episodic ∧ r.supersededBy = none ∧
        ∀ s ∈ c, r.scope = s.scope := by
  obtain ⟨cs, hrun, hcomponents, hdisjoint, hnodup⟩ := clustersWithin_spec link
    (episodesById_sorted records scope window) (Nat.le_add_right _ extra)
  refine ⟨cs, hrun, hcomponents, hdisjoint, fun c hc => ⟨hnodup c hc, fun r hr => ?_⟩⟩
  obtain ⟨C, hC, -⟩ := (hcomponents (members c)).1 ⟨c, hc, rfl⟩
  have hin : ∀ s ∈ c, s ∈ componentMembers C := by
    intro s hs
    rw [hC]
    exact hs
  obtain ⟨a, -, ha⟩ := hin r hr
  rw [← ha] at hr
  obtain ⟨htype, hactive⟩ := episodesById_active a.2
  rw [ha] at htype hactive hr
  exact ⟨htype, hactive, fun s hs => componentMembers_scope C (hin r hr) (hin s hs)⟩

end Components

end Prismal.Memory
