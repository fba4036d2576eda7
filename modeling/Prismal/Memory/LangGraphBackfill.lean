import Prismal.Memory.Migration
import Prismal.Memory.LangGraphStore

namespace Prismal.Memory
open Prismal.Lib Prismal.Lib.Json Prismal.Lib.Sweep
set_option autoImplicit true

/-! The backfill hooks of the store backend, and what its readers see of them. -/

namespace LangGraph

/-- Facts under `legacy_namespaces` that a scope sees, in stable id order. -/
def scanLegacy (cfg : LangGraphConfig) (store : BaseStore) (scope : MemoryScope)
    (limit offset : Nat) : Except BackendError (List LegacyEntry) := do
  let these ← items cfg store cfg.legacyNs
  let seen ← visibleItems cfg scope these
  let entries := seen.map fun e => LegacyEntry.mk e.1 e.2.hasMv2
  return ((entries.insertionSort fun a b => a.record.id ≤ b.record.id).drop offset).take limit

/-- Merge `mv2_*` keys into an un-annotated legacy fact; its value stays as is. -/
def annotate (cfg : LangGraphConfig) (store : BaseStore) (r : MemoryRecord) : Bool × BaseStore :=
  match decodeLegacyId cfg.json r.id with
  | none => (false, store)
  | some addr =>
    match store.get? addr with
    | some (.dict doc) =>
      if doc.annotation.isSome then (false, store)
      else (true, store.set addr (.dict { doc with annotation := some r.annotation }))
    | _ => (false, store)

variable {cfg : LangGraphConfig} {store store₀ : BaseStore} {scope : MemoryScope}

/-- What was stored at every address has been replaced by `f`. -/
structure Replaced (f : Address → Stored → Stored) (store₀ store : BaseStore) : Prop where
  keys : store.keys = store₀.keys
  get : ∀ addr, store.get? addr = (store₀.get? addr).map (f addr)

structure Unseen (cfg : LangGraphConfig) (f : Address → Stored → Stored) : Prop where
  view : ∀ addr value, view cfg addr (f addr value) = view cfg addr value
  rooted : ∀ addr value, addr.1.head? = some root → f addr value = value

section

variable {f : Address → Stored → Stored}

def replaceItem (f : Address → Stored → Stored) (e : Address × Stored) : Address × Stored :=
  (e.1, f e.1 e.2)

theorem Replaced.found_eq (h : Replaced f store₀ store) (pre : List String) (mv2Id : Option String)
    (hpass : ∀ addr value, pre.isPrefixOf addr.1 = true →
      mv2Id.all (fun rid => decide ((f addr value).mv2Id = some rid)) =
        mv2Id.all fun rid => decide (value.mv2Id = some rid)) :
    found cfg store pre mv2Id = (found cfg store₀ pre mv2Id).map (replaceItem f) := by
  have hmatching : (matching store pre mv2Id).map Prod.fst =
      (matching store₀ pre mv2Id).map Prod.fst := by
    rw [matching, matching, Dict.map_filter_entries, Dict.map_filter_entries, h.keys]
    apply List.filter_congr
    intro addr _
    rw [h.get, Option.any_map]
    congr 1
    funext value
    cases hpre : pre.isPrefixOf addr.1 with
    | false => rfl
    | true => simp only [hpass addr value hpre]
  change (cfg.search.order ((matching store pre mv2Id).map Prod.fst)).filterMap _ =
    ((cfg.search.order ((matching store₀ pre mv2Id).map Prod.fst)).filterMap _).map _
  rw [hmatching, List.map_filterMap]
  apply List.filterMap_congr
  intro addr _
  rw [h.get, Option.map_map, Option.map_map]
  rfl

theorem Replaced.found_all (h : Replaced f store₀ store) (pre : List String) :
    found cfg store pre none = (found cfg store₀ pre none).map (replaceItem f) :=
  h.found_eq pre none fun _ _ _ => rfl

theorem scanFrom_map (results : List (Address × Stored)) (fuel offset : Nat) :
    scanFrom cfg (results.map (replaceItem f)) fuel offset =
      (scanFrom cfg results fuel offset).map (List.map (replaceItem f)) := by
  induction fuel generalizing offset with
  | zero => rfl
  | succ fuel ih =>
    rw [scanFrom, scanFrom, ← List.map_drop, ← List.map_take, List.length_map]
    cases checkScan cfg (offset + ((results.drop offset).take cfg.page).length) with
    | error e => rfl
    | ok u =>
      simp only [bind, Except.bind]
      split
      · rfl
      · rw [ih]
        cases scanFrom cfg results fuel _ with
        | error e => rfl
        | ok rest => exact congrArg Except.ok List.map_append.symm

theorem Replaced.items_eq (h : Replaced f store₀ store) (pres : List (List String)) :
    items cfg store pres = (items cfg store₀ pres).map (List.map (replaceItem f)) := by
  induction pres with
  | nil => rfl
  | cons pre rest ih =>
    have hscan : scan cfg store pre = (scan cfg store₀ pre).map (List.map (replaceItem f)) := by
      rw [scan, scan, h.found_all, List.length_map]
      exact scanFrom_map _ _ _
    rw [items, items, hscan, ih]
    cases scan cfg store₀ pre with
    | error e => rfl
    | ok these =>
      cases items cfg store₀ rest with
      | error e => rfl
      | ok others => exact congrArg Except.ok List.map_append.symm

theorem Unseen.seen_eq (hf : Unseen cfg f) (addr : Address) (value : Stored) :
    seen cfg scope addr (f addr value) = seen cfg scope addr value := by
  rw [seen, hf.view]
  rfl

theorem Replaced.visible_eq (h : Replaced f store₀ store) (hf : Unseen cfg f)
    (scope : MemoryScope) : visible cfg store scope = visible cfg store₀ scope := by
  rw [visible, visible, h.items_eq]
  cases items cfg store₀ ([root, scope.orgId] :: cfg.legacyNs) with
  | error e => rfl
  | ok these =>
    change (visibleItems cfg scope (these.map (replaceItem f)) >>= fun seen =>
      .ok (seen.map Prod.fst)) = (visibleItems cfg scope these >>= fun seen =>
      .ok (seen.map Prod.fst))
    rw [visibleItems_eq, visibleItems_eq]
    change Except.ok _ = Except.ok _
    rw [List.filterMap_map, List.map_filterMap, List.map_filterMap]
    congr 1
    apply List.filterMap_congr
    intro e _
    simp only [Function.comp, replaceItem, hf.seen_eq, Option.map_map]
    rfl

theorem head?_eq_root (h : List.isPrefixOf [root, org] ns = true) : ns.head? = some root := by
  cases ns with
  | nil => cases h
  | cons part rest =>
    rw [List.isPrefixOf, Bool.and_eq_true, beq_iff_eq] at h
    rw [List.head?_cons, h.1]

theorem Replaced.locate_eq (h : Replaced f store₀ store) (hf : Unseen cfg f) (recordId : String)
    (scope : MemoryScope) : locate cfg store recordId scope = locate cfg store₀ recordId scope := by
  have hread : ∀ addr value, toRecord cfg addr (f addr value) = toRecord cfg addr value := by
    intro addr value
    rw [toRecord_eq, toRecord_eq, hf.view]
  rw [locate, locate]
  cases decodeLegacyId cfg.json recordId with
  | some addr =>
    simp only [h.get]
    cases store₀.get? addr with
    | none => rfl
    | some value => simp only [Option.map_some, hread]
  | none =>
    have hfound : found cfg store [root, scope.orgId] (some recordId) =
        (found cfg store₀ [root, scope.orgId] (some recordId)).map (replaceItem f) := by
      apply h.found_eq
      intro addr value hpre
      rw [hf.rooted addr value (head?_eq_root hpre)]
    simp only [hfound, ← List.map_take]
    cases (found cfg store₀ [root, scope.orgId] (some recordId)).take 1 with
    | nil => rfl
    | cons e rest => simp only [List.map_cons, replaceItem, hread]

theorem Replaced.get_eq (h : Replaced f store₀ store) (hf : Unseen cfg f) :
    LangGraph.get cfg store = LangGraph.get cfg store₀ := by
  funext recordId scope
  rw [LangGraph.get, LangGraph.get, h.locate_eq hf]

theorem Replaced.list_eq (h : Replaced f store₀ store) (hf : Unseen cfg f) :
    LangGraph.list cfg store = LangGraph.list cfg store₀ := by
  funext scope since limit
  rw [LangGraph.list, LangGraph.list, h.visible_eq hf]

end

/-! Annotations. -/

theorem decodeLegacyId_encode (json : JsonReader) (addr : Address) :
    decodeLegacyId json (encodeLegacyId addr) = some addr := by
  obtain ⟨ns, key⟩ := addr
  have hitems : ∀ ns : List String, wellFormedItems (ns.map Tree.str) = true := by
    intro ns
    induction ns with
    | nil => rfl
    | cons part ns ih => exact ih
  have hwell : wellFormed (legacyTree (ns, key)) = true := by
    have harr : wellFormed (Tree.arr (ns.map Tree.str)) = true := hitems ns
    rw [legacyTree, wellFormed, wellFormedItems, harr]
    rfl
  have hprefix : legacyPrefix.isPrefixOf
      (legacyPrefix ++ idDialect.write (legacyTree (ns, key))) = true :=
    List.isPrefixOf_iff_prefix.2 (List.prefix_append _ _)
  rw [decodeLegacyId, encodeLegacyId, String.toList_ofList, if_pos hprefix, List.drop_left,
    json.loads_write _ hwell]
  have hparts : (ns.map Tree.str).map json.str = ns := by
    rw [List.map_map]
    exact (List.map_congr_left fun part _ => json.str_str part).trans (List.map_id ns)
  simp only [legacyTree, hparts]

def stamp (cfg : LangGraphConfig) (addr : Address) : Stored → Stored
  | .other => .other
  | .dict doc => .dict { doc with
      annotation := doc.annotation.or ((view cfg addr (.dict doc)).map MemoryRecord.annotation) }

def stamped (cfg : LangGraphConfig) (flag : Address → Bool) (addr : Address) (value : Stored) :
    Stored := if flag addr then stamp cfg addr value else value

theorem view_legacy {doc : Document} (hdoc : doc.annotation = none)
    (h : view cfg addr (.dict doc) = some r) :
    r.id = encodeLegacyId addr ∧ r.content = doc.value ∧ addr.1.head? ≠ some root := by
  have hread := toRecord_eq cfg addr (.dict doc)
  rw [h, toRecord, hdoc] at hread
  cases horg : cfg.legacyOrg with
  | none =>
    rw [horg] at hread
    cases hread
  | some org =>
    simp only [horg] at hread
    split at hread
    next hroot => cases hread
    next hroot =>
      cases hread
      exact ⟨rfl, rfl, hroot⟩

theorem stamp_of_hasMv2 (h : value.hasMv2 = true) : stamp cfg addr value = value := by
  cases value with
  | other => rfl
  | dict doc =>
    obtain ⟨a, ha⟩ := Option.isSome_iff_exists.1 h
    rw [stamp, ha, Option.some_or, ← ha]

theorem view_stamp (addr : Address) (value : Stored) :
    view cfg addr (stamp cfg addr value) = view cfg addr value := by
  cases value with
  | other => rfl
  | dict doc =>
    cases hdoc : doc.annotation with
    | some a =>
      have hmarked : (Stored.dict doc).hasMv2 = true := congrArg Option.isSome hdoc
      rw [stamp_of_hasMv2 hmarked]
    | none =>
      cases hview : view cfg addr (.dict doc) with
      | none =>
        rw [stamp, hview, hdoc, Option.map_none, Option.or_none, ← hdoc]
        exact hview
      | some r =>
        obtain ⟨-, hcontent, -⟩ := view_legacy hdoc hview
        have hread : recordFromMv2 r.annotation.mv2 doc.value = .ok r := by
          have h := recordFromMv2_recordToMv2 r doc.value
          rw [← hcontent] at h ⊢
          exact h
        rw [stamp, hview, hdoc, Option.map_some, Option.none_or, view, toRecord]
        simp only [hread]
        rfl

theorem unseen_stamped (cfg : LangGraphConfig) (flag : Address → Bool) :
    Unseen cfg (stamped cfg flag) where
  view addr value := by
    rw [stamped]
    split
    · exact view_stamp addr value
    · rfl
  rooted addr value hroot := by
    rw [stamped]
    split
    · cases value with
      | other => rfl
      | dict doc =>
        cases hdoc : doc.annotation with
        | some a => exact stamp_of_hasMv2 (congrArg Option.isSome hdoc)
        | none =>
          cases hview : LangGraph.view cfg addr (.dict doc) with
          | none => rw [stamp, hview, hdoc, Option.map_none, Option.or_none, ← hdoc]
          | some r => exact absurd hroot (view_legacy hdoc hview).2.2
    · rfl

theorem hasMv2_stamp (h : view cfg addr value = some r) :
    (stamp cfg addr value).hasMv2 = true := by
  cases value with
  | other => cases h
  | dict doc =>
    rw [stamp, h, Stored.hasMv2]
    cases doc.annotation <;> rfl

/-! The facts that a backfill scans. -/

def seenAt (cfg : LangGraphConfig) (store : BaseStore) (scope : MemoryScope) (addr : Address) :
    Option MemoryRecord := (store.get? addr).bind (seen cfg scope addr)

def recordAt (cfg : LangGraphConfig) (store : BaseStore) (scope : MemoryScope) (addr : Address) :
    MemoryRecord :=
  (seenAt cfg store scope addr).getD (legacyRecord "" "" ⟨scope.orgId, scope.nonEmpty⟩ none none 0
    none)

def annotatedAt (store : BaseStore) (addr : Address) : Bool := (store.get? addr).any Stored.hasMv2

def legacyItems (cfg : LangGraphConfig) (store : BaseStore) : List (Address × Stored) :=
  cfg.legacyNs.flatMap fun pre => found cfg store pre none

def legacyKeys (cfg : LangGraphConfig) (store : BaseStore) (scope : MemoryScope) : List Address :=
  (((legacyItems cfg store).map Prod.fst).filter fun addr =>
    (seenAt cfg store scope addr).isSome).insertionSort fun a b =>
      (recordAt cfg store scope a).id ≤ (recordAt cfg store scope b).id

def pending (cfg : LangGraphConfig) (store : BaseStore) (scope : MemoryScope) : List Address :=
  (store.entries.filter fun e => cfg.legacyNs.any (fun pre => pre.isPrefixOf e.1.1) &&
    !e.2.hasMv2 && (seen cfg scope e.1 e.2).isSome).map Prod.fst

theorem mem_found : e ∈ found cfg store pre none ↔
    e ∈ store.entries ∧ pre.isPrefixOf e.1.1 = true := by
  rw [(found_perm cfg store pre none).mem_iff, matching, List.mem_filter, Option.all_none,
    Bool.and_true]

theorem mem_legacyItems : e ∈ legacyItems cfg store ↔
    e ∈ store.entries ∧ cfg.legacyNs.any (fun pre => pre.isPrefixOf e.1.1) = true := by
  rw [legacyItems, List.mem_flatMap, List.any_eq_true]
  apply Iff.intro
  · intro h
    obtain ⟨pre, hpre, he⟩ := h
    obtain ⟨hentry, hprefix⟩ := mem_found.1 he
    exact ⟨hentry, pre, hpre, hprefix⟩
  · intro h
    obtain ⟨hentry, pre, hpre, hprefix⟩ := h
    exact ⟨pre, hpre, mem_found.2 ⟨hentry, hprefix⟩⟩

theorem mem_legacyKeys : addr ∈ legacyKeys cfg store scope ↔
    ∃ value r, store.get? addr = some value ∧ seen cfg scope addr value = some r ∧
      cfg.legacyNs.any (fun pre => pre.isPrefixOf addr.1) = true := by
  rw [legacyKeys, List.mem_insertionSort, List.mem_filter, List.mem_map]
  apply Iff.intro
  · intro h
    obtain ⟨⟨e, he, rfl⟩, hseen⟩ := h
    obtain ⟨hentry, hany⟩ := mem_legacyItems.1 he
    have hget := Dict.get?_eq_some.2 hentry
    rw [seenAt, hget] at hseen
    obtain ⟨r, hr⟩ := Option.isSome_iff_exists.1 hseen
    exact ⟨e.2, r, hget, hr, hany⟩
  · intro h
    obtain ⟨value, r, hget, hr, hany⟩ := h
    refine ⟨⟨(addr, value), mem_legacyItems.2 ⟨Dict.get?_eq_some.1 hget, hany⟩, rfl⟩, ?_⟩
    rw [seenAt, hget, Option.bind_some, hr]
    rfl

theorem mem_pending : addr ∈ pending cfg store scope ↔
    addr ∈ legacyKeys cfg store scope ∧ annotatedAt store addr = false := by
  rw [mem_legacyKeys, pending, List.mem_map]
  apply Iff.intro
  · intro h
    obtain ⟨e, he, rfl⟩ := h
    obtain ⟨hentry, hpass⟩ := List.mem_filter.1 he
    simp only [Bool.and_eq_true, Bool.not_eq_true'] at hpass
    obtain ⟨⟨hany, hplain⟩, hseen⟩ := hpass
    obtain ⟨r, hr⟩ := Option.isSome_iff_exists.1 hseen
    have hget := Dict.get?_eq_some.2 hentry
    refine ⟨⟨e.2, r, hget, hr, hany⟩, ?_⟩
    rw [annotatedAt, hget]
    exact hplain
  · intro h
    obtain ⟨⟨value, r, hget, hr, hany⟩, hplain⟩ := h
    rw [annotatedAt, hget, Option.any_some] at hplain
    refine ⟨(addr, value), List.mem_filter.2 ⟨Dict.get?_eq_some.1 hget, ?_⟩, rfl⟩
    simp only [hany, hplain, hr, Bool.true_and, Bool.not_false, Option.isSome_some]

theorem nodup_pending (cfg : LangGraphConfig) (store : BaseStore) (scope : MemoryScope) :
    (pending cfg store scope).Nodup := Dict.nodup_filter store.nodup _

theorem count_legacyItems (hmem : addr ∈ store.keys) :
    ((legacyItems cfg store).map Prod.fst).count addr =
      cfg.legacyNs.countP fun pre => pre.isPrefixOf addr.1 := by
  have hone : ∀ pre, ((found cfg store pre none).map Prod.fst).count addr =
      if pre.isPrefixOf addr.1 then 1 else 0 := by
    intro pre
    have hkeys : (matching store pre none).map Prod.fst =
        store.keys.filter fun addr => pre.isPrefixOf addr.1 := by
      rw [matching, Dict.map_filter_entries]
      apply List.filter_congr
      intro other hother
      obtain ⟨value, hvalue⟩ := Dict.mem_iff_get?.1 hother
      simp [hvalue]
    have hnodup : (store.keys.filter fun addr => pre.isPrefixOf addr.1).Nodup :=
      List.Nodup.filter _ store.nodup
    rw [((found_perm cfg store pre none).map Prod.fst).count_eq, hkeys]
    cases hpre : pre.isPrefixOf addr.1 with
    | true => exact List.count_eq_one_of_mem hnodup (List.mem_filter.2 ⟨hmem, hpre⟩)
    | false =>
      apply List.count_eq_zero_of_not_mem
      intro h
      rw [List.mem_filter, hpre] at h
      cases h.2
  rw [legacyItems]
  induction cfg.legacyNs with
  | nil => rfl
  | cons pre rest ih =>
    rw [List.flatMap_cons, List.map_append, List.count_append, hone, ih, List.countP_cons,
      Nat.add_comm]

theorem nodup_legacyKeys_iff : ((legacyKeys cfg store scope).filter fun addr =>
      !annotatedAt store addr).Nodup ↔
    ∀ addr ∈ pending cfg store scope,
      cfg.legacyNs.countP (fun pre => pre.isPrefixOf addr.1) ≤ 1 := by
  have hcount : ∀ addr ∈ pending cfg store scope,
      ((legacyKeys cfg store scope).filter fun addr => !annotatedAt store addr).count addr =
        cfg.legacyNs.countP fun pre => pre.isPrefixOf addr.1 := by
    intro addr haddr
    obtain ⟨hkey, hplain⟩ := mem_pending.1 haddr
    obtain ⟨value, r, hget, hr, -⟩ := mem_legacyKeys.1 hkey
    have hseen : (seenAt cfg store scope addr).isSome = true := by
      rw [seenAt, hget, Option.bind_some, hr]
      rfl
    rw [List.count_filter (by simp [hplain]), legacyKeys, (List.perm_insertionSort _ _).count_eq,
      List.count_filter (by simpa using hseen), count_legacyItems (Dict.mem_of_get? hget)]
  rw [List.nodup_iff_count_le_one]
  apply Iff.intro
  · intro h addr haddr
    rw [← hcount addr haddr]
    exact h addr
  · intro h addr
    by_cases hmem : addr ∈ (legacyKeys cfg store scope).filter fun addr => !annotatedAt store addr
    · have haddr : addr ∈ pending cfg store scope := by
        obtain ⟨hkey, hplain⟩ := List.mem_filter.1 hmem
        exact mem_pending.2 ⟨hkey, by simpa using hplain⟩
      rw [hcount addr haddr]
      exact h addr haddr
    · rw [List.count_eq_zero_of_not_mem hmem]
      exact Nat.zero_le 1

/-! The store while it is annotated. -/

/-- The store at the start with the flagged facts annotated. -/
structure Annotated (cfg : LangGraphConfig) (store₀ store : BaseStore) (flag : Address → Bool) :
    Prop where
  le : ∀ addr, annotatedAt store₀ addr = true → flag addr = true
  replaced : Replaced (stamped cfg flag) store₀ store

theorem annotated_start (cfg : LangGraphConfig) (store : BaseStore) :
    Annotated cfg store store (annotatedAt store) := by
  refine ⟨fun _ h => h, rfl, ?_⟩
  intro addr
  cases hget : store.get? addr with
  | none => rfl
  | some value =>
    rw [Option.map_some, stamped, annotatedAt, hget, Option.any_some]
    split
    next h => rw [stamp_of_hasMv2 h]
    next => rfl

theorem hasMv2_stamped (h : Annotated cfg store₀ store flag) (hget : store₀.get? addr = some value)
    (hview : view cfg addr value = some r) : (stamped cfg flag addr value).hasMv2 = flag addr := by
  rw [stamped]
  cases hflag : flag addr with
  | true => exact hasMv2_stamp hview
  | false =>
    have hplain : annotatedAt store₀ addr = false := by
      rw [Bool.eq_false_iff]
      intro hup
      rw [h.le addr hup] at hflag
      cases hflag
    rw [annotatedAt, hget, Option.any_some] at hplain
    exact hplain

theorem view_of_seen (h : seen cfg scope addr value = some r) : view cfg addr value = some r :=
  (Option.filter_eq_some_iff.1 h).1

theorem recordAt_eq (hget : store.get? addr = some value) (h : seen cfg scope addr value = some r) :
    recordAt cfg store scope addr = r := by
  rw [recordAt, seenAt, hget, Option.bind_some, h, Option.getD_some]

theorem scanned_eq (h : Annotated cfg store₀ store flag) :
    ((legacyItems cfg store).filterMap fun e => (seen cfg scope e.1 e.2).map fun r => (r, e.2)).map
        (fun e => LegacyEntry.mk e.1 e.2.hasMv2) =
      (((legacyItems cfg store₀).map Prod.fst).filter fun addr =>
        (seenAt cfg store₀ scope addr).isSome).map fun addr =>
          ⟨recordAt cfg store₀ scope addr, flag addr⟩ := by
  have hitems : legacyItems cfg store =
      (legacyItems cfg store₀).map (replaceItem (stamped cfg flag)) := by
    rw [legacyItems, legacyItems, List.map_flatMap]
    apply List.flatMap_congr
    intro pre _
    exact h.replaced.found_all pre
  rw [hitems, List.filterMap_map, List.map_filterMap, List.filter_map, List.map_map,
    ← List.filterMap_eq_map, List.filterMap_filter]
  apply List.filterMap_congr
  intro e he
  have hget : store₀.get? e.1 = some e.2 := Dict.get?_eq_some.2 (mem_legacyItems.1 he).1
  have hseenAt : seenAt cfg store₀ scope e.1 = seen cfg scope e.1 e.2 := by
    rw [seenAt, hget, Option.bind_some]
  simp only [Function.comp, replaceItem, (unseen_stamped cfg flag).seen_eq, Option.map_map, hseenAt]
  cases hseen : seen cfg scope e.1 e.2 with
  | none => rfl
  | some r =>
    simp only [Option.map_some, Option.isSome_some, if_true, Function.comp,
      hasMv2_stamped h hget (view_of_seen hseen), recordAt_eq hget hseen]

theorem Annotated.fits (h : Annotated cfg store₀ store flag) (hfit : Fits cfg store₀ pre) :
    Fits cfg store pre := by
  have hlength : (matching store pre none).length = (matching store₀ pre none).length := by
    rw [← (found_perm cfg store pre none).length_eq, ← (found_perm cfg store₀ pre none).length_eq,
      h.replaced.found_all, List.length_map]
  intro m hm
  rw [hlength]
  exact hfit m hm

theorem Annotated.scan (h : Annotated cfg store₀ store flag)
    (hfits : ∀ pre ∈ cfg.legacyNs, Fits cfg store₀ pre) :
    scanLegacy cfg store scope limit offset =
      .ok ((((legacyKeys cfg store₀ scope).drop offset).take limit).map fun addr =>
        ⟨recordAt cfg store₀ scope addr, flag addr⟩) := by
  rw [scanLegacy, items_ok fun pre hpre => h.fits (hfits pre hpre)]
  change (visibleItems cfg scope (legacyItems cfg store) >>= fun seen => .ok _) = _
  rw [visibleItems_eq]
  change Except.ok _ = Except.ok _
  have hsort : (legacyKeys cfg store₀ scope).map (fun addr =>
        LegacyEntry.mk (recordAt cfg store₀ scope addr) (flag addr)) =
      ((((legacyItems cfg store₀).map Prod.fst).filter fun addr =>
        (seenAt cfg store₀ scope addr).isSome).map fun addr =>
          LegacyEntry.mk (recordAt cfg store₀ scope addr) (flag addr)).insertionSort fun a b =>
            a.record.id ≤ b.record.id :=
    List.map_insertionSort _ _ _ _ fun _ _ _ _ => Iff.rfl
  rw [scanned_eq h, List.map_take, List.map_drop, hsort]

theorem mem_keys_of_get? (h : Annotated cfg store₀ store flag)
    (hget : store₀.get? addr = some value) : addr ∈ store := by
  rw [Dict.mem_iff_keys, h.replaced.keys]
  exact Dict.mem_of_get? hget

theorem Annotated.annotate (h : Annotated cfg store₀ store flag)
    (hkey : addr ∈ legacyKeys cfg store₀ scope) (hplain : annotatedAt store₀ addr = false) :
    ∃ store', annotate cfg store (recordAt cfg store₀ scope addr) = (!flag addr, store') ∧
      Annotated cfg store₀ store' (mark flag addr) := by
  obtain ⟨value, r, hget, hseen, -⟩ := mem_legacyKeys.1 hkey
  have hview := view_of_seen hseen
  rw [recordAt_eq hget hseen]
  rw [annotatedAt, hget, Option.any_some] at hplain
  cases value with
  | other => cases hview
  | dict doc =>
    have hdoc : doc.annotation = none := by
      cases hdoc : doc.annotation with
      | none => rfl
      | some a =>
        have hmarked : (Stored.dict doc).hasMv2 = true := congrArg Option.isSome hdoc
        cases hmarked.symm.trans hplain
    obtain ⟨hid, -, -⟩ := view_legacy hdoc hview
    have hdecode : decodeLegacyId cfg.json r.id = some addr := by
      rw [hid]
      exact decodeLegacyId_encode cfg.json addr
    have hstamp : stamp cfg addr (.dict doc) =
        .dict { doc with annotation := some r.annotation } := by
      rw [stamp, hview, hdoc]
      rfl
    have hnow := h.replaced.get addr
    rw [hget, Option.map_some, stamped, hstamp] at hnow
    rw [LangGraph.annotate, hdecode]
    cases hflag : flag addr with
    | true =>
      rw [hflag, if_pos rfl] at hnow
      refine ⟨store, ?_, ?_⟩
      · simp only [hnow, Option.isSome_some, if_true, Bool.not_true]
      · rw [mark_of_up hflag]
        exact h
    | false =>
      rw [hflag, if_neg Bool.false_ne_true] at hnow
      refine ⟨store.set addr (.dict { doc with annotation := some r.annotation }), ?_, ?_, ?_, ?_⟩
      · simp only [hnow, hdoc, Option.isSome_none, Bool.false_eq_true, if_false, Bool.not_false]
      · intro other hother
        exact le_mark (h.le other hother)
      · rw [Dict.keys_set_mem (mem_keys_of_get? h hget), h.replaced.keys]
      · intro other
        rw [Dict.get?_set]
        by_cases hother : addr = other
        · rw [if_pos hother, ← hother, hget, Option.map_some, stamped, mark_self, if_pos rfl,
            hstamp]
        · have hmark : mark flag addr other = flag other := by
            rw [mark, decide_eq_false (Ne.symm hother), Bool.or_false]
          rw [if_neg hother, h.replaced.get]
          cases store₀.get? other with
          | none => rfl
          | some old => rw [Option.map_some, Option.map_some, stamped, stamped, hmark]

def backend (cfg : LangGraphConfig) : LegacyBackend BaseStore Address (Option Stored) where
  scanLegacy := scanLegacy cfg
  annotate := LangGraph.annotate cfg
  get := LangGraph.get cfg
  list := LangGraph.list cfg
  cell store addr := store.get? addr
  pending := pending cfg
  annotated store addr := (store.get? addr).map (stamp cfg addr)

theorem veiled (hfits : ∀ pre ∈ cfg.legacyNs, Fits cfg store pre) :
    Veiled (backend cfg) store scope (legacyKeys cfg store scope) (annotatedAt store)
      (recordAt cfg store scope) (Annotated cfg store) where
  le h hup := h.le _ hup
  scan h := h.scan hfits
  annotate h hkey hplain := h.annotate hkey hplain
  start := annotated_start cfg store
  get h := h.replaced.get_eq (unseen_stamped cfg _)
  list h := h.replaced.list_eq (unseen_stamped cfg _)
  cells h addr := by
    change _ = if _ then (store.get? addr).map (stamp cfg addr) else store.get? addr
    rw [annotatedAt]
    refine (h.replaced.get addr).trans ?_
    cases store.get? addr with
    | none => exact (ite_self none).symm
    | some value =>
      rw [Option.map_some, Option.map_some, stamped, Option.any_some]
      cases hmarked : value.hasMv2 with
      | true => simp [stamp_of_hasMv2 hmarked]
      | false =>
        rw [apply_ite some]
        exact if_congr (and_iff_left rfl).symm rfl rfl
  nodup := nodup_pending cfg store scope
  pending _ := mem_pending

theorem items_error {pres : List (List String)} (hpre : pre ∈ pres) (h : ¬Fits cfg store pre) :
    ∃ e, items cfg store pres = .error e := by
  induction pres with
  | nil => cases hpre
  | cons first rest ih =>
    rw [items]
    cases hscan : scan cfg store first with
    | error e => exact ⟨e, rfl⟩
    | ok these =>
      have hrest : pre ∈ rest := by
        cases List.mem_cons.1 hpre with
        | inr hrest => exact hrest
        | inl heq =>
          simp only [Fits, not_forall, not_le] at h
          obtain ⟨m, hm, hlt⟩ := h
          rw [heq] at hlt
          cases hscan.symm.trans (scan_error hm hlt)
      obtain ⟨e, he⟩ := ih hrest
      rw [he]
      exact ⟨e, rfl⟩

theorem exact_iff (cfg : LangGraphConfig) (store : BaseStore) (scope : MemoryScope)
    (hbatch : 0 < batchSize) :
    Exact (backend cfg) store scope batchSize ↔ (∀ pre ∈ cfg.legacyNs, Fits cfg store pre) ∧
      ∀ addr ∈ pending cfg store scope,
        cfg.legacyNs.countP (fun pre => pre.isPrefixOf addr.1) ≤ 1 := by
  by_cases hfits : ∀ pre ∈ cfg.legacyNs, Fits cfg store pre
  · rw [(veiled hfits).exact_iff hbatch, nodup_legacyKeys_iff]
    exact (and_iff_right hfits).symm
  · apply iff_of_false
    · intro h
      obtain ⟨real, dry, store', hfilled⟩ := h
      obtain ⟨enough, hrun⟩ := hfilled.returned
      obtain ⟨pre, hpre, hover⟩ : ∃ pre, pre ∈ cfg.legacyNs ∧ ¬Fits cfg store pre := by
        simpa using hfits
      obtain ⟨e, he⟩ := items_error hpre hover
      have hscan : (backend cfg).scanLegacy store scope batchSize.toNat 0 = .error e := by
        change scanLegacy cfg store scope batchSize.toNat 0 = .error e
        rw [scanLegacy, he]
        rfl
      have h := hrun (enough + 1) (Nat.le_succ enough)
      rw [LegacyAnnotatable.migrateLegacyRecords, if_neg (not_le.2 hbatch),
        LegacyAnnotatable.migrateFrom] at h
      simp only [hscan] at h
      cases h
    · exact fun h => hfits h.1

end LangGraph

end Prismal.Memory
