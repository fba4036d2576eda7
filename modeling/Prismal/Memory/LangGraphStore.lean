import Prismal.Memory.InMemoryBackend
import Prismal.Memory.Mv2

namespace Prismal.Memory
open Prismal.Lib Prismal.Lib.Json
set_option autoImplicit true

abbrev Address := List String × String

/-- What the backend reads of a stored mapping: `str(value.get("value", ""))`,
`str(value.get("user_id") or "")`, a numeric `created_at`, and the `mv2_*` keys. -/
structure Document where
  value : String
  userId : String
  createdAt : Option Rat
  expiresAt : Option Rat
  annotation : Option Annotation

/-- A stored value; one that is no mapping is left alone. -/
inductive Stored where
  | other
  | dict (doc : Document)

def Stored.hasMv2 : Stored → Bool
  | .other => false
  | .dict doc => doc.annotation.isSome

def Stored.mv2Id : Stored → Option String
  | .other => none
  | .dict doc => doc.annotation.map fun a => a.mv2.id

abbrev BaseStore := Dict Address Stored

/-- The dialect with `separators=(",", ":")`. -/
def idDialect : Dialect := ⟨escape, [], readChar_escape⟩

/-- Reading JSON: a text that was written has its tree back. `str` is the text of a value. -/
structure JsonReader where
  loads : List Char → Option Tree
  str : Tree → String
  loads_write : ∀ t, wellFormed t = true → loads (idDialect.write t) = some t
  str_str : ∀ s, str (.str s) = s

/-- A search reports the addresses it finds in some order. -/
structure SearchOrder where
  order : List Address → List Address
  perm : ∀ addrs, (order addrs).Perm addrs

def root : String := "prismal"

structure LangGraphConfig where
  search : SearchOrder
  json : JsonReader
  sanitize : String → String
  legacyNs : List (List String)
  legacyOrg : Option OrgId
  pageSize : Int
  maxScanArg : Option Int
  unrooted : ∀ ns ∈ legacyNs, ns.head? ≠ some root

namespace LangGraphConfig

def page (cfg : LangGraphConfig) : Nat := (max cfg.pageSize 1).toNat

def maxScan (cfg : LangGraphConfig) : Option Nat := cfg.maxScanArg.map fun n => (max n 1).toNat

end LangGraphConfig

def legacyPrefix : List Char := "legacy:".toList

def legacyTree (addr : Address) : Tree := .arr [.arr (addr.1.map .str), .str addr.2]

def encodeLegacyId (addr : Address) : String :=
  String.ofList (legacyPrefix ++ idDialect.write (legacyTree addr))

def decodeLegacyId (json : JsonReader) (recordId : String) : Option Address :=
  if legacyPrefix.isPrefixOf recordId.toList then
    match json.loads (recordId.toList.drop legacyPrefix.length) with
    | some (.arr [.arr ns, .str key]) => some (ns.map json.str, key)
    | _ => none
  else none

def namespaceOf (scope : MemoryScope) (type : MemoryType) : List String :=
  let user := match scope.userId with
    | some user => if user = "" then "_" else user
    | none => "_"
  [root, scope.orgId, user, type.value]

namespace LangGraph

variable (cfg : LangGraphConfig)

def toRecord (addr : Address) : Stored → Except BackendError (Option MemoryRecord)
  | .other => return none
  | .dict doc =>
    match doc.annotation with
    | some a => do
      let r ← recordFromMv2 a.mv2 doc.value
      return some r
    | none =>
      match cfg.legacyOrg with
      | none => return none
      | some org =>
        if addr.1.head? = some root then return none
        else
          let user := if doc.userId = "" then none else some doc.userId
          return some (legacyRecord (encodeLegacyId addr) doc.value org user none
            (doc.createdAt.getD 0) doc.expiresAt)

/-- `asearch`: what is stored under a prefix, and has the `mv2_id` if one is asked for. -/
def found (store : BaseStore) (pre : List String) (mv2Id : Option String) : List (Address × Stored) :=
  let matching := store.entries.filter fun e =>
    pre.isPrefixOf e.1.1 && mv2Id.all fun recordId => decide (e.2.mv2Id = some recordId)
  (cfg.search.order (matching.map Prod.fst)).filterMap fun addr =>
    (store.get? addr).map fun value => (addr, value)

/-- A scan that has read `offset` items is refused above `max_scan`. -/
def checkScan (offset : Nat) : Except BackendError PUnit :=
  match cfg.maxScan with
  | some maxScan => if maxScan < offset then throw (.scanLimit maxScan) else return
  | none => return

/-- The pages of a scan; `offset` of the results have been read. -/
def scanFrom (results : List (Address × Stored)) :
    Nat → Nat → Except BackendError (List (Address × Stored))
  | 0, _ => return []
  | fuel + 1, offset => do
    let page := (results.drop offset).take cfg.page
    let offset := offset + page.length
    checkScan cfg offset
    if page.length < cfg.page then return page
    let rest ← scanFrom results fuel offset
    return page ++ rest

def scan (store : BaseStore) (pre : List String) : Except BackendError (List (Address × Stored)) :=
  let results := found cfg store pre none
  scanFrom cfg results (results.length + 1) 0

def items (store : BaseStore) : List (List String) → Except BackendError (List (Address × Stored))
  | [] => return []
  | pre :: rest => do
    let these ← scan cfg store pre
    let others ← items store rest
    return these ++ others

def visibleItems (scope : MemoryScope) :
    List (Address × Stored) → Except BackendError (List (MemoryRecord × Stored))
  | [] => return []
  | (addr, value) :: rest => do
    let r ← toRecord cfg addr value
    let others ← visibleItems scope rest
    return (r.filter fun r => scope.covers r.scope).toList.map (fun r => (r, value)) ++ others

def visible (store : BaseStore) (scope : MemoryScope) :
    Except BackendError (List MemoryRecord) := do
  let these ← items cfg store ([root, scope.orgId] :: cfg.legacyNs)
  let seen ← visibleItems cfg scope these
  return seen.map Prod.fst

def locate (store : BaseStore) (recordId : String) (scope : MemoryScope) :
    Except BackendError (Option (Address × MemoryRecord)) := do
  let covered (addr : Address) (r : Option MemoryRecord) : Option (Address × MemoryRecord) :=
    (r.filter fun r => scope.covers r.scope).map fun r => (addr, r)
  match decodeLegacyId cfg.json recordId with
  | some addr =>
    if cfg.legacyNs.any fun pre => pre.isPrefixOf addr.1 then
      match store.get? addr with
      | some value => do
        let r ← toRecord cfg addr value
        return covered addr r
      | none => return none
    else return none
  | none =>
    match (found cfg store [root, scope.orgId] (some recordId)).take 1 with
    | (addr, value) :: _ => do
      let r ← toRecord cfg addr value
      return covered addr r
    | [] => return none

def target (r : MemoryRecord) : Address :=
  match decodeLegacyId cfg.json r.id with
  | some addr => addr
  | none => (namespaceOf r.scope r.type, r.id)

def document (r : MemoryRecord) : Document where
  value := cfg.sanitize r.content
  userId := r.scope.userId.getD ""
  createdAt := some r.provenance.createdAt
  expiresAt := r.expiresAt
  annotation := some r.annotation

def write (store : BaseStore) (r : MemoryRecord) (previous : Option Address) : BaseStore :=
  let kept := match previous with
    | some addr => if addr = target cfg r then store else store.erase addr
    | none => store
  kept.set (target cfg r) (.dict (document cfg r))

def put (store : BaseStore) (r : MemoryRecord) : Except BackendError BaseStore := do
  let at? ← locate cfg store r.id r.scope
  return write cfg store r (at?.map Prod.fst)

def get (store : BaseStore) (recordId : String) (scope : MemoryScope) :
    Except BackendError (Option MemoryRecord) := do
  let at? ← locate cfg store recordId scope
  return at?.map Prod.snd

def hit (u : Unicode) (text : String) (types : Option (List MemoryType)) (includeSuperseded : Bool)
    (now : Rat) (r : MemoryRecord) : Option (MemoryRecord × Rat) :=
  if !types.all fun ts => decide (r.type ∈ ts) then none
  else if r.supersededBy.isSome && !includeSuperseded then none
  else if r.expiresAt.any fun t => decide (t < now) then none
  else if 0 < overlapScore u text r.content then some (r, overlapScore u text r.content)
  else none

def search (store : BaseStore) (u : Unicode) (text : String) (scope : MemoryScope)
    (types : Option (List MemoryType)) (k : Int) (includeSuperseded : Bool) (now : Rat) :
    Except BackendError (List (MemoryRecord × Rat)) :=
  if k ≤ 0 then return []
  else do
    let records ← visible cfg store scope
    let hits := records.filterMap (hit u text types includeSuperseded now)
    return (hits.insertionSort Records.Closer).take k.toNat

def update (store : BaseStore) (r : MemoryRecord) : Except BackendError BaseStore := do
  match ← locate cfg store r.id r.scope with
  | none => throw (.keyError r.id)
  | some (addr, _) => return write cfg store r (some addr)

def list (store : BaseStore) (scope : MemoryScope) (since : Option Rat) (limit : Int) :
    Except BackendError (List MemoryRecord) := do
  let records ← visible cfg store scope
  let kept := records.filter fun r => since.all fun t => decide (t < r.provenance.createdAt)
  return (kept.insertionSort Records.Earlier).take (max limit 0).toNat

def purgeEach (scope : MemoryScope) :
    List String → BaseStore → Nat → Except BackendError (BaseStore × Nat)
  | [], store, removed => return (store, removed)
  | recordId :: rest, store, removed => do
    match ← locate cfg store recordId scope with
    | some (addr, _) => purgeEach scope rest (store.erase addr) (removed + 1)
    | none => purgeEach scope rest store removed

/-- `none` is an actor of another class. -/
def purge (store : BaseStore) (recordIds : List String) (scope : MemoryScope)
    (authorized : Option ForgetActor) : Except BackendError (BaseStore × Nat) :=
  match authorized with
  | none => throw .notForgetActor
  | some _ => purgeEach cfg scope recordIds.eraseDups store 0

end LangGraph

end Prismal.Memory

namespace Prismal.Memory.LangGraph
open Prismal.Lib Prismal.Lib.Json
set_option autoImplicit true

/-! What the scans of the store backend read. -/

variable {cfg : LangGraphConfig} {store : BaseStore} {scope : MemoryScope}

theorem page_pos (cfg : LangGraphConfig) : 0 < cfg.page := by
  have h : (0 : Int) < max cfg.pageSize 1 := lt_of_lt_of_le one_pos (le_max_right _ _)
  exact Int.lt_toNat.2 h

def view (cfg : LangGraphConfig) (addr : Address) (value : Stored) : Option MemoryRecord :=
  (toRecord cfg addr value).toOption.join

theorem toRecord_eq (cfg : LangGraphConfig) (addr : Address) (value : Stored) :
    toRecord cfg addr value = .ok (view cfg addr value) := by
  have h : ∃ r, toRecord cfg addr value = .ok r := by
    cases value with
    | other => exact ⟨none, rfl⟩
    | dict doc =>
      rw [toRecord]
      cases doc.annotation with
      | some a =>
        obtain ⟨r, hr, -⟩ := a.readable doc.value
        exact ⟨some r, congrArg (fun x => x >>= fun r => pure (some r)) hr⟩
      | none =>
        cases cfg.legacyOrg with
        | none => exact ⟨none, rfl⟩
        | some org =>
          by_cases hroot : addr.1.head? = some root
          · exact ⟨none, if_pos hroot⟩
          · exact ⟨_, if_neg hroot⟩
  obtain ⟨r, hr⟩ := h
  rw [view, hr]
  rfl

def matching (store : BaseStore) (pre : List String) (mv2Id : Option String) :
    List (Address × Stored) :=
  store.entries.filter fun e =>
    pre.isPrefixOf e.1.1 && mv2Id.all fun recordId => decide (e.2.mv2Id = some recordId)

theorem found_perm (cfg : LangGraphConfig) (store : BaseStore) (pre : List String)
    (mv2Id : Option String) :
    (found cfg store pre mv2Id).Perm (matching store pre mv2Id) := by
  have hperm := (cfg.search.perm ((matching store pre mv2Id).map Prod.fst)).filterMap
    fun addr => (store.get? addr).map fun value => (addr, value)
  apply hperm.trans
  rw [List.filterMap_map]
  have hself : ∀ e ∈ matching store pre mv2Id,
      ((fun addr => (store.get? addr).map fun value => (addr, value)) ∘ Prod.fst) e = some e := by
    intro e he
    have hget : store.get? e.1 = some e.2 := Dict.get?_eq_some.2 (List.mem_of_mem_filter he)
    simp [hget]
  rw [List.filterMap_congr hself, List.filterMap_some]

theorem checkScan_ok (h : ∀ m ∈ cfg.maxScan, n ≤ m) : checkScan cfg n = .ok ⟨⟩ := by
  rw [checkScan]
  cases hmax : cfg.maxScan with
  | none => rfl
  | some m => exact if_neg (not_lt.2 (h m hmax))

theorem checkScan_error (hmax : cfg.maxScan = some m) (h : m < n) :
    checkScan cfg n = .error (.scanLimit m) := by
  rw [checkScan, hmax]
  exact if_pos h

theorem scanFrom_succ {results : List (Address × Stored)} (hoffset : offset ≤ results.length) :
    scanFrom cfg results (fuel + 1) offset =
      if results.length < offset + cfg.page then
        checkScan cfg results.length >>= fun _ => .ok (results.drop offset)
      else do
        checkScan cfg (offset + cfg.page)
        let rest ← scanFrom cfg results fuel (offset + cfg.page)
        return (results.drop offset).take cfg.page ++ rest := by
  have hlen : ((results.drop offset).take cfg.page).length =
      min cfg.page (results.length - offset) := by
    rw [List.length_take, List.length_drop]
  rw [scanFrom]
  by_cases hlast : results.length < offset + cfg.page
  · have hpage : (results.drop offset).take cfg.page = results.drop offset :=
      List.take_of_length_le (by rw [List.length_drop]; omega)
    have hend : offset + (results.drop offset).length = results.length := by
      rw [List.length_drop]
      omega
    have hshort : (results.drop offset).length < cfg.page := by
      rw [List.length_drop]
      omega
    simp only [hpage, hend, if_pos hlast, if_pos hshort]
    rfl
  · have hfull : ((results.drop offset).take cfg.page).length = cfg.page := by omega
    simp only [hfull, if_neg hlast, lt_irrefl, if_false]

theorem scanFrom_ok {results : List (Address × Stored)}
    (hfit : ∀ m ∈ cfg.maxScan, results.length ≤ m) (hfuel : results.length < fuel + offset)
    (hoffset : offset ≤ results.length) :
    scanFrom cfg results fuel offset = .ok (results.drop offset) := by
  induction fuel generalizing offset with
  | zero => omega
  | succ fuel ih =>
    have hpage := page_pos cfg
    rw [scanFrom_succ hoffset]
    by_cases hlast : results.length < offset + cfg.page
    · rw [if_pos hlast, checkScan_ok hfit]
      rfl
    · have hle : offset + cfg.page ≤ results.length := Nat.le_of_not_lt hlast
      have hcheck : checkScan cfg (offset + cfg.page) = .ok ⟨⟩ :=
        checkScan_ok fun m hm => hle.trans (hfit m hm)
      rw [if_neg hlast, hcheck, ih (by omega) hle]
      change Except.ok _ = Except.ok _
      rw [← List.drop_drop, List.take_append_drop]

theorem scanFrom_error {results : List (Address × Stored)} (hmax : cfg.maxScan = some m)
    (hm : m < results.length) (hfuel : results.length < fuel + offset)
    (hoffset : offset ≤ results.length) :
    scanFrom cfg results fuel offset = .error (.scanLimit m) := by
  induction fuel generalizing offset with
  | zero => omega
  | succ fuel ih =>
    have hpage := page_pos cfg
    rw [scanFrom_succ hoffset]
    by_cases hlast : results.length < offset + cfg.page
    · rw [if_pos hlast, checkScan_error hmax hm]
      rfl
    · have hle : offset + cfg.page ≤ results.length := Nat.le_of_not_lt hlast
      rw [if_neg hlast]
      by_cases hover : m < offset + cfg.page
      · rw [checkScan_error hmax hover]
        rfl
      · have hcheck : checkScan cfg (offset + cfg.page) = .ok ⟨⟩ := by
          apply checkScan_ok
          intro m' hm'
          cases hmax.symm.trans hm'
          exact Nat.le_of_not_lt hover
        rw [hcheck, ih (by omega) hle]
        rfl

/-- What lies under a prefix does not exceed `max_scan`. -/
def Fits (cfg : LangGraphConfig) (store : BaseStore) (pre : List String) : Prop :=
  ∀ m ∈ cfg.maxScan, (matching store pre none).length ≤ m

theorem scan_ok (h : Fits cfg store pre) : scan cfg store pre = .ok (found cfg store pre none) := by
  have hlen := (found_perm cfg store pre none).length_eq
  exact scanFrom_ok (fun m hm => hlen ▸ h m hm) (by omega) (Nat.zero_le _)

theorem scan_error (hmax : cfg.maxScan = some m) (h : m < (matching store pre none).length) :
    scan cfg store pre = .error (.scanLimit m) := by
  have hlen := (found_perm cfg store pre none).length_eq
  exact scanFrom_error hmax (hlen ▸ h) (by omega) (Nat.zero_le _)

theorem items_ok {pres : List (List String)} (h : ∀ pre ∈ pres, Fits cfg store pre) :
    items cfg store pres = .ok (pres.flatMap fun pre => found cfg store pre none) := by
  induction pres with
  | nil => rfl
  | cons pre rest ih =>
    rw [items, scan_ok (h pre List.mem_cons_self),
      ih fun pre' hpre' => h pre' (List.mem_cons_of_mem _ hpre')]
    rfl

def seen (cfg : LangGraphConfig) (scope : MemoryScope) (addr : Address) (value : Stored) :
    Option MemoryRecord :=
  (view cfg addr value).filter fun r => scope.covers r.scope

theorem visibleItems_eq (results : List (Address × Stored)) :
    visibleItems cfg scope results =
      .ok (results.filterMap fun e => (seen cfg scope e.1 e.2).map fun r => (r, e.2)) := by
  induction results with
  | nil => rfl
  | cons e rest ih =>
    obtain ⟨addr, value⟩ := e
    rw [visibleItems, toRecord_eq, ih, List.filterMap_cons]
    change Except.ok ((seen cfg scope addr value).toList.map _ ++ _) = _
    cases seen cfg scope addr value <;> rfl

theorem visible_ok (h : ∀ pre ∈ [root, scope.orgId] :: cfg.legacyNs, Fits cfg store pre) :
    visible cfg store scope = .ok ((([root, scope.orgId] :: cfg.legacyNs).flatMap fun pre =>
      found cfg store pre none).filterMap fun e => seen cfg scope e.1 e.2) := by
  rw [visible, items_ok h]
  change (visibleItems cfg scope _ >>= fun seen => .ok (seen.map Prod.fst)) = _
  rw [visibleItems_eq]
  change Except.ok _ = Except.ok _
  rw [List.map_filterMap]
  congr 1
  apply List.filterMap_congr
  intro e _
  rw [Option.map_map]
  exact Option.map_id'

end Prismal.Memory.LangGraph

namespace Prismal.Memory
open Prismal.Lib
set_option autoImplicit true

/-! The calls of a memory backend, and how two backends answer them. -/

/-- A search comes with the time at which it is made; the authorization of a purge is `none` when
it is no `ForgetActor`. -/
inductive BackendCall where
  | put (r : MemoryRecord)
  | get (recordId : String) (scope : MemoryScope)
  | search (text : String) (scope : MemoryScope) (types : Option (List MemoryType)) (k : Int)
      (includeSuperseded : Bool) (now : Rat)
  | update (r : MemoryRecord)
  | list (scope : MemoryScope) (since : Option Rat) (limit : Int)
  | purge (recordIds : List String) (scope : MemoryScope) (authorized : Option ForgetActor)

inductive BackendAnswer where
  | recordId (recordId : String)
  | record (found : Option MemoryRecord)
  | hits (hits : List (MemoryRecord × Rat))
  | done
  | records (records : List MemoryRecord)
  | removed (count : Nat)

/-- `InMemoryBackend` -/
def Records.answer (u : Unicode) (d : Records) :
    BackendCall → Except BackendError BackendAnswer × Records
  | .put r => (.ok (.recordId r.id), d.put r)
  | .get recordId scope => (.ok (.record (d.get recordId scope)), d)
  | .search text scope types k includeSuperseded _ =>
    (.ok (.hits (d.search u text scope types (max k 0).toNat includeSuperseded)), d)
  | .update r => if r.id ∈ d then (.ok .done, d.put r) else (.error (.keyError r.id), d)
  | .list scope since limit => (.ok (.records (d.list scope since (max limit 0).toNat)), d)
  | .purge recordIds scope (some _) =>
    (.ok (.removed (d.purge recordIds scope).2), (d.purge recordIds scope).1)
  | .purge _ _ none => (.error .notForgetActor, d)

def settled (store : BaseStore) :
    Except BackendError (BackendAnswer × BaseStore) → Except BackendError BackendAnswer × BaseStore
  | .ok (answer, store') => (.ok answer, store')
  | .error e => (.error e, store)

/-- `LangGraphStoreBackend` -/
def LangGraph.answer (cfg : LangGraphConfig) (u : Unicode) (store : BaseStore) :
    BackendCall → Except BackendError BackendAnswer × BaseStore
  | .put r => settled store do
    let store' ← LangGraph.put cfg store r
    return (.recordId r.id, store')
  | .get recordId scope => settled store do
    let found ← LangGraph.get cfg store recordId scope
    return (.record found, store)
  | .search text scope types k includeSuperseded now => settled store do
    let hits ← LangGraph.search cfg store u text scope types k includeSuperseded now
    return (.hits hits, store)
  | .update r => settled store do
    let store' ← LangGraph.update cfg store r
    return (.done, store')
  | .list scope since limit => settled store do
    let records ← LangGraph.list cfg store scope since limit
    return (.records records, store)
  | .purge recordIds scope authorized => settled store do
    let (store', removed) ← LangGraph.purge cfg store recordIds scope authorized
    return (.removed removed, store')

end Prismal.Memory
