import Prismal.Lib.Json
import Prismal.Lib.Run

namespace Prismal.Routing
open Prismal.Lib Prismal.Lib.Json
set_option autoImplicit true

/-! The plan cache and its two stores: a dictionary that drops what was used least recently, and a
table of SQLite. -/

structure PlanCacheKey where
  intent : String
  canonicalTarget : String
  orgId : String
  toolScopeHash : String
  promptVersion : String
  userScope : String := ""
  deriving DecidableEq, Repr

/-- A planner output that is safe to write as JSON. -/
structure CachedPlan where
  key : PlanCacheKey
  plan : Tree
  createdAt : Rat
  hits : Int := 0

/-- The filters of `invalidate`; `none` is any. -/
structure PurgeFilter where
  orgId : Option String := none
  toolScopeHash : Option String := none
  promptVersion : Option String := none

/-- `_matches` -/
def PurgeFilter.«matches» (f : PurgeFilter) (key : PlanCacheKey) : Bool :=
  f.orgId.all (key.orgId == ·) && f.toolScopeHash.all (key.toolScopeHash == ·) &&
    f.promptVersion.all (key.promptVersion == ·)

inductive PlanCacheOp where
  | get (key : PlanCacheKey) (now : Rat)
  | put (plan : CachedPlan) (ttlS : Int) (now : Rat)
  | evict (key : PlanCacheKey)
  | invalidate (filter : PurgeFilter)

/-- What a caller sees: a result, or the error of a number that SQLite cannot hold. -/
inductive PlanAnswer where
  | plan (found : Option CachedPlan)
  | stored
  | evicted (existed : Bool)
  | purged (count : Nat)
  | overflow

/-- `InMemoryPlanCacheBackend` -/
structure InMemory where
  maxEntries : Nat
  data : Dict PlanCacheKey (CachedPlan × Rat) := ∅

namespace InMemory

/-- A new store: `max(1, max_entries)` -/
def new (maxEntries : Int) : InMemory := ⟨(max 1 maxEntries).toNat, ∅⟩

def get (m : InMemory) (key : PlanCacheKey) (now : Rat) : Option CachedPlan × InMemory :=
  match m.data.get? key with
  | none => (none, m)
  | some (cached, expiresAt) =>
    if expiresAt < now then (none, { m with data := m.data.erase key })
    else
      let cached := { cached with hits := cached.hits + 1 }
      (some cached, { m with data := m.data.push key (cached, expiresAt) })

def put (m : InMemory) (plan : CachedPlan) (ttlS : Int) (now : Rat) : InMemory :=
  { m with data := (m.data.push plan.key (plan, now + ttlS)).trim m.maxEntries }

def evict (m : InMemory) (key : PlanCacheKey) : Bool × InMemory :=
  (decide (key ∈ m.data), { m with data := m.data.erase key })

def invalidate (m : InMemory) (f : PurgeFilter) : Nat × InMemory :=
  ((m.data.restrict f.«matches»).entries.length,
    { m with data := m.data.restrict fun key => !f.«matches» key })

def step (m : InMemory) : PlanCacheOp → PlanAnswer × InMemory
  | .get key now => (.plan (m.get key now).1, (m.get key now).2)
  | .put plan ttlS now => (.stored, m.put plan ttlS now)
  | .evict key => (.evicted (m.evict key).1, (m.evict key).2)
  | .invalidate f => (.purged (m.invalidate f).1, (m.invalidate f).2)

end InMemory

/-- A row of the table `plan_cache`. The plan is stored as its JSON text. -/
structure Row where
  intent : String
  canonicalTarget : String
  orgId : String
  toolScopeHash : String
  promptVersion : String
  userScope : String
  plan : Tree
  createdAt : Rat
  expiresAt : Rat
  hits : Int

/-- `PRIMARY KEY (intent, canonical_target, org_id, tool_scope_hash, prompt_version, user_scope)` -/
def Row.primary (r : Row) : PlanCacheKey :=
  ⟨r.intent, r.canonicalTarget, r.orgId, r.toolScopeHash, r.promptVersion, r.userScope⟩

structure PlanTable where
  rows : List Row
  unique : (rows.map Row.primary).Nodup

/-- `_KEY_WHERE` with `_key_params` -/
def keyWhere (key : PlanCacheKey) (r : Row) : Bool :=
  r.intent == key.intent && r.canonicalTarget == key.canonicalTarget && r.orgId == key.orgId &&
    r.toolScopeHash == key.toolScopeHash && r.promptVersion == key.promptVersion &&
    r.userScope == key.userScope

namespace PlanTable

def empty : PlanTable := ⟨[], List.nodup_nil⟩

/-- `SELECT … WHERE`, the first row. -/
def select (t : PlanTable) (p : Row → Bool) : Option Row := t.rows.find? p

/-- `DELETE … WHERE`, with the number of rows it deletes. -/
def delete (t : PlanTable) (p : Row → Bool) : Nat × PlanTable :=
  ((t.rows.filter p).length,
    ⟨t.rows.filter fun r => !p r, t.unique.sublist (List.filter_sublist.map _)⟩)

/-- `UPDATE … SET hits = ? WHERE` -/
def setHits (t : PlanTable) (p : Row → Bool) (hits : Int) : PlanTable where
  rows := t.rows.map fun r => if p r then { r with hits := hits } else r
  unique := by
    have hprimary : ∀ r : Row, (if p r then { r with hits := hits } else r).primary = r.primary := by
      intro r
      split <;> rfl
    rw [List.map_map]
    exact List.map_congr_left (fun r _ => hprimary r) ▸ t.unique

/-- `INSERT OR REPLACE` -/
def insertOrReplace (t : PlanTable) (row : Row) : PlanTable where
  rows := t.rows.filter (fun r => !decide (r.primary = row.primary)) ++ [row]
  unique := by
    rw [List.map_append, List.map_singleton]
    apply List.Nodup.append (t.unique.sublist (List.filter_sublist.map _)) (List.nodup_singleton _)
    rw [List.disjoint_singleton]
    intro hmem
    obtain ⟨r, hr, hrow⟩ := List.mem_map.1 hmem
    simp [List.mem_filter, hrow] at hr

end PlanTable

def fits (n : Int) : Bool := decide (-2 ^ 63 ≤ n ∧ n < 2 ^ 63)

def rowOf (plan : CachedPlan) (expiresAt : Rat) : Row where
  intent := plan.key.intent
  canonicalTarget := plan.key.canonicalTarget
  orgId := plan.key.orgId
  toolScopeHash := plan.key.toolScopeHash
  promptVersion := plan.key.promptVersion
  userScope := plan.key.userScope
  plan := canon plan.plan
  createdAt := plan.createdAt
  expiresAt := expiresAt
  hits := plan.hits

def clauses (f : PurgeFilter) : List (Row → Bool) :=
  [(Row.orgId, f.orgId), (Row.toolScopeHash, f.toolScopeHash),
    (Row.promptVersion, f.promptVersion)].filterMap fun (column, value) =>
      value.map fun value r => column r == value

/-- `SqlitePlanCacheBackend` -/
structure Sqlite where
  table : PlanTable := PlanTable.empty

namespace Sqlite

def get (s : Sqlite) (key : PlanCacheKey) (now : Rat) : PlanAnswer × Sqlite :=
  match s.table.select (keyWhere key) with
  | none => (.plan none, s)
  | some row =>
    if row.expiresAt < now then (.plan none, ⟨(s.table.delete (keyWhere key)).2⟩)
    else
      let hits := row.hits + 1
      if fits hits then
        (.plan (some ⟨key, row.plan, row.createdAt, hits⟩),
          ⟨s.table.setHits (keyWhere key) hits⟩)
      else (.overflow, s)

def put (s : Sqlite) (plan : CachedPlan) (ttlS : Int) (now : Rat) : PlanAnswer × Sqlite :=
  if fits plan.hits then (.stored, ⟨s.table.insertOrReplace (rowOf plan (now + ttlS))⟩)
  else (.overflow, s)

def evict (s : Sqlite) (key : PlanCacheKey) : Bool × Sqlite :=
  let (rowcount, table) := s.table.delete (keyWhere key)
  (decide (0 < rowcount), ⟨table⟩)

def invalidate (s : Sqlite) (f : PurgeFilter) : Nat × Sqlite :=
  let (rowcount, table) := s.table.delete fun r => (clauses f).all fun clause => clause r
  (rowcount, ⟨table⟩)

def step (s : Sqlite) : PlanCacheOp → PlanAnswer × Sqlite
  | .get key now => s.get key now
  | .put plan ttlS now => s.put plan ttlS now
  | .evict key => (.evicted (s.evict key).1, (s.evict key).2)
  | .invalidate f => (.purged (s.invalidate f).1, (s.invalidate f).2)

end Sqlite

def answers (step : σ → PlanCacheOp → PlanAnswer × σ) : σ → List PlanCacheOp → List PlanAnswer
  | _, [] => []
  | s, op :: rest => (step s op).1 :: answers step (step s op).2 rest

def PlanAnswer.canon : PlanAnswer → PlanAnswer
  | .plan found => .plan (found.map fun p => { p with plan := Json.canon p.plan })
  | a => a

theorem keyWhere_eq (key : PlanCacheKey) (r : Row) : keyWhere key r = decide (r.primary = key) := by
  rw [Bool.eq_iff_iff, decide_eq_true_eq, keyWhere, Row.primary, PlanCacheKey.mk.injEq]
  simp only [Bool.and_eq_true, beq_iff_eq, and_assoc]

theorem primary_rowOf (plan : CachedPlan) (expiresAt : Rat) :
    (rowOf plan expiresAt).primary = plan.key := rfl

theorem clauses_all (f : PurgeFilter) (r : Row) :
    ((clauses f).all fun clause => clause r) = f.«matches» r.primary := by
  obtain ⟨org, scope, version⟩ := f
  cases org <;> cases scope <;> cases version <;>
    simp [clauses, PurgeFilter.«matches», Row.primary, Bool.and_assoc]

namespace PlanTable

def dict (t : PlanTable) : Dict PlanCacheKey Row :=
  ⟨t.rows.map fun r => (r.primary, r), by
    rw [List.map_map]
    exact t.unique⟩

theorem select_key (t : PlanTable) (key : PlanCacheKey) :
    t.select (keyWhere key) = t.dict.get? key := by
  obtain ⟨rows, unique⟩ := t
  change rows.find? (keyWhere key) = Dict.lookup key (rows.map fun r => (r.primary, r))
  clear unique
  induction rows with
  | nil => rfl
  | cons r rows ih =>
    rw [List.find?_cons, List.map_cons, Dict.lookup, keyWhere_eq, ih]
    by_cases h : r.primary = key
    · rw [if_pos h, decide_eq_true h]
    · rw [if_neg h, decide_eq_false h]

theorem delete_snd (t : PlanTable) {p : Row → Bool} {q : PlanCacheKey → Bool}
    (h : ∀ r, p r = q r.primary) : (t.delete p).2.dict = t.dict.restrict fun key => !q key := by
  obtain rfl : p = fun r => q r.primary := funext h
  simp only [delete, dict, Dict.restrict, Dict.filter, List.filter_map]
  rfl

theorem delete_fst (t : PlanTable) {p : Row → Bool} {q : PlanCacheKey → Bool}
    (h : ∀ r, p r = q r.primary) : (t.delete p).1 = (t.dict.restrict q).entries.length := by
  obtain rfl : p = fun r => q r.primary := funext h
  simp only [delete, dict, Dict.restrict, Dict.filter, List.filter_map, List.length_map]
  rfl

theorem get?_setHits (t : PlanTable) (key : PlanCacheKey) (hits : Int) (j : PlanCacheKey) :
    (t.setHits (keyWhere key) hits).dict.get? j =
      (t.dict.get? j).map fun r => if j = key then { r with hits := hits } else r := by
  have hdict : (t.setHits (keyWhere key) hits).dict =
      t.dict.mapEntries fun k r => if k = key then { r with hits := hits } else r := by
    obtain ⟨rows, unique⟩ := t
    simp only [setHits, dict, Dict.mapEntries, Dict.mk.injEq, List.map_map, keyWhere_eq,
      decide_eq_true_eq]
    apply List.map_congr_left
    intro r _
    simp only [Function.comp_apply]
    split <;> rfl
  rw [hdict, Dict.get?_mapEntries]

theorem dict_insertOrReplace (t : PlanTable) (row : Row) :
    (t.insertOrReplace row).dict = t.dict.push row.primary row := by
  have hentries : (t.insertOrReplace row).dict.entries = (t.dict.push row.primary row).entries := by
    obtain ⟨rows, unique⟩ := t
    rw [Dict.entries_push]
    simp only [insertOrReplace, dict, Dict.erase, Dict.filter, List.filter_map, List.map_append,
      List.map_singleton]
    rfl
  generalize t.dict.push row.primary row = d at hentries
  obtain ⟨entries, nodup⟩ := d
  simp only [dict, Dict.mk.injEq] at hentries ⊢
  exact hentries

end PlanTable

/-- The table holds a row for every entry of the dictionary, and no other. -/
structure Mirrors (m : InMemory) (s : Sqlite) : Prop where
  row : ∀ key, s.table.dict.get? key = (m.data.get? key).map fun e => rowOf e.1 e.2
  own : ∀ key e, m.data.get? key = some e → e.1.key = key

def UnderCapacity (m : InMemory) : PlanCacheOp → List PlanCacheOp → Prop
  | .put plan ttlS now, _ =>
    (m.data.push plan.key (plan, now + ttlS)).entries.length ≤ m.maxEntries
  | _, _ => True

def HitsFit (m : InMemory) : PlanCacheOp → List PlanCacheOp → Prop
  | .put plan _ _, _ => fits plan.hits = true
  | .get key now, _ => ∀ e, m.data.get? key = some e → ¬ e.2 < now → fits (e.1.hits + 1) = true
  | _, _ => True

theorem mirrors_new (maxEntries : Int) : Mirrors (InMemory.new maxEntries) {} where
  row _ := rfl
  own _ _ h := nomatch h

theorem Mirrors.mem_iff (h : Mirrors m s) (key : PlanCacheKey) :
    key ∈ s.table.dict ↔ key ∈ m.data := by
  rw [Dict.mem_iff_get?, Dict.mem_iff_get?, h.row]
  simp only [Option.map_eq_some_iff]
  constructor
  · rintro ⟨_, e, he, -⟩
    exact ⟨e, he⟩
  · rintro ⟨e, he⟩
    exact ⟨_, e, he, rfl⟩

theorem Mirrors.restrict (h : Mirrors m s) {p : Row → Bool} {q : PlanCacheKey → Bool}
    (hp : ∀ r, p r = q r.primary) :
    Mirrors { m with data := m.data.restrict fun key => !q key } ⟨(s.table.delete p).2⟩ where
  row key := by
    rw [PlanTable.delete_snd s.table hp, Dict.get?_restrict, Dict.get?_restrict, h.row]
    split <;> rfl
  own key e he := by
    rw [Dict.get?_restrict] at he
    split at he
    · exact h.own key e he
    · cases he

theorem Mirrors.count (h : Mirrors m s) {p : Row → Bool} {q : PlanCacheKey → Bool}
    (hp : ∀ r, p r = q r.primary) :
    (s.table.delete p).1 = (m.data.restrict q).entries.length := by
  rw [PlanTable.delete_fst s.table hp]
  apply Dict.length_eq_of_mem_iff
  intro key
  rw [Dict.mem_restrict, Dict.mem_restrict, h.mem_iff]

theorem Mirrors.push (h : Mirrors m s) (plan : CachedPlan) (expiresAt : Rat) :
    Mirrors { m with data := m.data.push plan.key (plan, expiresAt) }
      ⟨s.table.insertOrReplace (rowOf plan expiresAt)⟩ where
  row key := by
    rw [PlanTable.dict_insertOrReplace, Dict.get?_push, Dict.get?_push, primary_rowOf, h.row]
    split <;> rfl
  own key e he := by
    rw [Dict.get?_push] at he
    split at he
    · next hk =>
      cases he
      exact hk
    · exact h.own key e he

theorem Mirrors.erase (h : Mirrors m s) (key : PlanCacheKey) :
    Mirrors { m with data := m.data.erase key } ⟨(s.table.delete (keyWhere key)).2⟩ :=
  h.restrict (q := fun k => decide (k = key)) (keyWhere_eq key)

theorem Mirrors.evicted (h : Mirrors m s) (key : PlanCacheKey) :
    0 < (s.table.delete (keyWhere key)).1 ↔ key ∈ m.data := by
  rw [h.count (q := fun k => decide (k = key)) (keyWhere_eq key), Dict.length_pos_iff]
  simp only [Dict.mem_restrict, decide_eq_true_eq]
  constructor
  · rintro ⟨k, rfl, hk⟩
    exact hk
  · intro hk
    exact ⟨key, rfl, hk⟩

theorem Mirrors.get (h : Mirrors m s) (hfit : HitsFit m (.get key now) rest) :
    (PlanAnswer.plan (m.get key now).1).canon = (s.get key now).1.canon ∧
      Mirrors (m.get key now).2 (s.get key now).2 := by
  rw [InMemory.get, Sqlite.get, PlanTable.select_key, h.row]
  cases he : m.data.get? key with
  | none => exact ⟨rfl, h⟩
  | some e =>
    obtain ⟨plan, expiresAt⟩ := e
    simp only [Option.map_some]
    by_cases hexp : expiresAt < now
    · rw [if_pos hexp, if_pos (show (rowOf plan expiresAt).expiresAt < now from hexp)]
      exact ⟨rfl, h.erase key⟩
    · have hkey : plan.key = key := h.own key _ he
      have hits : fits ((rowOf plan expiresAt).hits + 1) = true := hfit _ he hexp
      rw [if_neg hexp, if_neg (show ¬ (rowOf plan expiresAt).expiresAt < now from hexp),
        if_pos hits]
      refine ⟨?_, ?_, ?_⟩
      · subst hkey
        simp only [PlanAnswer.canon, Option.map_some, rowOf, canon_canon]
      · intro j
        rw [PlanTable.get?_setHits, h.row, Dict.get?_push]
        by_cases hj : key = j
        · subst hj
          rw [if_pos rfl, he]
          simp [rowOf]
        · rw [if_neg hj]
          cases m.data.get? j with
          | none => rfl
          | some e => simp [Ne.symm hj]
      · intro j e hj
        rw [Dict.get?_push] at hj
        split at hj
        · next hk =>
          cases hj
          exact hkey.trans hk
        · exact h.own j e hj

theorem Mirrors.step (h : Mirrors m s) (hcap : UnderCapacity m op rest)
    (hfit : HitsFit m op rest) :
    (m.step op).1.canon = (s.step op).1.canon ∧ Mirrors (m.step op).2 (s.step op).2 := by
  cases op with
  | get key now => exact h.get hfit
  | put plan ttlS now =>
    have hits : fits plan.hits = true := hfit
    rw [InMemory.step, InMemory.put, Dict.trim_of_le hcap, Sqlite.step, Sqlite.put, if_pos hits]
    exact ⟨rfl, h.push plan _⟩
  | evict key =>
    refine ⟨?_, h.erase key⟩
    simp only [InMemory.step, InMemory.evict, Sqlite.step, Sqlite.evict, h.evicted key]
  | invalidate f =>
    refine ⟨?_, h.restrict (clauses_all f)⟩
    simp only [InMemory.step, InMemory.invalidate, Sqlite.step, Sqlite.invalidate,
      h.count (clauses_all f)]

theorem Mirrors.answers (h : Mirrors m s)
    (hcap : Run.Along (fun m op => (InMemory.step m op).2) UnderCapacity m ops)
    (hfit : Run.Along (fun m op => (InMemory.step m op).2) HitsFit m ops) :
    (answers InMemory.step m ops).map PlanAnswer.canon =
      (answers Sqlite.step s ops).map PlanAnswer.canon := by
  induction ops generalizing m s with
  | nil => rfl
  | cons op rest ih =>
    obtain ⟨hanswer, hnext⟩ := h.step hcap.1 hfit.1
    rw [Routing.answers, Routing.answers, List.map_cons, List.map_cons, hanswer,
      ih hnext hcap.2 hfit.2]

def PutUnder (ops : List PlanCacheOp) (key : PlanCacheKey) (tree : Tree) (createdAt : Rat) : Prop :=
  ∃ plan ttlS now, PlanCacheOp.put plan ttlS now ∈ ops ∧ plan.key = key ∧
    canon plan.plan = canon tree ∧ plan.createdAt = createdAt

def Holds (ops : List PlanCacheOp) (held : PlanCacheKey → Option (Tree × Rat)) : Prop :=
  ∀ key e, held key = some e → PutUnder ops key e.1 e.2

def InMemory.held (m : InMemory) (key : PlanCacheKey) : Option (Tree × Rat) :=
  (m.data.get? key).map fun e => (e.1.plan, e.1.createdAt)

def Sqlite.held (s : Sqlite) (key : PlanCacheKey) : Option (Tree × Rat) :=
  (s.table.dict.get? key).map fun r => (r.plan, r.createdAt)

theorem holds_none (h : held = fun _ => none) : Holds ops held := by
  intro key e he
  rw [h] at he
  cases he

theorem Holds.mono {held' : PlanCacheKey → Option (Tree × Rat)} (h : Holds ops held)
    (hle : ∀ key e, held' key = some e → held key = some e) : Holds ops held' :=
  fun key e he => h key e (hle key e he)

theorem Holds.put {held' : PlanCacheKey → Option (Tree × Rat)} (h : Holds ops held)
    (hop : PlanCacheOp.put plan ttlS now ∈ ops) (hcanon : canon plan.plan = canon tree)
    (hle : ∀ key e, held' key = some e →
      (plan.key = key ∧ e = (tree, plan.createdAt)) ∨ held key = some e) : Holds ops held' := by
  intro key e he
  rcases hle key e he with ⟨hk, rfl⟩ | hold
  · exact ⟨plan, ttlS, now, hop, hk, hcanon, rfl⟩
  · exact h key e hold

theorem InMemory.holds_step {m : InMemory} (h : Holds ops m.held) (hop : op ∈ ops) :
    Holds ops (m.step op).2.held := by
  cases op with
  | get key now =>
    apply h.mono
    intro k e he
    rw [step, get] at he
    split at he
    · exact he
    · next cached expiresAt hfound =>
      split at he
      · rw [held, Dict.get?_erase] at he
        split at he
        · cases he
        · exact he
      · rw [held, Dict.get?_push] at he
        split at he
        · next hk =>
          rw [held, ← hk, hfound]
          exact he
        · exact he
  | put plan ttlS now =>
    apply h.put hop rfl
    intro key e he
    simp only [held, step, InMemory.put, Option.map_eq_some_iff] at he
    obtain ⟨e', he', rfl⟩ := he
    have hpush := Dict.get?_of_trim he'
    rw [Dict.get?_push] at hpush
    split at hpush
    · next hk =>
      cases hpush
      exact Or.inl ⟨hk, rfl⟩
    · exact Or.inr (Option.map_eq_some_iff.2 ⟨e', hpush, rfl⟩)
  | evict key =>
    apply h.mono
    intro k e he
    simp only [held, step, evict, Dict.get?_erase, Option.map_eq_some_iff] at he ⊢
    grind
  | invalidate f =>
    apply h.mono
    intro k e he
    simp only [held, step, invalidate, Dict.get?_restrict, Option.map_eq_some_iff] at he ⊢
    grind

theorem Sqlite.holds_delete {s : Sqlite} (h : Holds ops s.held) {p : Row → Bool}
    {q : PlanCacheKey → Bool} (hp : ∀ r, p r = q r.primary) :
    Holds ops (⟨(s.table.delete p).2⟩ : Sqlite).held := by
  apply h.mono
  intro k e he
  rw [held, PlanTable.delete_snd _ hp, Dict.get?_restrict] at he
  split at he
  · exact he
  · cases he

theorem Sqlite.holds_step {s : Sqlite} (h : Holds ops s.held) (hop : op ∈ ops) :
    Holds ops (s.step op).2.held := by
  cases op with
  | get key now =>
    rw [step, get]
    split
    · exact h
    · split
      · exact holds_delete (q := fun k => decide (k = key)) h (keyWhere_eq key)
      · dsimp only
        split
        · apply h.mono
          intro k e he
          rw [held, PlanTable.get?_setHits, Option.map_map] at he
          rw [held, ← he]
          congr 1
          funext r
          simp only [Function.comp_apply]
          split <;> rfl
        · exact h
  | put plan ttlS now =>
    rw [step, put]
    split
    · apply h.put hop (canon_canon plan.plan).symm
      intro key e he
      rw [held, PlanTable.dict_insertOrReplace, Dict.get?_push] at he
      split at he
      · next hk =>
        cases he
        exact Or.inl ⟨hk, rfl⟩
      · exact Or.inr he
    · exact h
  | evict key => exact holds_delete (q := fun k => decide (k = key)) h (keyWhere_eq key)
  | invalidate f => exact holds_delete h (clauses_all f)

theorem InMemory.held_of_get {m : InMemory} (h : (m.get key now).1 = some p) :
    m.held key = some (p.plan, p.createdAt) := by
  rw [get] at h
  split at h
  · cases h
  · next cached expiresAt hfound =>
    split at h
    · cases h
    · cases h
      rw [held, hfound]
      rfl

theorem Sqlite.held_of_get {s : Sqlite} (h : (s.get key now).1 = .plan (some p)) :
    s.held key = some (p.plan, p.createdAt) := by
  rw [get, PlanTable.select_key] at h
  split at h
  · cases h
  · next row hfound =>
    split at h
    · cases h
    · dsimp only at h
      split at h
      · cases h
        rw [held, hfound]
        rfl
      · cases h

theorem holds_final {step : σ → PlanCacheOp → PlanAnswer × σ}
    {held : σ → PlanCacheKey → Option (Tree × Rat)}
    (hstep : ∀ s op, Holds ops (held s) → op ∈ ops → Holds ops (held (step s op).2))
    (h : Holds ops (held s)) (hsub : later ⊆ ops) :
    Holds ops (held (Run.final (fun s op => (step s op).2) s later)) := by
  induction later generalizing s with
  | nil => exact h
  | cons op later ih =>
    obtain ⟨hop, hlater⟩ := List.cons_subset.1 hsub
    exact ih (hstep s op h hop) hlater

/-- As long as the dictionary has room and the hits are integers of SQLite, the two stores give the
same answers; and what either finds was always put under the very key that is looked up. -/
theorem plan_caches_agree (maxEntries : Int) (ops : List PlanCacheOp) :
    (Run.Along (fun m op => (InMemory.step m op).2) UnderCapacity (InMemory.new maxEntries) ops →
      Run.Along (fun m op => (InMemory.step m op).2) HitsFit (InMemory.new maxEntries) ops →
      (answers InMemory.step (InMemory.new maxEntries) ops).map PlanAnswer.canon =
        (answers Sqlite.step {} ops).map PlanAnswer.canon) ∧
    (∀ key now p, ((Run.final (fun m op => (InMemory.step m op).2) (InMemory.new maxEntries)
      ops).get key now).1 = some p → PutUnder ops key p.plan p.createdAt) ∧
    ∀ key now p, ((Run.final (fun s op => (Sqlite.step s op).2) {} ops).get key now).1 =
      .plan (some p) → PutUnder ops key p.plan p.createdAt := by
  refine ⟨fun hcap hfit => (mirrors_new maxEntries).answers hcap hfit, ?_, ?_⟩
  · intro key now p hp
    exact holds_final (fun _ _ => InMemory.holds_step) (holds_none rfl)
      (List.Subset.refl ops) key _ (InMemory.held_of_get hp)
  · intro key now p hp
    exact holds_final (fun _ _ => Sqlite.holds_step) (holds_none rfl)
      (List.Subset.refl ops) key _ (Sqlite.held_of_get hp)

def planKey : PlanCacheKey := ⟨"report", "goal=sales", "acme", "tools", "planner.v1", "ann"⟩

def planCalls : List PlanCacheOp :=
  [.put ⟨planKey, .obj [("goal", .str "sales")], 0, 0⟩ 10 0, .get planKey 10,
    .invalidate { orgId := some "acme" }, .evict planKey]

theorem planCalls_agree :
    (answers InMemory.step (InMemory.new 1) planCalls).map PlanAnswer.canon =
      (answers Sqlite.step {} planCalls).map PlanAnswer.canon :=
  (plan_caches_agree 1 planCalls).1
    ⟨Nat.le_refl 1, trivial, trivial, trivial, trivial⟩
    ⟨rfl, fun e he _ => by cases he; rfl, trivial, trivial, trivial⟩

/-- A hit count that SQLite cannot hold is kept by the dictionary and refused by the table. -/
theorem hits_overflow : ¬ ∀ (maxEntries : Int) (ops : List PlanCacheOp),
    Run.Along (fun m op => (InMemory.step m op).2) UnderCapacity (InMemory.new maxEntries) ops →
      (answers InMemory.step (InMemory.new maxEntries) ops).map PlanAnswer.canon =
        (answers Sqlite.step {} ops).map PlanAnswer.canon := by
  intro h
  have hput := h 1 [.put ⟨planKey, .null, 0, 2 ^ 63⟩ 10 0]
    ⟨Nat.le_refl 1, trivial⟩
  exact nomatch hput

end Prismal.Routing
