import Mathlib.Data.List.Sort
import Prismal.A2A.Types

namespace Prismal.A2A
open Prismal.Lib
set_option autoImplicit true

/-- A registered task, with the scope of the request that produced it. The scope is a ghost: no
operation of the server reads it. -/
structure Signed where
  task : A2ATask
  author : Option Scope

/-- The bounds that the constructor of `InMemoryA2ATaskStore` accepts. -/
structure StoreLimits where
  maxEntries : Nat := 10000
  maxPageSize : Nat := listTasksMaxPageSize
  maxEntries_pos : 0 < maxEntries := by decide
  maxPageSize_pos : 0 < maxPageSize := by decide

/-- `InMemoryA2ATaskStore`: the records, oldest first, and the handler's registry of bodies. -/
structure TaskStore where
  records : Dict String TaskRecord := ∅
  registry : Dict String Signed := ∅
  keyed : ∀ {id r}, records.get? id = some r → r.taskId = id := by intro _ _ h; cases h

/-- `ListTasks` was asked with a malformed token or timestamp. -/
structure TaskStoreQueryError where
  message : String
  deriving DecidableEq, Repr

/-- A page token, decoded: the position of the last record of the page before. -/
inductive PageToken where
  | cursor (updatedAt : Instant) (taskId : String)
  | malformed
  deriving DecidableEq, Repr

inductive Timestamp where
  | at (i : Instant)
  | malformed (raw : String)
  deriving DecidableEq, Repr

structure ListTasksRequest where
  tenant : Option String := none
  contextId : Option String := none
  status : Option TaskState := none
  pageSize : Option Nat := none
  pageToken : Option PageToken := none
  historyLength : Option Int := none
  statusTimestampAfter : Option Timestamp := none
  includeArtifacts : Option Bool := none

namespace TaskStore

def drop (st : TaskStore) (oldest : String) : TaskStore where
  records := st.records.erase oldest
  registry := st.registry.erase oldest
  keyed := by
    intro id r h
    rw [Dict.get?_erase] at h
    split at h
    · cases h
    · exact st.keyed h

def refresh (st : TaskStore) (task : TaskRecord) : TaskStore where
  records := (st.records.erase task.taskId).set task.taskId task
  registry := st.registry
  keyed := by
    intro id r h
    rw [Dict.get?_set, Dict.get?_erase] at h
    split at h
    next he => exact Option.some.inj h ▸ he
    next => exact st.keyed h

/-- Drop the oldest records, and their bodies, while there are more than `maxEntries`. -/
def evict (maxEntries : Nat) (st : TaskStore) : List String → TaskStore
  | [] => st
  | oldest :: later =>
    if maxEntries < st.records.entries.length then evict maxEntries (st.drop oldest) later
    else st

def put (limits : StoreLimits) (st : TaskStore) (task : TaskRecord) : TaskStore :=
  evict limits.maxEntries (st.refresh task) (st.refresh task).records.keys

def get (st : TaskStore) (taskId : String) (orgId : Option String) : Option TaskRecord :=
  (st.records.get? taskId).filter fun r => decide (r.orgId = orgId)

def peek (st : TaskStore) (taskId : String) : Option TaskRecord := st.records.get? taskId

def task (st : TaskStore) (taskId : String) : Option Signed := st.registry.get? taskId

/-- `self._tasks[task_id] = body` -/
def register (st : TaskStore) (taskId : String) (body : Signed) : TaskStore :=
  { st with registry := st.registry.set taskId body }

/-- `None` matches every value. -/
def admits [DecidableEq α] (wanted : Option α) (a : α) : Bool :=
  wanted.all fun w => decide (a = w)

def parseAfter : Option Timestamp → Except TaskStoreQueryError (Option Instant)
  | none => .ok none
  | some (.at i) => .ok (some i)
  | some (.malformed raw) => .error ⟨"invalid timestamp: " ++ raw⟩

/-- The order of `_cursor`: by time, then by task id. -/
def cursorLt (a b : Instant × String) : Bool :=
  decide (a.1 < b.1) || (decide (a.1 = b.1) && decide (a.2 < b.2))

def cursor (r : TaskRecord) : Instant × String := (r.updatedAt, r.taskId)

def matches? (orgId principal : Option String) (params : ListTasksRequest)
    (after : Option Instant) (r : TaskRecord) : Bool :=
  decide (r.orgId = orgId) && (principal.all fun p => decide (r.principal = some p)) &&
    admits params.contextId r.contextId && admits params.status r.state &&
    after.all fun i => decide (i ≤ r.updatedAt)

def matching (st : TaskStore) (orgId : Option String) (params : ListTasksRequest)
    (principal : Option String) : Except TaskStoreQueryError (List TaskRecord) := do
  let after ← parseAfter params.statusTimestampAfter
  let out := st.records.values.filter (matches? orgId principal params after)
  return out.mergeSort fun a b => !cursorLt (cursor a) (cursor b)

def pageSize (limits : StoreLimits) (params : ListTasksRequest) : Nat :=
  let requested := (params.pageSize.filter fun n => decide (0 < n)).getD listTasksDefaultPageSize
  min requested (min limits.maxPageSize listTasksMaxPageSize)

def beforeCursor (records : List TaskRecord) :
    Option PageToken → Except TaskStoreQueryError (List TaskRecord)
  | none => .ok records
  | some .malformed => .error ⟨"invalid page token"⟩
  | some (.cursor i taskId) => .ok (records.filter fun r => cursorLt (cursor r) (i, taskId))

def list (limits : StoreLimits) (st : TaskStore) (orgId : Option String)
    (params : ListTasksRequest) (principal : Option String) :
    Except TaskStoreQueryError (List TaskRecord × Option PageToken) := do
  let found ← st.matching orgId params principal
  let records ← beforeCursor found params.pageToken
  let size := pageSize limits params
  let page := records.take size
  let token := if size < records.length then
      page.getLast?.map fun r => .cursor r.updatedAt r.taskId
    else none
  return (page, token)

def count (st : TaskStore) (orgId : Option String) (params : ListTasksRequest)
    (principal : Option String) : Except TaskStoreQueryError Nat := do
  let found ← st.matching orgId params principal
  return found.length

/-- What `put` may do to a task id other than its own: nothing, or drop it entirely. -/
def Evicts (st st' : TaskStore) (id : String) : Prop :=
  (st'.peek id = st.peek id ∧ st'.task id = st.task id) ∨
    ((st.peek id).isSome ∧ st'.peek id = none ∧ st'.task id = none)

theorem Evicts.refl (st : TaskStore) (id : String) : st.Evicts st id := Or.inl ⟨rfl, rfl⟩

theorem Evicts.peek_some {id : String} (h : Evicts st st' id) (hr : st'.peek id = some r) :
    st.peek id = some r ∧ st'.task id = st.task id := by
  rcases h with ⟨hp, ht⟩ | ⟨-, hp, -⟩
  · exact ⟨hp ▸ hr, ht⟩
  · rw [hp] at hr
    cases hr

theorem peek_drop (st : TaskStore) (oldest id : String) :
    (st.drop oldest).peek id =
      if oldest = id then none else st.peek id := Dict.get?_erase _

theorem task_drop (st : TaskStore) (oldest id : String) :
    (st.drop oldest).task id =
      if oldest = id then none else st.task id := Dict.get?_erase _

theorem evict_evicts (maxEntries : Nat) (st : TaskStore) (keys : List String)
    (h : ∀ k ∈ keys, k ∈ st.records) (hn : keys.Nodup) (id : String) :
    st.Evicts (evict maxEntries st keys) id := by
  induction keys generalizing st with
  | nil => exact Evicts.refl st id
  | cons oldest later ih =>
    rw [List.nodup_cons] at hn
    rw [evict]
    split
    · have hlater : ∀ k ∈ later, k ∈ (st.drop oldest).records := by
        intro k hk
        apply (Dict.mem_erase _).2
        refine ⟨fun he => hn.1 (he ▸ hk), h k (List.mem_cons_of_mem _ hk)⟩
      have hrest := ih (st.drop oldest) hlater hn.2
      by_cases he : oldest = id
      · have hsome : (st.peek id).isSome := by
          obtain ⟨r, hr⟩ := Dict.mem_iff_get?.1 (h oldest List.mem_cons_self)
          rw [peek, ← he, hr]
          rfl
        have hp := peek_drop st oldest id
        have ht := task_drop st oldest id
        rw [if_pos he] at hp ht
        rcases hrest with ⟨h₁, h₂⟩ | ⟨h₁, -, -⟩
        · exact Or.inr ⟨hsome, h₁.trans hp, h₂.trans ht⟩
        · rw [hp] at h₁
          cases h₁
      · have hp := peek_drop st oldest id
        have ht := task_drop st oldest id
        rw [if_neg he] at hp ht
        rcases hrest with ⟨h₁, h₂⟩ | ⟨h₁, h₂, h₃⟩
        · exact Or.inl ⟨h₁.trans hp, h₂.trans ht⟩
        · exact Or.inr ⟨hp ▸ h₁, h₂, h₃⟩
    · exact Evicts.refl st id

theorem evict_newest {maxEntries : Nat} {id : String} (hm : 0 < maxEntries) (st : TaskStore)
    (keys : List String) (h : st.records.keys = keys ++ [id]) :
    (evict maxEntries st (keys ++ [id])).peek id = st.peek id ∧
      (evict maxEntries st (keys ++ [id])).task id = st.task id := by
  induction keys generalizing st with
  | nil =>
    have hlen : st.records.entries.length = 1 := by
      have hl := congrArg List.length h
      rwa [Dict.keys, List.length_map] at hl
    rw [List.nil_append, evict, if_neg (by omega)]
    exact ⟨rfl, rfl⟩
  | cons oldest later ih =>
    rw [List.cons_append, evict]
    split
    · have hk : (st.drop oldest).records.keys = later ++ [id] := Dict.keys_erase_oldest h
      have hne : oldest ≠ id := by
        have hnd : (oldest :: (later ++ [id])).Nodup := by
          have hd := st.records.nodup
          rw [← List.cons_append, ← h]
          exact hd
        rw [List.nodup_cons] at hnd
        intro he
        apply hnd.1
        rw [he]
        exact List.mem_append_right _ (List.mem_singleton.2 rfl)
      obtain ⟨h₁, h₂⟩ := ih (st.drop oldest) hk
      have hp := peek_drop st oldest id
      have ht := task_drop st oldest id
      rw [if_neg hne] at hp ht
      exact ⟨h₁.trans hp, h₂.trans ht⟩
    · exact ⟨rfl, rfl⟩

theorem keys_refresh (st : TaskStore) (r : TaskRecord) :
    (st.refresh r).records.keys =
      (st.records.erase r.taskId).keys ++ [r.taskId] :=
  Dict.keys_set_new fun h => ((Dict.mem_erase _).1 h).1 rfl

theorem put_self (limits : StoreLimits) (st : TaskStore) (r : TaskRecord) :
    (st.put limits r).peek r.taskId = some r ∧ (st.put limits r).task r.taskId = st.task r.taskId := by
  have hk := keys_refresh st r
  have h := evict_newest limits.maxEntries_pos (st.refresh r) _ hk
  rw [← hk] at h
  exact ⟨h.1.trans (Dict.get?_set_self _ _ _), h.2⟩

theorem peek_put_self {id : String} (limits : StoreLimits) (st : TaskStore) {r : TaskRecord}
    (h : r.taskId = id) :
    (st.put limits r).peek id = some r := h ▸ (put_self limits st r).1

theorem task_put_self {id : String} (limits : StoreLimits) (st : TaskStore) {r : TaskRecord}
    (h : r.taskId = id) :
    (st.put limits r).task id = st.task id := h ▸ (put_self limits st r).2

theorem put_evicts {id : String} (limits : StoreLimits) (st : TaskStore) {r : TaskRecord}
    (h : r.taskId ≠ id) :
    st.Evicts (st.put limits r) id := by
  have hrec : (st.refresh r).peek id = st.peek id := by
    rw [peek, refresh, Dict.get?_set_ne _ h, Dict.get?_erase, if_neg h]
    rfl
  have he := evict_evicts limits.maxEntries (st.refresh r) _ (fun _ hk => hk)
    (st.refresh r).records.nodup id
  rw [Evicts, hrec] at he
  exact he

theorem taskId_of_peek {id : String} {st : TaskStore} (h : st.peek id = some r) : r.taskId = id :=
  st.keyed h

@[simp] theorem peek_register (st : TaskStore) (k : String) (b : Signed) (id : String) :
    (st.register k b).peek id = st.peek id := rfl

theorem task_register (st : TaskStore) (k : String) (b : Signed) (id : String) :
    (st.register k b).task id = if k = id then some b else st.task id := Dict.get?_set _

theorem get_eq_some {id : String} {st : TaskStore} :
    st.get id org = some r ↔ st.peek id = some r ∧ r.orgId = org := by
  rw [get, peek, Option.filter_eq_some_iff, decide_eq_true_eq]

end TaskStore

end Prismal.A2A
