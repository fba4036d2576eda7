import Mathlib.Data.Prod.Lex
import Mathlib.Data.String.Basic
import Prismal.Lib.Lists
import Prismal.Lib.Paging
import Prismal.A2A.TaskStore

namespace Prismal.A2A.TaskStore
open Prismal.Lib Prismal.Lib.Paging
set_option autoImplicit true

def position (r : TaskRecord) : Instant ×ₗ String := toLex (cursor r)

/-- `a` is listed before `b`. -/
def Newer (a b : TaskRecord) : Prop := position b < position a

def tokenAt (c : Instant ×ₗ String) : PageToken := .cursor (ofLex c).1 (ofLex c).2

def puts (limits : StoreLimits) (st : TaskStore) (batch : List TaskRecord) : TaskStore :=
  batch.foldl (put limits) st

/-- A client that follows the tokens, while other requests put the records of a batch before each
page: what it was given, and whether it was given the empty token. -/
def follow (limits : StoreLimits) (orgId : Option String) (params : ListTasksRequest)
    (principal : Option String) : TaskStore → Option PageToken → List (List TaskRecord) →
      Except TaskStoreQueryError (List TaskRecord × Bool)
  | _, _, [] => .ok ([], false)
  | st, token, batch :: later => do
    let now := puts limits st batch
    let (page, next) ← now.list limits orgId { params with pageToken := token } principal
    match next with
    | none => return (page, true)
    | some _ =>
      let (rest, done) ← follow limits orgId params principal now next later
      return (page ++ rest, done)

def NoEviction (limits : StoreLimits) : TaskStore → List TaskRecord → Prop
  | _, [] => True
  | st, r :: batch =>
    (st.refresh r).records.entries.length ≤ limits.maxEntries ∧
      NoEviction limits (st.put limits r) batch

def Untouched (taskId : String) (batches : List (List TaskRecord)) : Prop :=
  ∀ batch ∈ batches, ∀ r ∈ batch, r.taskId ≠ taskId

section Matching

variable {orgId principal : Option String} {params : ListTasksRequest} {after : Option Instant}

theorem cursorLt_eq_true {a b : Instant × String} : cursorLt a b = true ↔ toLex a < toLex b := by
  rw [cursorLt, Prod.Lex.toLex_lt_toLex]
  simp

def passing (orgId principal : Option String) (params : ListTasksRequest) (after : Option Instant)
    (st : TaskStore) : List TaskRecord :=
  (st.records.values.filter (matches? orgId principal params after)).mergeSort
    fun a b => !cursorLt (cursor a) (cursor b)

theorem matching_eq (h : parseAfter params.statusTimestampAfter = .ok after) (st : TaskStore) :
    st.matching orgId params principal = .ok (passing orgId principal params after st) := by
  rw [matching, h]
  rfl

theorem mem_values {st : TaskStore} : r ∈ st.records.values ↔ st.peek r.taskId = some r := by
  rw [Dict.mem_values, peek]
  constructor
  · rintro ⟨id, hid⟩
    rw [st.keyed hid]
    exact hid
  · exact fun h => ⟨_, h⟩

theorem mem_passing {st : TaskStore} : r ∈ passing orgId principal params after st ↔
    st.peek r.taskId = some r ∧ matches? orgId principal params after r = true := by
  rw [passing, List.mem_mergeSort, List.mem_filter, mem_values]

theorem nodup_values (st : TaskStore) : (st.records.values.map TaskRecord.taskId).Nodup := by
  have hkeys : st.records.values.map TaskRecord.taskId = st.records.keys := by
    rw [Dict.values, Dict.keys, List.map_map]
    apply List.map_congr_left
    intro e he
    exact st.keyed (Dict.get?_eq_some.2 he)
  rw [hkeys]
  exact st.records.nodup

theorem passing_perm (st : TaskStore) : (passing orgId principal params after st).Perm
    (st.records.values.filter (matches? orgId principal params after)) :=
  List.mergeSort_perm _ _

theorem passing_distinct (st : TaskStore) :
    ((passing orgId principal params after st).map TaskRecord.taskId).Nodup := by
  have hp : (passing orgId principal params after st).Perm
      (st.records.values.filter (matches? orgId principal params after)) := passing_perm st
  apply (hp.map TaskRecord.taskId).nodup_iff.2
  exact (nodup_values st).sublist (List.Sublist.map _ List.filter_sublist)

theorem taskId_eq_of_position (h : position a = position b) : a.taskId = b.taskId :=
  congrArg (fun c => (ofLex c).2) h

theorem passing_descending (st : TaskStore) :
    Descending position (passing orgId principal params after st) := by
  have hsorted : (passing orgId principal params after st).Pairwise
      fun a b => (!cursorLt (cursor a) (cursor b)) = true := List.pairwise_mergeSort
    (by
      intro a b c hab hbc
      rw [Bool.not_eq_true', ← Bool.not_eq_true, cursorLt_eq_true, not_lt] at *
      exact le_trans hbc hab)
    (by
      intro a b
      rw [Bool.or_eq_true, Bool.not_eq_true', Bool.not_eq_true', ← Bool.not_eq_true,
        ← Bool.not_eq_true, cursorLt_eq_true, cursorLt_eq_true, not_lt, not_lt]
      exact le_total _ _)
    (st.records.values.filter (matches? orgId principal params after))
  have hids : ((passing orgId principal params after st).map TaskRecord.taskId).Nodup :=
    passing_distinct st
  have hdistinct := List.pairwise_map.1 hids
  apply (List.pairwise_and_iff.2 ⟨hsorted, hdistinct⟩).imp
  rintro a b ⟨hle, hne⟩
  rw [Bool.not_eq_true', ← Bool.not_eq_true, cursorLt_eq_true, not_lt] at hle
  apply lt_of_le_of_ne hle
  exact fun he => hne (taskId_eq_of_position he).symm

end Matching

theorem pageSize_pos (limits : StoreLimits) (params : ListTasksRequest) :
    0 < pageSize limits params := by
  have hmax := limits.maxPageSize_pos
  rw [pageSize, lt_min_iff, lt_min_iff]
  refine ⟨?_, hmax, by decide⟩
  cases hf : params.pageSize.filter fun n => decide (0 < n) with
  | none => decide
  | some n => exact of_decide_eq_true (Option.filter_eq_some_iff.1 hf).2

theorem beforeCursor_token (c : Option (Instant ×ₗ String)) (records : List TaskRecord) :
    beforeCursor records (c.map tokenAt) = .ok (below position c records) := by
  cases c with
  | none =>
    rw [below, List.filter_eq_self.2 (by simp)]
    rfl
  | some c =>
    rw [Option.map_some, tokenAt, beforeCursor, below]
    congr 2
    funext r
    rw [Bool.eq_iff_iff, cursorLt_eq_true]
    exact decide_eq_true_iff.symm

def stages (limits : StoreLimits) : TaskStore → List (List TaskRecord) → List TaskStore
  | _, [] => []
  | st, batch :: later => puts limits st batch :: stages limits (puts limits st batch) later

section Following

variable {orgId principal : Option String} {params : ListTasksRequest} {after : Option Instant}

theorem list_token (h : parseAfter params.statusTimestampAfter = .ok after)
    (limits : StoreLimits) (st : TaskStore) (c : Option (Instant ×ₗ String)) :
    st.list limits orgId { params with pageToken := c.map tokenAt } principal =
      let rest := below position c (passing orgId principal params after st)
      .ok (rest.take (pageSize limits params),
        if pageSize limits params < rest.length then
          (rest.take (pageSize limits params)).getLast?.map fun r => tokenAt (position r)
        else none) := by
  have hmatching : st.matching orgId { params with pageToken := c.map tokenAt } principal =
      .ok (passing orgId principal params after st) := matching_eq h st
  rw [list, hmatching]
  simp only [bind, Except.bind]
  rw [beforeCursor_token]
  rfl

theorem follow_eq_walk (orgId principal : Option String)
    (h : parseAfter params.statusTimestampAfter = .ok after)
    (limits : StoreLimits) (st : TaskStore) (c : Option (Instant ×ₗ String))
    (batches : List (List TaskRecord)) :
    follow limits orgId params principal st (c.map tokenAt) batches =
      .ok (walk position (pageSize limits params) c
        ((stages limits st batches).map (passing orgId principal params after))) := by
  induction batches generalizing st c with
  | nil => rfl
  | cons batch later ih =>
    rw [follow, stages, List.map_cons, list_token h]
    rcases walk_cons position (pageSize_pos limits params) c
      (passing orgId principal params after (puts limits st batch))
      ((stages limits (puts limits st batch) later).map (passing orgId principal params after)) with
      ⟨hlen, hw⟩ | ⟨r, hlen, hr, hw⟩
    · rw [hw]
      simp only [bind, Except.bind, if_neg (Nat.not_lt.2 hlen), List.take_of_length_le hlen]
      rfl
    · have hrest := ih (puts limits st batch) (some (position r))
      rw [hw]
      simp only [bind, Except.bind, if_pos hlen, hr, Option.map_some] at hrest ⊢
      rw [hrest]
      rfl

theorem stages_replicate (limits : StoreLimits) (st : TaskStore) (m : Nat) :
    stages limits st (List.replicate m []) = List.replicate m st := by
  induction m with
  | zero => rfl
  | succ m ih =>
    rw [List.replicate_succ, stages, List.replicate_succ]
    exact congrArg _ ih

theorem stages_append (limits : StoreLimits) (st : TaskStore)
    (batches more : List (List TaskRecord)) :
    stages limits st (batches ++ more) =
      stages limits st batches ++ stages limits (puts limits st batches.flatten) more := by
  induction batches generalizing st with
  | nil => rfl
  | cons batch later ih =>
    rw [List.cons_append, stages, ih, stages, List.cons_append, List.flatten_cons, puts,
      puts, puts, List.foldl_append]

end Following

theorem evict_room {st : TaskStore} (h : st.records.entries.length ≤ maxEntries)
    (keys : List String) : evict maxEntries st keys = st := by
  cases keys with
  | nil => rfl
  | cons key keys => rw [evict, if_neg (Nat.not_lt.2 h)]

theorem peek_put_room {st : TaskStore}
    (h : (st.refresh r).records.entries.length ≤ limits.maxEntries)
    (hne : r.taskId ≠ k) : (st.put limits r).peek k = st.peek k := by
  rw [put, evict_room h, peek, refresh, Dict.get?_set_ne _ hne, Dict.get?_erase, if_neg hne]
  rfl

theorem peek_puts {st : TaskStore} (h : NoEviction limits st batch)
    (hne : ∀ r ∈ batch, r.taskId ≠ k) : (puts limits st batch).peek k = st.peek k := by
  induction batch generalizing st with
  | nil => rfl
  | cons r batch ih =>
    obtain ⟨hroom, hrest⟩ := h
    calc (puts limits (st.put limits r) batch).peek k
        = (st.put limits r).peek k := ih hrest fun r' hr' => hne r' (List.mem_cons_of_mem _ hr')
      _ = st.peek k := peek_put_room hroom (hne r List.mem_cons_self)

theorem NoEviction.append {st : TaskStore} (h : NoEviction limits st (batch ++ later)) :
    NoEviction limits st batch ∧ NoEviction limits (puts limits st batch) later := by
  induction batch generalizing st with
  | nil => exact ⟨trivial, h⟩
  | cons r batch ih =>
    obtain ⟨hroom, hrest⟩ := h
    obtain ⟨hb, hl⟩ := ih hrest
    exact ⟨⟨hroom, hb⟩, hl⟩

theorem peek_stages {st : TaskStore} (h : NoEviction limits st batches.flatten)
    (hu : Untouched k batches) : ∀ now ∈ stages limits st batches, now.peek k = st.peek k := by
  induction batches generalizing st with
  | nil =>
    intro now hnow
    cases hnow
  | cons batch later ih =>
    rw [List.flatten_cons] at h
    obtain ⟨hb, hl⟩ := h.append
    have hhead := peek_puts hb fun r hr => hu batch List.mem_cons_self r hr
    intro now hnow
    rcases List.mem_cons.1 hnow with rfl | hnow
    · exact hhead
    · have hlater := ih hl (fun b hmem => hu b (List.mem_cons_of_mem _ hmem)) now hnow
      exact hlater.trans hhead

section Listing

variable {orgId principal : Option String} {params : ListTasksRequest} {after : Option Instant}
  {limits : StoreLimits} {st : TaskStore}

theorem stages_descending (st : TaskStore) (batches : List (List TaskRecord)) :
    ∀ view ∈ (stages limits st batches).map (passing orgId principal params after),
      Descending position view := by
  intro view hview
  obtain ⟨now, -, rfl⟩ := List.mem_map.1 hview
  exact passing_descending now

theorem follow_still (h : parseAfter params.statusTimestampAfter = .ok after)
    (hm : (passing orgId principal params after st).length < m) :
    follow limits orgId params principal st none (List.replicate m []) =
      .ok (passing orgId principal params after st, true) := by
  have hall : below position none (passing orgId principal params after st) =
      passing orgId principal params after st := List.filter_eq_self.2 (by simp)
  have hdescending : Descending position (passing orgId principal params after st) :=
    passing_descending st
  have hpages : (below position none (passing orgId principal params after st)).length < m := by
    rwa [hall]
  have hsame := walk_same (pageSize_pos limits params) hdescending hpages
  have hwalk := follow_eq_walk orgId principal h limits st none
    (List.replicate m [])
  rw [Option.map_none] at hwalk
  rw [hwalk, stages_replicate, List.map_replicate, hsame, hall]

theorem follow_ends (h : parseAfter params.statusTimestampAfter = .ok after)
    (batches : List (List TaskRecord)) : ∃ m whole,
      follow limits orgId params principal st none (batches ++ List.replicate m []) =
        .ok (whole, true) := by
  let last := passing orgId principal params after (puts limits st batches.flatten)
  have hlast : Descending position last := passing_descending _
  have hends : (walk position (pageSize limits params) none
      ((stages limits st batches).map (passing orgId principal params after) ++
        List.replicate last.length.succ last)).2 = true :=
    walk_ends (pageSize_pos limits params) _ hlast (Nat.lt_succ_self _)
  have hwalk := follow_eq_walk orgId principal h limits st none
    (batches ++ List.replicate last.length.succ [])
  rw [stages_append, List.map_append, stages_replicate, List.map_replicate,
    Option.map_none] at hwalk
  refine ⟨last.length.succ, _, hwalk.trans (congrArg Except.ok (Prod.ext rfl hends))⟩

theorem walk_untouched {batches : List (List TaskRecord)}
    (hdone : (walk position (pageSize limits params) none
      ((stages limits st batches).map (passing orgId principal params after))).2 = true)
    (hroom : NoEviction limits st batches.flatten)
    (hr : r ∈ passing orgId principal params after st) (hu : Untouched r.taskId batches) :
    (walk position (pageSize limits params) none
      ((stages limits st batches).map (passing orgId principal params after))).1.filter
        (fun g => decide (g.taskId = r.taskId)) = [r] := by
  have hn := pageSize_pos limits params
  have hviews : ∀ view ∈ (stages limits st batches).map (passing orgId principal params after),
      Descending position view := stages_descending st batches
  obtain ⟨hpeek, hmatch⟩ := mem_passing.1 hr
  have hstays := peek_stages hroom hu
  have heverywhere : ∀ view ∈ (stages limits st batches).map
      (passing orgId principal params after), r ∈ view := by
    intro view hview
    obtain ⟨now, hnow, rfl⟩ := List.mem_map.1 hview
    exact mem_passing.2 ⟨(hstays now hnow).trans hpeek, hmatch⟩
  have hmem := walk_complete hn hviews hdone (by intro c hc; cases hc) heverywhere
  apply filter_eq_singleton (walk_descending hn hviews).nodup hmem
  intro g hg hid
  obtain ⟨-, view, hview, hgv⟩ := walk_sound hn hg
  obtain ⟨now, hnow, rfl⟩ := List.mem_map.1 hview
  have hsame := (mem_passing.1 hgv).1
  rw [hid, hstays now hnow, hpeek] at hsame
  exact (Option.some.inj hsame).symm

end Listing

/-- Following the tokens lists every matching record once, newest first; and, whatever is put
between two pages and whatever the clock says, every record that was not touched once. -/
theorem listing_exact (limits : StoreLimits) (st : TaskStore) (orgId principal : Option String)
    (params : ListTasksRequest) (h : parseAfter params.statusTimestampAfter = .ok after) :
    ∃ records : List TaskRecord,
      (∀ r, r ∈ records ↔ st.peek r.taskId = some r ∧
        matches? orgId principal params after r = true) ∧
      records.Pairwise Newer ∧ (records.map TaskRecord.taskId).Nodup ∧
      (∀ m, records.length < m →
        follow limits orgId params principal st none (List.replicate m []) = .ok (records, true)) ∧
      ∀ batches, ∃ given done,
        follow limits orgId params principal st none batches = .ok (given, done) ∧
        given.Pairwise Newer ∧
        (∃ m whole, follow limits orgId params principal st none (batches ++ List.replicate m []) =
          .ok (whole, true)) ∧
        (done = true → NoEviction limits st batches.flatten →
          ∀ r ∈ records, Untouched r.taskId batches →
            given.filter (fun g => decide (g.taskId = r.taskId)) = [r]) := by
  refine ⟨passing orgId principal params after st, fun r => mem_passing, passing_descending st,
    passing_distinct st, ?_, ?_⟩
  · intro m hm
    exact follow_still h hm
  · intro batches
    have hgiven := follow_eq_walk orgId principal h limits st none batches
    refine ⟨_, _, hgiven, ?_, follow_ends h batches, ?_⟩
    · exact walk_descending (pageSize_pos limits params) (stages_descending st batches)
    · intro hdone hroom r hr hu
      exact walk_untouched hdone hroom hr hu

def plainRecord (taskId : String) (now : Instant) : TaskRecord where
  taskId := taskId
  contextId := "c"
  orgId := none
  principal := none
  state := .working
  createdAt := now
  updatedAt := now

def tied : TaskStore := puts {} {} [plainRecord "t1" 5, plainRecord "t2" 5]

theorem listing_exact_tied : ∃ m given,
    follow {} none { pageSize := some 1 } none tied none
      ([[], [plainRecord "t2" 6]] ++ List.replicate m []) = .ok (given, true) ∧
    given.filter (fun g => decide (g.taskId = "t1")) = [plainRecord "t1" 5] := by
  have hafter : parseAfter ({ pageSize := some 1 } : ListTasksRequest).statusTimestampAfter =
      .ok none := rfl
  obtain ⟨records, hmem, -, -, -, hall⟩ :=
    listing_exact {} tied none none { pageSize := some 1 } hafter
  obtain ⟨-, -, -, -, ⟨m, whole, hwhole⟩, -⟩ := hall [[], [plainRecord "t2" 6]]
  obtain ⟨given, done, hgiven, -, -, huntouched⟩ :=
    hall ([[], [plainRecord "t2" 6]] ++ List.replicate m [])
  have hdone : done = true := by
    rw [hwhole] at hgiven
    cases hgiven
    rfl
  rw [hdone] at hgiven
  have hfound : plainRecord "t1" 5 ∈ records := (hmem _).2 (by decide)
  have hroom : NoEviction {} tied ([[], [plainRecord "t2" 6]] ++ List.replicate m []).flatten := by
    rw [List.flatten_append, List.flatten_replicate_nil]
    refine ⟨?_, trivial⟩
    decide
  have hother : Untouched "t1" ([[], [plainRecord "t2" 6]] ++ List.replicate m []) := by
    intro batch hbatch r hr
    rcases List.mem_append.1 hbatch with hb | hb
    · have hput : ∀ b ∈ [[], [plainRecord "t2" 6]], ∀ r ∈ b, r.taskId ≠ "t1" := by decide
      exact hput batch hb r hr
    · rw [List.eq_of_mem_replicate hb] at hr
      cases hr
  exact ⟨m, given, hgiven, huntouched hdone hroom _ hfound hother⟩

end Prismal.A2A.TaskStore
