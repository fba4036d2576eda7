import Prismal.Lib.State
import Prismal.Lib.Lists
import Prismal.Routing.BatchExecutor

namespace Prismal.Routing
open Prismal.Lib Prismal.Budget Prismal.Providers
set_option autoImplicit true

/-! Every request is answered once, runs once and is metered once. -/

variable {st : ExecutorSettings} {env : Surroundings} {call : BatchCall}

def deferred (st : ExecutorSettings) (env : Surroundings) (call : BatchCall)
    (r : BatchRequest) : Option (BatchRequest × String) :=
  match placement st env call r with
  | .error reason => some (r, reason)
  | .ok _ => none

def joins (st : ExecutorSettings) (env : Surroundings) (call : BatchCall) (family : String)
    (r : BatchRequest) : Bool :=
  match placement st env call r with
  | .error _ => false
  | .ok f => decide (f = family)

/-- The plan of the requests that have been placed so far. -/
structure Planned (st : ExecutorSettings) (env : Surroundings) (call : BatchCall)
    (done : List BatchRequest) (plan : Plan) : Prop where
  toSync : plan.toSync = done.filterMap (deferred st env call)
  group : ∀ family, (plan.groups.get? family).getD [] = done.filter (joins st env call family)

theorem planned_nil : Planned st env call [] {} := ⟨rfl, fun _ => rfl⟩

theorem Planned.place (h : Planned st env call done plan) (r : BatchRequest) :
    Planned st env call (done ++ [r]) (plan.place st env call r) := by
  rw [Plan.place]
  cases hp : placement st env call r with
  | error reason =>
    constructor
    · have hd : deferred st env call r = some (r, reason) := by rw [deferred, hp]
      simp only [List.filterMap_append, List.filterMap_cons, hd, List.filterMap_nil, h.toSync]
    · intro family
      have hj : joins st env call family r = false := by rw [joins, hp]
      simp only [List.filter_append, List.filter_cons, hj, List.filter_nil, h.group family]
      simp
  | ok f =>
    constructor
    · have hd : deferred st env call r = none := by rw [deferred, hp]
      simp only [List.filterMap_append, List.filterMap_cons, hd, List.filterMap_nil, h.toSync,
        List.append_nil]
    · intro family
      have hj : joins st env call family r = decide (f = family) := by rw [joins, hp]
      simp only [Dict.get?_set, List.filter_append, List.filter_cons, hj, List.filter_nil]
      by_cases he : f = family
      · subst he
        simp only [if_true, Option.getD_some, decide_true, h.group f]
      · simp only [he, if_false, decide_false, h.group family, Bool.false_eq_true, List.append_nil]

theorem planned_planOf (st : ExecutorSettings) (env : Surroundings) (call : BatchCall) :
    Planned st env call call.requests (planOf st env call) := by
  have hfold : ∀ (rs done : List BatchRequest) (plan : Plan), Planned st env call done plan →
      Planned st env call (done ++ rs) (rs.foldl (Plan.place st env call) plan) := by
    intro rs
    induction rs with
    | nil =>
      intro done plan h
      rw [List.append_nil]
      exact h
    | cons r rs ih =>
      intro done plan h
      have hrest := ih (done ++ [r]) _ (h.place r)
      rw [List.append_assoc] at hrest
      exact hrest
  exact hfold call.requests [] {} planned_nil

theorem entries_planOf (h : (family, reqs) ∈ (planOf st env call).groups.entries) :
    reqs = call.requests.filter (joins st env call family) := by
  have hg := (planned_planOf st env call).group family
  rw [Dict.get?_eq_some.2 h] at hg
  exact hg

theorem mem_planOf {r : BatchRequest} (hr : r ∈ call.requests)
    (hp : placement st env call r = .ok family) :
    ∃ reqs, (family, reqs) ∈ (planOf st env call).groups.entries ∧ r ∈ reqs := by
  have hg := (planned_planOf st env call).group family
  have hj : joins st env call family r = true := by
    rw [joins, hp]
    exact decide_eq_true rfl
  have hmem : r ∈ call.requests.filter (joins st env call family) := List.mem_filter.2 ⟨hr, hj⟩
  rw [← hg] at hmem
  cases he : (planOf st env call).groups.get? family with
  | none =>
    rw [he] at hmem
    cases hmem
  | some reqs =>
    rw [he] at hmem
    exact ⟨reqs, Dict.get?_eq_some.1 he, hmem⟩

abbrev Item := FamilyOutcome × BatchRequest

def itemsOf (jobs : List Job) : List Item :=
  jobs.flatMap fun job => job.requests.map fun r => (job.outcome, r)

theorem mem_itemsOf {jobs : List Job} {it : Item} (hi : it ∈ itemsOf jobs) :
    ∃ job ∈ jobs, it.1 = job.outcome ∧ it.2 ∈ job.requests := by
  obtain ⟨job, hj, hi⟩ := List.mem_flatMap.1 hi
  obtain ⟨r, hr, rfl⟩ := List.mem_map.1 hi
  exact ⟨job, hj, rfl, hr⟩

def itemKey (it : Item) : String := it.2.customId

def itemResult (st : ExecutorSettings) (it : Item) : Option BatchResult :=
  match it.1 with
  | .resultsUnavailable jobId => some (errorResult it.2 ("results_unavailable:" ++ jobId))
  | .jobFailed _ => none
  | .completed results => (usable results it.2).map fun got => priced st it.2 got true

def itemMeter (st : ExecutorSettings) (it : Item) : List MeterEntry :=
  match it.1 with
  | .completed results =>
    match usable results it.2 with
    | some got => [meterEntry st it.2 got true]
    | none => []
  | _ => []

def itemDeferral (it : Item) : List (BatchRequest × String) :=
  match it.1 with
  | .resultsUnavailable _ => []
  | .jobFailed status => [(it.2, status.value)]
  | .completed results =>
    match usable results it.2 with
    | some _ => []
    | none => [(it.2, missingReason results it.2)]

structure Settled (st : ExecutorSettings) (l : Ledger) (items : List Item) (l' : Ledger) :
    Prop where
  results : l'.results = Dict.setAll itemKey (itemResult st) l.results items
  toSync : l'.toSync = l.toSync ++ items.flatMap itemDeferral
  synced : l'.synced = l.synced
  meter : l'.meter = l.meter ++ items.flatMap (itemMeter st)

theorem Settled.nil : Settled st l [] l :=
  ⟨rfl, (List.append_nil _).symm, rfl, (List.append_nil _).symm⟩

theorem settled_settleOne (st : ExecutorSettings) (l : Ledger) (it : Item) :
    Settled st l [it] (settleOne st it.1 l it.2) := by
  obtain ⟨o, r⟩ := it
  cases o with
  | resultsUnavailable jobId =>
    exact ⟨rfl, (List.append_nil _).symm, rfl, (List.append_nil _).symm⟩
  | jobFailed status => exact ⟨rfl, rfl, rfl, (List.append_nil _).symm⟩
  | completed results =>
    rw [settleOne]
    cases hu : usable results r with
    | some got =>
      constructor
      · simp [Dict.setAll, Dict.setOne, itemResult, hu, itemKey, Ledger.meterResult, Ledger.keep]
      · simp [itemDeferral, hu, Ledger.meterResult, Ledger.keep]
      · rfl
      · simp [itemMeter, hu, Ledger.meterResult]
    | none =>
      constructor
      · simp [Dict.setAll, Dict.setOne, itemResult, hu, Ledger.defer]
      · simp [itemDeferral, hu, Ledger.defer]
      · rfl
      · simp [itemMeter, hu, Ledger.defer]

theorem Settled.append (h : Settled st l items l') (h' : Settled st l' items' l'') :
    Settled st l (items ++ items') l'' := by
  constructor
  · rw [h'.results, h.results, Dict.setAll, Dict.setAll, Dict.setAll, List.foldl_append]
  · rw [h'.toSync, h.toSync, List.flatMap_append, List.append_assoc]
  · rw [h'.synced, h.synced]
  · rw [h'.meter, h.meter, List.flatMap_append, List.append_assoc]

theorem settled_requests (st : ExecutorSettings) (outcome : FamilyOutcome) :
    ∀ (reqs : List BatchRequest) (l : Ledger),
      Settled st l (reqs.map fun r => (outcome, r)) (reqs.foldl (settleOne st outcome) l)
  | [], _ => .nil
  | r :: reqs, l =>
    (settled_settleOne st l (outcome, r)).append (settled_requests st outcome reqs _)

theorem settled_settleJob (h : settleJob st allowSync l job = .ok l') :
    Settled st l (job.requests.map fun r => (job.outcome, r)) l' := by
  rw [settleJob] at h
  have hfold := settled_requests st job.outcome job.requests l
  split at h
  next =>
    split at h
    · cases h
      exact hfold
    · cases h
  · cases h
    exact hfold

theorem settled_jobs {jobs : List Job} {l l' : Ledger}
    (h : jobs.foldlM (settleJob st allowSync) l = .ok l') : Settled st l (itemsOf jobs) l' := by
  induction jobs generalizing l with
  | nil =>
    cases h
    exact .nil
  | cons job jobs ih =>
    rw [List.foldlM_cons] at h
    obtain ⟨l₁, h₁, h⟩ := except_bind_ok h
    exact (settled_settleJob h₁).append (ih h)

def syncResult (st : ExecutorSettings) (env : Surroundings) (allowSync : Bool)
    (d : BatchRequest × String) : BatchResult :=
  if allowSync then
    match env.sync d.1 with
    | .error name => errorResult d.1 ("sync_failed:" ++ name)
    | .ok res => priced st d.1 res false
  else errorResult d.1 d.2

def syncMeter (st : ExecutorSettings) (env : Surroundings) (allowSync : Bool)
    (d : BatchRequest × String) : List MeterEntry :=
  if allowSync then
    match env.sync d.1 with
    | .error _ => []
    | .ok res => [meterEntry st d.1 res false]
  else []

def syncCall (allowSync : Bool) (d : BatchRequest × String) : List BatchRequest :=
  if allowSync then [d.1] else []

def deferredKey (d : BatchRequest × String) : String := d.1.customId

structure Retried (st : ExecutorSettings) (env : Surroundings) (allowSync : Bool) (l : Ledger)
    (ds : List (BatchRequest × String)) (l' : Ledger) : Prop where
  results : l'.results =
    Dict.setAll deferredKey (fun d => some (syncResult st env allowSync d)) l.results ds
  synced : l'.synced = l.synced ++ ds.flatMap (syncCall allowSync)
  meter : l'.meter = l.meter ++ ds.flatMap (syncMeter st env allowSync)

theorem Retried.nil : Retried st env allowSync l [] l :=
  ⟨rfl, (List.append_nil _).symm, (List.append_nil _).symm⟩

theorem retried_settleSync (st : ExecutorSettings) (env : Surroundings) (allowSync : Bool)
    (l : Ledger) (d : BatchRequest × String) :
    Retried st env allowSync l [d] (settleSync st env allowSync l d) := by
  cases allowSync with
  | false => exact ⟨rfl, (List.append_nil _).symm, (List.append_nil _).symm⟩
  | true =>
    simp only [settleSync, if_true, runSync]
    cases hs : env.sync d.1 with
    | error name =>
      constructor
      · simp [Dict.setAll, Dict.setOne, syncResult, hs, deferredKey, Ledger.keep, Ledger.called]
      · simp [syncCall, Ledger.keep, Ledger.called]
      · simp [syncMeter, hs, Ledger.keep, Ledger.called]
    | ok res =>
      constructor
      · simp [Dict.setAll, Dict.setOne, syncResult, hs, deferredKey, Ledger.meterResult,
          Ledger.keep, Ledger.called]
      · simp [syncCall, Ledger.meterResult, Ledger.keep, Ledger.called]
      · simp [syncMeter, hs, Ledger.meterResult, Ledger.called]

theorem Retried.append (h : Retried st env allowSync l ds l')
    (h' : Retried st env allowSync l' ds' l'') : Retried st env allowSync l (ds ++ ds') l'' := by
  constructor
  · rw [h'.results, h.results, Dict.setAll, Dict.setAll, Dict.setAll, List.foldl_append]
  · rw [h'.synced, h.synced, List.flatMap_append, List.append_assoc]
  · rw [h'.meter, h.meter, List.flatMap_append, List.append_assoc]

theorem retried_all (st : ExecutorSettings) (env : Surroundings) (allowSync : Bool) :
    ∀ (ds : List (BatchRequest × String)) (l : Ledger),
      Retried st env allowSync l ds (ds.foldl (settleSync st env allowSync) l)
  | [], _ => .nil
  | d :: ds, l =>
    (retried_settleSync st env allowSync l d).append (retried_all st env allowSync ds _)

/-- What one request is owed by a finished run. -/
inductive Served (st : ExecutorSettings) (env : Surroundings) (report : RunReport)
    (req : BatchRequest) (res : BatchResult) : Prop where
  | batch (job : Job) (results : Dict String BatchResult) (got : BatchResult)
      (submitted : job ∈ report.jobs) (member : req ∈ job.requests)
      (completed : job.outcome = .completed results) (found : usable results req = some got)
      (result : res = priced st req got true)
      (metered : (report.meter.filter fun e => decide (e.request = req.customId)) =
        [meterEntry st req got true])
  | sync (got : BatchResult) (called : req ∈ report.synced) (found : env.sync req = .ok got)
      (result : res = priced st req got false)
      (metered : (report.meter.filter fun e => decide (e.request = req.customId)) =
        [meterEntry st req got false])
  | failed (identified : res.customId = req.customId) (failure : res.error ≠ none)
      (unmetered : (report.meter.filter fun e => decide (e.request = req.customId)) = [])

structure Batchable (st : ExecutorSettings) (call : BatchCall) (req : BatchRequest) : Prop where
  requested : req ∈ call.requests
  enabled : st.batchApiEnabled = true
  untainted : req.customId ∉ call.taintedIds
  ungated : req.customId ∉ call.hitlGatedIds
  admitted : ∀ policy, call.dataPolicy = some policy → policy req = some true

structure Contract (st : ExecutorSettings) (env : Surroundings) (call : BatchCall)
    (report : RunReport) : Prop where
  served : List.Forall₂ (Served st env report) call.requests report.results
  confined : ∀ job ∈ report.jobs, ∀ req ∈ job.requests, Batchable st call req
  synced : (report.synced.map BatchRequest.customId).Nodup
  requested : ∀ req ∈ report.synced, req ∈ call.requests
  neverTwice : ∀ job ∈ report.jobs, ∀ req ∈ job.requests, req ∈ report.synced →
    (∀ jobId, job.outcome ≠ .resultsUnavailable jobId) ∧
      ∀ results, job.outcome = .completed results → usable results req = none

theorem batchable_of_placement {r : BatchRequest} (hr : r ∈ call.requests)
    (h : placement st env call r = .ok family) : Batchable st call r := by
  rw [placement] at h
  split at h
  · cases h
  next hx =>
    rw [exclusion] at hx
    split at hx
    · cases hx
    next he =>
      split at hx
      · cases hx
      next ht =>
        split at hx
        · cases hx
        next hg =>
          split at hx
          next hp =>
            refine ⟨hr, by simpa using he, ht, hg, ?_⟩
            intro policy hpol
            rw [hpol, Option.all_some] at hp
            cases hv : policy r with
            | none => simp [hv] at hp
            | some b => simpa [hv] using hp
          · cases hx

/-- The jobs of a run are the groups of its plan. -/
structure Driven (st : ExecutorSettings) (env : Surroundings) (call : BatchCall)
    (jobs : List Job) : Prop where
  groups : jobs.map (fun job => (job.family, job.requests)) = (planOf st env call).groups.entries

theorem driven_of_mapM {jobs : List Job}
    (h : (planOf st env call).groups.entries.mapM (driveGroup env fuel call) = some jobs) :
    Driven st env call jobs := by
  apply Driven.mk
  apply mapM_option_map _ h
  intro group job hd
  rw [driveGroup] at hd
  split at hd
  · cases hd
  · obtain ⟨o, -, rfl⟩ := Option.map_eq_some_iff.1 hd
    rfl

namespace Driven

variable {jobs : List Job}

theorem requests_eq (h : Driven st env call jobs) (hj : job ∈ jobs) :
    job.requests = call.requests.filter (joins st env call job.family) := by
  apply entries_planOf
  rw [← h.groups]
  exact List.mem_map_of_mem hj

theorem placement_eq (h : Driven st env call jobs) (hj : job ∈ jobs) (hr : r ∈ job.requests) :
    r ∈ call.requests ∧ placement st env call r = .ok job.family := by
  rw [h.requests_eq hj, List.mem_filter, joins] at hr
  obtain ⟨hm, hr⟩ := hr
  split at hr
  · cases hr
  next f hp =>
    rw [decide_eq_true_eq] at hr
    exact ⟨hm, hr ▸ hp⟩

theorem exists_job (h : Driven st env call jobs) (hr : r ∈ call.requests)
    (hp : placement st env call r = .ok family) : ∃ job ∈ jobs, r ∈ job.requests := by
  obtain ⟨reqs, hg, hr⟩ := mem_planOf hr hp
  rw [← h.groups] at hg
  obtain ⟨job, hj, he⟩ := List.mem_map.1 hg
  cases he
  exact ⟨job, hj, hr⟩

theorem families (h : Driven st env call jobs) : (jobs.map Job.family).Nodup := by
  have hn := (planOf st env call).groups.nodup
  rw [← h.groups, List.map_map] at hn
  exact hn

theorem nodup_items (h : Driven st env call jobs)
    (hn : (call.requests.map BatchRequest.customId).Nodup) :
    ((itemsOf jobs).map itemKey).Nodup := by
  have hreq : (itemsOf jobs).map Prod.snd = jobs.flatMap Job.requests := by
    rw [itemsOf, List.map_flatMap]
    congr 1
    funext job
    rw [List.map_map]
    exact List.map_id _
  have hids : (itemsOf jobs).map itemKey
      = (jobs.flatMap Job.requests).map BatchRequest.customId := by
    rw [← hreq, List.map_map]
    rfl
  have hnodup : (jobs.flatMap Job.requests).Nodup := by
    rw [List.nodup_flatMap]
    constructor
    · intro job hj
      rw [h.requests_eq hj]
      exact (List.Nodup.of_map _ hn).filter _
    · have hfam : jobs.Pairwise fun a b => a.family ≠ b.family := List.pairwise_map.1 h.families
      apply hfam.imp_of_mem
      intro a b ha hb hne r hra hrb
      have hpa := (h.placement_eq ha hra).2
      have hpb := (h.placement_eq hb hrb).2
      rw [hpa, Except.ok.injEq] at hpb
      exact hne hpb
  rw [hids]
  apply List.Nodup.map_on _ hnodup
  intro a ha b hb he
  obtain ⟨job, hj, ha⟩ := List.mem_flatMap.1 ha
  obtain ⟨job', hj', hb⟩ := List.mem_flatMap.1 hb
  exact List.inj_on_of_nodup_map hn (h.placement_eq hj ha).1 (h.placement_eq hj' hb).1 he

end Driven

theorem mem_toSync_planOf (h : d ∈ (planOf st env call).toSync) :
    d.1 ∈ call.requests ∧ placement st env call d.1 = .error d.2 := by
  rw [(planned_planOf st env call).toSync, List.mem_filterMap] at h
  obtain ⟨r, hr, h⟩ := h
  rw [deferred] at h
  split at h
  next reason hp =>
    cases h
    exact ⟨hr, hp⟩
  · cases h

theorem toSync_planOf_of_error {r : BatchRequest} (hr : r ∈ call.requests)
    (hp : placement st env call r = .error reason) :
    (r, reason) ∈ (planOf st env call).toSync := by
  rw [(planned_planOf st env call).toSync, List.mem_filterMap]
  refine ⟨r, hr, ?_⟩
  rw [deferred, hp]

theorem nodup_toSync_planOf (hn : (call.requests.map BatchRequest.customId).Nodup) :
    ((planOf st env call).toSync.map deferredKey).Nodup := by
  have hsub : ∀ rs : List BatchRequest,
      ((rs.filterMap (deferred st env call)).map deferredKey).Sublist
        (rs.map BatchRequest.customId) := by
    intro rs
    induction rs with
    | nil => exact .slnil
    | cons r rs ih =>
      rw [List.filterMap_cons]
      cases hd : deferred st env call r with
      | none => exact ih.cons _
      | some d =>
        have hk : d.1 = r := by
          rw [deferred] at hd
          split at hd
          · cases hd
            rfl
          · cases hd
        rw [List.map_cons, List.map_cons, deferredKey, hk]
        exact ih.cons_cons _
  rw [(planned_planOf st env call).toSync]
  exact hn.sublist (hsub _)

theorem itemDeferral_key (it : Item) : ∀ d ∈ itemDeferral it, d.1 = it.2 := by
  intro d hd
  rw [itemDeferral] at hd
  split at hd
  · cases hd
  · cases List.mem_singleton.1 hd
    rfl
  · split at hd
    · cases hd
    · cases List.mem_singleton.1 hd
      rfl

theorem deferrals_sublist (items : List Item) :
    ((items.flatMap itemDeferral).map deferredKey).Sublist (items.map itemKey) := by
  induction items with
  | nil => exact .slnil
  | cons it items ih =>
    have hone : ((itemDeferral it).map deferredKey).Sublist [itemKey it] := by
      rw [itemDeferral]
      split
      · exact List.nil_sublist _
      · exact List.Sublist.refl _
      · split
        · exact List.nil_sublist _
        · exact List.Sublist.refl _
    rw [List.flatMap_cons, List.map_append, List.map_cons]
    exact hone.append ih

theorem itemMeter_key (st : ExecutorSettings) (it : Item) :
    ∀ e ∈ itemMeter st it, e.request = itemKey it := by
  intro e he
  rw [itemMeter] at he
  split at he
  · split at he
    · cases List.mem_singleton.1 he
      rfl
    · cases he
  · cases he

theorem syncMeter_key (st : ExecutorSettings) (env : Surroundings) (allowSync : Bool)
    (d : BatchRequest × String) :
    ∀ e ∈ syncMeter st env allowSync d, e.request = deferredKey d := by
  intro e he
  rw [syncMeter] at he
  split at he
  · split at he
    · cases he
    · cases List.mem_singleton.1 he
      rfl
  · cases he

def retries (st : ExecutorSettings) (env : Surroundings) (call : BatchCall) (jobs : List Job) :
    List (BatchRequest × String) :=
  (planOf st env call).toSync ++ (itemsOf jobs).flatMap itemDeferral

theorem mem_retries {jobs : List Job} (h : Driven st env call jobs)
    (hd : d ∈ retries st env call jobs) :
    d.1 ∈ call.requests ∧ (placement st env call d.1 = .error d.2 ∨
      ∃ it ∈ itemsOf jobs, d ∈ itemDeferral it) := by
  rcases List.mem_append.1 hd with hd | hd
  · obtain ⟨hr, hp⟩ := mem_toSync_planOf hd
    exact ⟨hr, .inl hp⟩
  · obtain ⟨it, hi, hd⟩ := List.mem_flatMap.1 hd
    obtain ⟨job, hj, -, hr⟩ := mem_itemsOf hi
    rw [← itemDeferral_key it d hd] at hr
    exact ⟨(h.placement_eq hj hr).1, .inr ⟨it, hi, hd⟩⟩

theorem nodup_retries {jobs : List Job} (h : Driven st env call jobs)
    (hn : (call.requests.map BatchRequest.customId).Nodup) :
    ((retries st env call jobs).map deferredKey).Nodup := by
  rw [retries, List.map_append, List.nodup_append]
  refine ⟨nodup_toSync_planOf hn, (h.nodup_items hn).sublist (deferrals_sublist _), ?_⟩
  intro a ha b hb hab
  obtain ⟨d, hd, rfl⟩ := List.mem_map.1 ha
  obtain ⟨it, hi, rfl⟩ := List.mem_map.1 ((deferrals_sublist _).subset hb)
  obtain ⟨job, hj, -, hr⟩ := mem_itemsOf hi
  obtain ⟨hm, hp⟩ := h.placement_eq hj hr
  obtain ⟨hm', hp'⟩ := mem_toSync_planOf hd
  rw [List.inj_on_of_nodup_map hn hm' hm hab, hp] at hp'
  cases hp'

theorem deferral_of_retried {jobs : List Job} (h : Driven st env call jobs)
    (hn : (call.requests.map BatchRequest.customId).Nodup) (hi : it ∈ itemsOf jobs)
    (hd : d ∈ retries st env call jobs) (he : d.1 = it.2) : d ∈ itemDeferral it := by
  obtain ⟨job, hj, -, hr⟩ := mem_itemsOf hi
  obtain ⟨hm, hp⟩ := h.placement_eq hj hr
  rcases (mem_retries h hd).2 with hp' | ⟨it', hi', hd'⟩
  · rw [he, hp] at hp'
    cases hp'
  · have hk : itemKey it' = itemKey it := by
      rw [itemKey, itemKey, ← itemDeferral_key it' d hd', he]
    rwa [List.inj_on_of_nodup_map (h.nodup_items hn) hi' hi hk] at hd'

/-- A run that has returned: what its jobs, and then the sync path, left in the ledger. -/
structure Finished (st : ExecutorSettings) (env : Surroundings) (call : BatchCall)
    (report : RunReport) (mid last : Ledger) : Prop where
  distinct : (call.requests.map BatchRequest.customId).Nodup
  driven : Driven st env call report.jobs
  settled : Settled st { toSync := (planOf st env call).toSync } (itemsOf report.jobs) mid
  retried : Retried st env call.allowSyncFallback mid (retries st env call report.jobs) last
  results : List.Forall₂ (fun req res => last.results.get? req.customId = some res)
    call.requests report.results
  synced : report.synced = last.synced
  meter : report.meter = last.meter

theorem forall₂_inInputOrder (d : Dict String BatchResult) :
    ∀ (reqs : List BatchRequest) {res : List BatchResult}, inInputOrder d reqs = .ok res →
      List.Forall₂ (fun req r => d.get? req.customId = some r) reqs res
  | [], _, h => by
    cases h
    exact .nil
  | req :: reqs, _, h => by
    rw [inInputOrder, List.mapM_cons] at h
    obtain ⟨r, hr, h⟩ := except_bind_ok h
    obtain ⟨rs, hrs, h⟩ := except_bind_ok h
    cases h
    apply List.Forall₂.cons _ (forall₂_inInputOrder d reqs hrs)
    split at hr
    next hg =>
      cases hr
      exact hg
    · cases hr

theorem finished_of_run (h : BatchExecutor.run st env fuel call = some (.ok report)) :
    ∃ mid last, Finished st env call report mid last := by
  rw [BatchExecutor.run] at h
  split at h
  next hn =>
    obtain ⟨jobs, hjobs, h⟩ := Option.map_eq_some_iff.1 h
    rw [settleAll] at h
    split at h
    · cases h
    next l hl =>
      dsimp only at h
      split at h
      · cases h
      next results hres =>
        cases h
        have hs := settled_jobs hl
        have hr := retried_all st env call.allowSyncFallback l.toSync l
        rw [hs.toSync] at hr
        rw [hs.toSync] at hres
        exact ⟨l, _, hn, driven_of_mapM hjobs, hs, hr, forall₂_inInputOrder _ _ hres, by
          rw [hs.toSync], by rw [hs.toSync]⟩
  · cases h

namespace Finished

variable {report : RunReport} {mid last : Ledger}

theorem get?_retried (h : Finished st env call report mid last)
    (hd : d ∈ retries st env call report.jobs) :
    last.results.get? d.1.customId = some (syncResult st env call.allowSyncFallback d) := by
  rw [h.retried.results]
  exact Dict.get?_setAll mid.results (nodup_retries h.driven h.distinct) hd rfl

theorem get?_kept (h : Finished st env call report mid last)
    (hi : it ∈ itemsOf report.jobs)
    (hk : itemKey it ∉ (retries st env call report.jobs).map deferredKey)
    (hr : itemResult st it = some res) : last.results.get? it.2.customId = some res := by
  have hset := h.settled.results
  rw [h.retried.results]
  apply (Dict.get?_setAll_of_not_mem _ _ hk).trans
  rw [hset]
  exact Dict.get?_setAll _ (h.driven.nodup_items h.distinct) hi hr

theorem meter_eq (h : Finished st env call report mid last) (id : String) :
    (report.meter.filter fun e => decide (e.request = id)) =
      ((itemsOf report.jobs).flatMap (itemMeter st)).filter (fun e => decide (e.request = id)) ++
        ((retries st env call report.jobs).flatMap (syncMeter st env call.allowSyncFallback)).filter
          (fun e => decide (e.request = id)) := by
  rw [h.meter, h.retried.meter, h.settled.meter, List.filter_append, List.filter_append]
  rfl

theorem meter_kept (h : Finished st env call report mid last)
    (hi : it ∈ itemsOf report.jobs)
    (hk : itemKey it ∉ (retries st env call report.jobs).map deferredKey) :
    (report.meter.filter fun e => decide (e.request = it.2.customId)) = itemMeter st it := by
  have hsync := filter_flatMap_not_mem (syncMeter_key st env call.allowSyncFallback) hk
  rw [itemKey] at hsync
  rw [h.meter_eq, hsync, List.append_nil]
  exact filter_flatMap_mem (itemMeter_key st) (h.driven.nodup_items h.distinct) hi

theorem itemMeter_retried (h : Finished st env call report mid last)
    (hd : d ∈ retries st env call report.jobs) :
    ((itemsOf report.jobs).flatMap (itemMeter st)).filter
      (fun e => decide (e.request = deferredKey d)) = [] := by
  by_cases hm : deferredKey d ∈ (itemsOf report.jobs).map itemKey
  · obtain ⟨it, hi, hk⟩ := List.mem_map.1 hm
    obtain ⟨job, hj, ho, hr⟩ := mem_itemsOf hi
    have he : it.2 = d.1 := List.inj_on_of_nodup_map h.distinct
      (h.driven.placement_eq hj hr).1 (mem_retries h.driven hd).1 hk
    have hdef := deferral_of_retried h.driven h.distinct hi hd he.symm
    rw [← hk, filter_flatMap_mem (itemMeter_key st) (h.driven.nodup_items h.distinct) hi]
    rw [itemDeferral] at hdef
    rw [itemMeter]
    split at hdef
    · cases hdef
    next hj => rw [hj]
    next hc =>
      rw [hc]
      split at hdef
      · cases hdef
      next hu => simp only [hu]
  · exact filter_flatMap_not_mem (itemMeter_key st) hm

theorem meter_retried (h : Finished st env call report mid last)
    (hd : d ∈ retries st env call report.jobs) :
    (report.meter.filter fun e => decide (e.request = d.1.customId)) =
      syncMeter st env call.allowSyncFallback d := by
  rw [h.meter_eq]
  have hitem := h.itemMeter_retried hd
  rw [deferredKey] at hitem
  rw [hitem, List.nil_append]
  exact filter_flatMap_mem (syncMeter_key st env _) (nodup_retries h.driven h.distinct) hd

theorem synced_eq (h : Finished st env call report mid last) :
    report.synced =
      (retries st env call report.jobs).flatMap (syncCall call.allowSyncFallback) := by
  rw [h.synced, h.retried.synced, h.settled.synced]
  rfl

theorem mem_synced (h : Finished st env call report mid last) :
    r ∈ report.synced ↔ call.allowSyncFallback = true ∧
      ∃ d ∈ retries st env call report.jobs, d.1 = r := by
  rw [h.synced_eq, List.mem_flatMap]
  constructor
  · rintro ⟨d, hd, hr⟩
    rw [syncCall] at hr
    split at hr
    next ha => exact ⟨ha, d, hd, (List.mem_singleton.1 hr).symm⟩
    · cases hr
  · rintro ⟨ha, d, hd, rfl⟩
    refine ⟨d, hd, ?_⟩
    rw [syncCall, if_pos ha]
    exact List.mem_singleton_self _

theorem served_retried (h : Finished st env call report mid last)
    (hd : d ∈ retries st env call report.jobs)
    (hres : last.results.get? d.1.customId = some res) : Served st env report d.1 res := by
  have hm := h.meter_retried hd
  rw [h.get?_retried hd, Option.some.injEq] at hres
  subst hres
  cases ha : call.allowSyncFallback with
  | false =>
    simp only [syncMeter, ha, Bool.false_eq_true, if_false] at hm
    simp only [syncResult, Bool.false_eq_true, if_false]
    exact .failed rfl (Option.some_ne_none _) hm
  | true =>
    simp only [syncMeter, ha, if_true] at hm
    simp only [syncResult, if_true]
    cases hs : env.sync d.1 with
    | error name =>
      rw [hs] at hm
      exact .failed rfl (Option.some_ne_none _) hm
    | ok got =>
      rw [hs] at hm
      exact .sync got (h.mem_synced.2 ⟨ha, d, hd, rfl⟩) hs rfl hm

theorem served_item (h : Finished st env call report mid last) (hj : job ∈ report.jobs)
    (hr : r ∈ job.requests) (hres : last.results.get? r.customId = some res) :
    Served st env report r res := by
  have hi : (job.outcome, r) ∈ itemsOf report.jobs :=
    List.mem_flatMap.2 ⟨job, hj, List.mem_map_of_mem hr⟩
  by_cases hk : r.customId ∈ (retries st env call report.jobs).map deferredKey
  · obtain ⟨d, hd, he⟩ := List.mem_map.1 hk
    have hdr : d.1 = r := List.inj_on_of_nodup_map h.distinct (mem_retries h.driven hd).1
      (h.driven.placement_eq hj hr).1 he
    subst hdr
    exact h.served_retried hd hres
  · have hm := h.meter_kept hi hk
    have hdefer : itemDeferral (job.outcome, r) = [] := by
      apply List.eq_nil_iff_forall_not_mem.2
      intro d hd
      have hkey : d.1 = r := itemDeferral_key _ d hd
      apply hk
      rw [← hkey]
      exact List.mem_map_of_mem (List.mem_append_right _ (List.mem_flatMap.2 ⟨_, hi, hd⟩))
    cases ho : job.outcome with
    | jobFailed status =>
      rw [ho, itemDeferral] at hdefer
      cases hdefer
    | resultsUnavailable jobId =>
      have hitem : itemResult st (job.outcome, r) =
          some (errorResult r ("results_unavailable:" ++ jobId)) := by
        rw [itemResult, ho]
      have hkept := h.get?_kept hi hk hitem
      rw [hkept, Option.some.injEq] at hres
      subst hres
      rw [ho, itemMeter] at hm
      exact .failed rfl (Option.some_ne_none _) hm
    | completed results =>
      cases hu : usable results r with
      | none =>
        simp only [ho, itemDeferral, hu] at hdefer
        cases hdefer
      | some got =>
        have hitem : itemResult st (job.outcome, r) = some (priced st r got true) := by
          simp only [itemResult, ho, hu, Option.map_some]
        have hkept := h.get?_kept hi hk hitem
        rw [hkept, Option.some.injEq] at hres
        subst hres
        simp only [ho, itemMeter, hu] at hm
        exact .batch job results got hj hr ho hu rfl hm

theorem served (h : Finished st env call report mid last) (hr : r ∈ call.requests)
    (hres : last.results.get? r.customId = some res) : Served st env report r res := by
  cases hp : placement st env call r with
  | error reason =>
    exact h.served_retried (List.mem_append_left _ (toSync_planOf_of_error hr hp)) hres
  | ok family =>
    obtain ⟨job, hj, hr⟩ := h.driven.exists_job hr hp
    exact h.served_item hj hr hres

theorem nodup_synced (h : Finished st env call report mid last) :
    (report.synced.map BatchRequest.customId).Nodup := by
  have hn := nodup_retries h.driven h.distinct
  have hsub : ∀ ds : List (BatchRequest × String),
      ((ds.flatMap (syncCall call.allowSyncFallback)).map BatchRequest.customId).Sublist
        (ds.map deferredKey) := by
    intro ds
    induction ds with
    | nil => exact .slnil
    | cons d ds ih =>
      rw [List.flatMap_cons, List.map_append, List.map_cons, syncCall]
      split
      · exact ih.cons_cons _
      · exact ih.cons _
  rw [h.synced_eq]
  exact hn.sublist (hsub _)

theorem neverTwice (h : Finished st env call report mid last) (hj : job ∈ report.jobs)
    (hr : r ∈ job.requests) (hs : r ∈ report.synced) :
    (∀ jobId, job.outcome ≠ .resultsUnavailable jobId) ∧
      ∀ results, job.outcome = .completed results → usable results r = none := by
  obtain ⟨-, d, hd, rfl⟩ := h.mem_synced.1 hs
  have hi : (job.outcome, d.1) ∈ itemsOf report.jobs :=
    List.mem_flatMap.2 ⟨job, hj, List.mem_map_of_mem hr⟩
  have hdef := deferral_of_retried h.driven h.distinct hi hd rfl
  constructor
  · intro jobId ho
    rw [itemDeferral, ho] at hdef
    cases hdef
  · intro results ho
    simp only [itemDeferral, ho] at hdef
    split at hdef
    · cases hdef
    next hu => exact hu

end Finished

/-- Every finished run answers, runs and meters each request as it owes it. -/
theorem batch_contract (h : BatchExecutor.run st env fuel call = some (.ok report)) :
    Contract st env call report := by
  obtain ⟨mid, last, hf⟩ := finished_of_run h
  constructor
  · have hmem : ∀ (reqs : List BatchRequest) (results : List BatchResult),
        (∀ r ∈ reqs, r ∈ call.requests) →
        List.Forall₂ (fun req res => last.results.get? req.customId = some res) reqs results →
        List.Forall₂ (Served st env report) reqs results := by
      intro reqs results hsub hall
      induction hall with
      | nil => exact .nil
      | cons hr _ ih =>
        exact .cons (hf.served (hsub _ List.mem_cons_self) hr)
          (ih fun r hr => hsub r (List.mem_cons_of_mem _ hr))
    exact hmem _ _ (fun r hr => hr) hf.results
  · intro job hj req hr
    obtain ⟨hm, hp⟩ := hf.driven.placement_eq hj hr
    exact batchable_of_placement hm hp
  · exact hf.nodup_synced
  · intro req hr
    obtain ⟨-, d, hd, rfl⟩ := hf.mem_synced.1 hr
    exact (mem_retries hf.driven hd).1
  · intro job hj req hr hs
    exact hf.neverTwice hj hr hs

def mixedCall : BatchCall where
  requests := [⟨"a", "gpt-4o", [], 8⟩, ⟨"b", "gpt-4o", [], 8⟩, ⟨"c", "gpt-4o", [], 8⟩]
  taintedIds := ["c"]

def mixedAdapter : Adapter where
  submit _ := some "job"
  poll n := .status (if n = 0 then .running else .completed)
  results _ := some [⟨"a", some "yes", {}, none⟩, ⟨"b", none, {}, some "overloaded"⟩]
  clock _ := 0

def mixedEnv : Surroundings where
  adapters family := if family = "openai" then some mixedAdapter else none
  sync r := if r.customId = "b" then .ok ⟨"b", some "yes", {}, none⟩ else .error "TimeoutError"

def mixedSettings : ExecutorSettings where
  batchApiEnabled := true
  isDigit := Char.isDigit
  pricing := ⟨fun _ _ _ => ⟨1, .table⟩, 1 / 2⟩

def returns : Option (Except RunError RunReport) → Bool
  | some (.ok _) => true
  | _ => false

theorem exists_of_returns (h : returns x = true) : ∃ report, x = some (.ok report) := by
  cases x with
  | none => cases h
  | some r =>
    cases r with
    | error e => cases h
    | ok report => exact ⟨report, rfl⟩

theorem batch_contract_mixed : ∃ report,
    BatchExecutor.run mixedSettings mixedEnv 3 mixedCall = some (.ok report) ∧
      Contract mixedSettings mixedEnv mixedCall report := by
  obtain ⟨report, h⟩ := exists_of_returns
    (x := BatchExecutor.run mixedSettings mixedEnv 3 mixedCall) (by decide +kernel)
  exact ⟨report, h, batch_contract h⟩

end Prismal.Routing
