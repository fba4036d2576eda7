import Prismal.A2A.Server
import Prismal.Lib.Run

namespace Prismal.A2A
open Prismal.Lib
set_option autoImplicit true

def Flight.SameRun (g f : Flight) : Prop :=
  g.task = f.task ∧ g.scope = f.scope ∧ g.stage.legacyStream = f.stage.legacyStream

theorem Flight.SameRun.refl (f : Flight) : f.SameRun f := ⟨rfl, rfl, rfl⟩

def Flight.outcome (f : Flight) (id : Nat) : Action → Option TaskState
  | .graph i (some _) _ => if i = id ∧ f.stage.legacyStream = false then some .completed else none
  | .graph i none _ => if i = id then some .failed else none
  | .resume i _ => if i = id ∧ f.stage.legacyStream = true then some .completed else none
  | .call _ _ | .abandon _ => none

theorem Flight.SameRun.outcome {id : Nat} {g f : Flight} (h : g.SameRun f) :
    g.outcome id a = f.outcome id a := by
  cases a <;> simp only [Flight.outcome, h.2.2]

def Action.run : Action → Option Nat
  | .graph id _ _ | .resume id _ | .abandon id => some id
  | .call _ _ => none

theorem Flight.run_of_outcome {id : Nat} {f : Flight} (h : f.outcome id a = some x) :
    a.run = some id := by
  cases a with
  | call c env => cases h
  | abandon i => cases h
  | resume i env =>
    rw [outcome] at h
    split at h
    next hi => exact congrArg some hi.1
    next => cases h
  | graph i answer env =>
    cases answer with
    | none =>
      rw [outcome] at h
      split at h
      next hi => exact congrArg some hi
      next => cases h
    | some text =>
      rw [outcome] at h
      split at h
      next hi => exact congrArg some hi.1
      next => cases h

def accepts (cfg : Config) (s : Server) (c : Call) : Option String :=
  match c.request with
  | .legacyCancel id =>
    if authorized cfg c.auth && (s.store.task id).isSome && inScope cfg s.store id c.legacyScope
    then some id else none
  | .v1Cancel tenant id =>
    match scopedRecord cfg s.store id c.callerScope with
    | .error _ => none
    | .ok record =>
      if authorized cfg c.auth && tenantMatches tenant c.callerScope && !record.state.terminal
      then some id else none
  | _ => none

/-- What one segment does to the records, the bodies and the suspended runs. -/
inductive Transition (cfg : Config) (s : Server) : Action → Server → Prop where
  | idle (hs : s'.store = s.store)
      (hf : ∀ id g, s'.flights.get? id = some g →
        ∃ f, s.flights.get? id = some f ∧ g.SameRun f) :
      Transition cfg s a s'
  | unscoped (f : Flight) (hscope : f.scope = none)
      (hfree : f.task = env.taskUuid ∨ s.store.peek f.task = none) :
      Transition cfg s (.call c env) (s.launch s.store f)
  | reserved (f : Flight) (hcaller : c.scope = some c.callerScope)
      (hscope : f.scope = some c.callerScope)
      (hid : f.task = env.taskUuid ∨ f.task ≠ "")
      (hclaim : claimTaskId s.store f.task (some c.callerScope) = .ok ()) :
      Transition cfg s (.call c env)
        (s.launch (s.store.put cfg.limits
          (working (s.store.peek f.task) f.task f.context c.callerScope env.now)) f)
  | cancelScoped (id : String) (r : TaskRecord) (hcaller : c.scope = some c.callerScope)
      (hget : scopedRecord cfg s.store id c.callerScope = .ok r)
      (hacc : accepts cfg s c = some id) :
      Transition cfg s (.call c env)
        (s.withStore ((s.store.register id (canceled (taskBody s.store r))).put cfg.limits
          (r.moved .canceled env.now)))
  | cancelUnscoped (id : String) (stored : Signed)
      (hfree : s.store.peek id = none) (hstored : s.store.task id = some stored)
      (hacc : accepts cfg s c = some id) :
      Transition cfg s (.call c env) (s.withStore (s.store.register id (canceled stored)))
  | completed (id : Nat) (f : Flight) (artifacts : List A2AArtifact) (now : Instant)
      (hf : s.flights.get? id = some f) (hout : f.outcome id a = some .completed) :
      Transition cfg s a (s.land id (completeRun cfg s.store f artifacts now))
  | failed (id : Nat) (f : Flight) (now : Instant)
      (hf : s.flights.get? id = some f) (hout : f.outcome id a = some .failed) :
      Transition cfg s a (s.land id (updateState cfg s.store f.task f.scope .failed now))

namespace Transition

theorem refuse (e : RpcError) : Transition cfg s a (refuse s e).1 :=
  idle rfl fun _ g hg => ⟨g, hg, Flight.SameRun.refl g⟩

theorem same (r : Response) : Transition cfg s a (Prod.fst (s, r)) :=
  idle rfl fun _ g hg => ⟨g, hg, Flight.SameRun.refl g⟩

end Transition

theorem scopedRecord_ok {id : String} (h : scopedRecord cfg st id scope = .ok r) :
    st.peek id = some r ∧ r.orgId = scope.orgId ∧
      ∀ p, principalFilter cfg scope = some p → r.principal = some p := by
  rw [scopedRecord] at h
  cases hg : st.get id scope.orgId with
  | none => rw [hg] at h; cases h
  | some record =>
    rw [hg] at h
    simp only at h
    split at h
    next hp =>
      cases h
      obtain ⟨h₁, h₂⟩ := TaskStore.get_eq_some.1 hg
      refine ⟨h₁, h₂, fun p he => ?_⟩
      rw [he, Option.all_some, decide_eq_true_eq] at hp
      exact hp
    next => cases h

theorem inScope_some {id : String} (h : inScope cfg st id (some scope) = true) :
    ∃ r, scopedRecord cfg st id scope = .ok r := by
  rw [inScope] at h
  cases hr : scopedRecord cfg st id scope with
  | error e => rw [hr] at h; cases h
  | ok r => exact ⟨r, rfl⟩

theorem orFresh_cases (given : Option String) (uuid : String) :
    orFresh given uuid = uuid ∨
      ∃ s, given = some s ∧ s ≠ "" ∧ orFresh given uuid = s := by
  cases given with
  | none => exact Or.inl rfl
  | some s =>
    by_cases h : s = ""
    · exact Or.inl (by simp [orFresh, h, Option.filter])
    · exact Or.inr ⟨s, rfl, h, by simp [orFresh, h, Option.filter]⟩

theorem reserve_ok (h : reserve cfg st taskId contextId scope v1 now = .ok st') :
    claimTaskId st taskId (some scope) = .ok () ∧
      st' = st.put cfg.limits (working (st.peek taskId) taskId contextId scope now) := by
  rw [reserve] at h
  cases hc : claimTaskId st taskId (some scope) with
  | error e => rw [hc] at h; cases h
  | ok u =>
    rw [hc] at h
    simp only at h
    split at h
    · cases h
    · exact ⟨rfl, (Except.ok.inj h).symm⟩

theorem claimLegacy_ok (h : claimLegacy st taskId = .ok ()) (uuid : String) :
    orFresh taskId uuid = uuid ∨ st.peek (orFresh taskId uuid) = none := by
  rcases orFresh_cases taskId uuid with hu | ⟨s, rfl, hs, hu⟩
  · exact Or.inl hu
  · right
    rw [hu]
    simp only [claimLegacy, Option.filter_some, hs, ne_eq, not_false_eq_true, decide_true,
      if_true] at h
    cases hp : st.peek s with
    | none => rfl
    | some owner =>
      rw [hp] at h
      simp [claimTaskId, hs, hp] at h

theorem orFresh_ne (given : Option String) (uuid : String) :
    orFresh given uuid = uuid ∨ orFresh given uuid ≠ "" := by
  rcases orFresh_cases given uuid with hu | ⟨t, -, ht, hu⟩
  · exact Or.inl hu
  · exact Or.inr (hu ▸ ht)

theorem legacySend_transition (cfg : Config) (s : Server) (c : Call) (env : Env)
    (hscope : c.scope = c.legacyScope) :
    Transition cfg s (.call c env) (legacySend cfg s stream taskId text c.legacyScope env).1 := by
  rw [legacySend]
  cases hc : claimLegacySend cfg s.store taskId c.legacyScope env with
  | error e => exact Transition.refuse e
  | ok store =>
    cases hs : c.legacyScope with
    | none =>
      rw [hs, claimLegacySend] at hc
      cases hl : claimLegacy s.store taskId with
      | error e => rw [hl] at hc; cases hc
      | ok u =>
        rw [hl] at hc
        obtain rfl := Except.ok.inj hc
        exact Transition.unscoped (legacyFlight stream _ text none env) rfl
          (claimLegacy_ok hl env.taskUuid)
    | some scope =>
      obtain rfl := Call.legacyScope_some hs
      rw [hs] at hc
      obtain ⟨hclaim, rfl⟩ := reserve_ok hc
      exact Transition.reserved (legacyFlight stream _ text (some c.callerScope) env)
        (hscope.trans hs) rfl (orFresh_ne taskId env.taskUuid) hclaim

theorem v1Send_transition (cfg : Config) (s : Server) (c : Call) (env : Env)
    (hscope : c.scope = some c.callerScope) :
    Transition cfg s (.call c env)
      (v1Send cfg s stream message historyLength c.callerScope env).1 := by
  rw [v1Send]
  cases hr : reserve cfg s.store (orFresh message.taskId env.taskUuid)
      (orFresh message.contextId env.contextUuid) c.callerScope true env.now with
  | error e => exact Transition.refuse e
  | ok store =>
    obtain ⟨hclaim, rfl⟩ := reserve_ok hr
    exact Transition.reserved (v1Flight stream _ _ message historyLength c.callerScope) hscope rfl
      (orFresh_ne message.taskId env.taskUuid) hclaim

theorem legacyGet_transition {id : String} (cfg : Config) (s : Server) :
    Transition cfg s a (legacyGet cfg s id scope).1 := by
  rw [legacyGet]
  cases s.store.task id with
  | none => exact Transition.refuse _
  | some stored =>
    simp only
    split
    · exact Transition.same _
    · exact Transition.refuse _

theorem v1Get_transition {id : String} (cfg : Config) (s : Server) :
    Transition cfg s a (v1Get cfg s id n scope).1 := by
  rw [v1Get]
  cases scopedRecord cfg s.store id scope with
  | error e => exact Transition.refuse e
  | ok r => exact Transition.same _

theorem v1List_transition (cfg : Config) (s : Server) :
    Transition cfg s a (v1List cfg s params scope).1 := by
  simp only [v1List]
  split
  · split
    · exact Transition.same _
    · exact Transition.same _
  · exact Transition.refuse _
  · exact Transition.refuse _

theorem taskBody_of_task {id : String} {st : TaskStore} (h : st.peek id = some r)
    (hs : st.task id = some stored) : taskBody st r = stored := by
  rw [taskBody, TaskStore.taskId_of_peek h, hs]
  rfl

theorem legacyCancel_transition {id : String} (cfg : Config) (s : Server) (c : Call) (env : Env)
    (hreq : c.request = .legacyCancel id) (hauth : authorized cfg c.auth = true) :
    Transition cfg s (.call c env) (legacyCancel cfg s id c.legacyScope env).1 := by
  rw [legacyCancel]
  cases ht : s.store.task id with
  | none => exact Transition.refuse _
  | some stored =>
    simp only
    split
    next hin =>
      have hacc : accepts cfg s c = some id := by simp [accepts, hreq, hauth, ht, hin]
      cases hs : c.legacyScope with
      | none =>
        rw [hs, inScope, Option.isNone_iff_eq_none] at hin
        exact Transition.cancelUnscoped id stored hin ht hacc
      | some scope =>
        obtain rfl := Call.legacyScope_some hs
        rw [hs] at hin
        obtain ⟨r, hr⟩ := inScope_some hin
        obtain ⟨hp, ho, -⟩ := scopedRecord_ok hr
        have hget : (s.store.register id (canceled stored)).get id c.callerScope.orgId = some r :=
          TaskStore.get_eq_some.2 ⟨hp, ho⟩
        have hcaller : c.scope = some c.callerScope := by rw [Call.scope, hreq]; exact hs
        have h : Transition cfg s (.call c env) _ :=
          Transition.cancelScoped id r hcaller hr hacc
        rw [taskBody_of_task hp ht] at h
        simp only [updateState, Option.bind_some, hget]
        exact h
    next => exact Transition.refuse _

theorem v1Cancel_transition {id : String} (cfg : Config) (s : Server) (c : Call) (env : Env)
    (hreq : c.request = .v1Cancel tenant id) (hauth : authorized cfg c.auth = true)
    (htenant : tenantMatches tenant c.callerScope = true) :
    Transition cfg s (.call c env) (v1Cancel cfg s id c.callerScope env).1 := by
  rw [v1Cancel]
  cases hr : scopedRecord cfg s.store id c.callerScope with
  | error e => exact Transition.refuse e
  | ok r =>
    simp only
    split
    next => exact Transition.refuse _
    next ht =>
      have hacc : accepts cfg s c = some id := by simp [accepts, hreq, hr, hauth, htenant, ht]
      have hid : r.taskId = id := TaskStore.taskId_of_peek (scopedRecord_ok hr).1
      have hcaller : c.scope = some c.callerScope := by rw [Call.scope, hreq]
      rw [← hid] at hr hacc
      exact Transition.cancelScoped r.taskId r hcaller hr hacc

theorem forTenant_transition {f : Server × Response}
    (h : tenantMatches tenant scope = true → Transition cfg s a f.1) :
    Transition cfg s a (forTenant s tenant scope f).1 := by
  rw [forTenant]
  split
  next ht => exact h ht
  next => exact Transition.refuse _

theorem handle_transition (cfg : Config) (s : Server) (c : Call) (env : Env) :
    Transition cfg s (.call c env) (handle cfg s c env).1 := by
  rw [handle]
  split
  next hauth =>
    cases hreq : c.request with
    | legacySend stream taskId text =>
      exact legacySend_transition cfg s c env (by rw [Call.scope, hreq])
    | legacyGet id => exact legacyGet_transition cfg s
    | legacyCancel id => exact legacyCancel_transition cfg s c env hreq hauth
    | v1Send stream tenant message n =>
      exact forTenant_transition fun _ =>
        v1Send_transition cfg s c env (by rw [Call.scope, hreq])
    | v1Get tenant id n => exact forTenant_transition fun _ => v1Get_transition cfg s
    | v1Cancel tenant id =>
      exact forTenant_transition fun ht => v1Cancel_transition cfg s c env hreq hauth ht
    | v1List params => exact forTenant_transition fun _ => v1List_transition cfg s
  next => exact Transition.refuse _

theorem Transition.restaged {f : Flight} {id : Nat} (hf : s.flights.get? id = some f)
    (hstage : stage.legacyStream = f.stage.legacyStream) :
    Transition cfg s a (s.setStage id f stage) := by
  refine Transition.idle ?_ ?_
  · rfl
  intro i g hg
  rw [Server.setStage, Dict.get?_set] at hg
  split at hg
  next he => exact ⟨f, he ▸ hf, Option.some.inj hg ▸ ⟨rfl, rfl, hstage⟩⟩
  next => exact ⟨g, hg, Flight.SameRun.refl g⟩

theorem landed_transition (cfg : Config) (s : Server) (id : Nat) :
    Transition cfg s a (s.land id s.store) := by
  refine Transition.idle ?_ ?_
  · rfl
  intro i g hg
  rw [Server.land, Dict.get?_erase] at hg
  split at hg
  · cases hg
  · exact ⟨g, hg, Flight.SameRun.refl g⟩

theorem graphAnswered_transition {id : Nat} (hf : s.flights.get? id = some f) :
    Transition cfg s (.graph id (some text) env) (graphAnswered cfg s id f text env).1 := by
  rw [graphAnswered]
  split
  next => exact Transition.same _
  next => exact Transition.same _
  next h => exact Transition.restaged hf (by rw [h]; rfl)
  next h => exact Transition.completed id f _ _ hf (by simp [Flight.outcome, h, Stage.legacyStream])
  next h => exact Transition.completed id f _ _ hf (by simp [Flight.outcome, h, Stage.legacyStream])

theorem graphRaised_transition {id : Nat} (hf : s.flights.get? id = some f) :
    Transition cfg s (.graph id none env) (graphRaised cfg s id f env).1 := by
  have hout : f.outcome id (.graph id none env) = some .failed := if_pos rfl
  rw [graphRaised]
  split
  next => exact Transition.same _
  next => exact Transition.same _
  next => exact Transition.failed id f env.now hf hout
  next => exact Transition.failed id f env.now hf hout

theorem resumed_transition {id : Nat} (hf : s.flights.get? id = some f) :
    Transition cfg s (.resume id env) (resumed cfg s id f env).1 := by
  rw [resumed]
  split
  next h => exact Transition.restaged hf (by rw [h]; rfl)
  next h => exact Transition.completed id f _ _ hf (by simp [Flight.outcome, h, Stage.legacyStream])
  next => exact Transition.same _
  next => exact Transition.same _

theorem onFlight_transition {id : Nat} {f : Flight → Server × Response}
    (h : ∀ g, s.flights.get? id = some g → Transition cfg s a (f g).1) :
    Transition cfg s a (onFlight s id f).1 := by
  rw [onFlight]
  cases hg : s.flights.get? id with
  | none => exact Transition.same _
  | some g => exact h g hg

theorem next_transition (cfg : Config) (s : Server) (a : Action) :
    Transition cfg s a (next cfg s a) := by
  rw [next]
  cases a with
  | call c env => exact handle_transition cfg s c env
  | abandon id => exact landed_transition cfg s id
  | resume id env => exact onFlight_transition fun _ hg => resumed_transition hg
  | graph id answer env =>
    cases answer with
    | none => exact onFlight_transition fun _ hg => graphRaised_transition hg
    | some text => exact onFlight_transition fun _ hg => graphAnswered_transition hg

end Prismal.A2A

namespace Prismal.A2A
open Prismal.Lib Prismal.Lib.Run
set_option autoImplicit true

/-- The task id whose terminal state an action records, and that state: an accepted cancel, or a
run that completes or fails. -/
def settles (cfg : Config) (s : Server) (a : Action) : Option (String × TaskState) :=
  match a with
  | .call c _ => (accepts cfg s c).map fun id => (id, .canceled)
  | .graph id _ _ | .resume id _ | .abandon id =>
    (s.flights.get? id).bind fun f => (f.outcome id a).map fun x => (f.task, x)

def KeepsTerminal (cfg : Config) (s : Server) (a : Action) (_rest : List Action) : Prop :=
  ∀ id f r, a.run = some id → s.flights.get? id = some f → s.store.peek f.task = some r →
    r.state.terminal = true →
    ∃ r', (next cfg s a).store.peek f.task = some r' ∧ r'.state = r.state

/-- A terminal state is recorded for a task only when no other scoped run that is suspended for
that task comes back with another outcome later. -/
def Undisturbed (cfg : Config) (s : Server) (a : Action) (rest : List Action) : Prop :=
  ∀ task x, settles cfg s a = some (task, x) →
    ∀ id f, (next cfg s a).flights.get? id = some f → f.task = task → f.scope ≠ none →
      ∀ b ∈ rest, f.outcome id b = none ∨ f.outcome id b = some x

def Guarded (s : Server) (rest : List Action) : Prop :=
  ∀ id f r, s.flights.get? id = some f → f.scope ≠ none → s.store.peek f.task = some r →
    r.state.terminal = true → ∀ b ∈ rest, f.outcome id b = none ∨ f.outcome id b = some r.state

theorem settles_of_accepts (h : accepts cfg s c = some task) :
    settles cfg s (.call c env) = some (task, .canceled) := by
  rw [settles, h]
  rfl

theorem settles_of_outcome {id : Nat} (hf : s.flights.get? id = some f)
    (h : f.outcome id a = some x) : settles cfg s a = some (f.task, x) := by
  have hrun := Flight.run_of_outcome h
  cases a with
  | call c env => cases hrun
  | graph i answer env => cases hrun; simp only [settles, hf, h, Option.bind_some, Option.map_some]
  | resume i env => cases hrun; simp only [settles, hf, h, Option.bind_some, Option.map_some]
  | abandon i => cases h

theorem completeRun_unscoped (h : f.scope = none) (task : String) :
    (completeRun cfg st f artifacts now).peek task = st.peek task := by
  simp only [completeRun, h, TaskStore.peek_register]

theorem completeRun_self (h : f.scope = some scope) :
    ∃ r, (completeRun cfg st f artifacts now).peek f.task = some r ∧ r.state = .completed ∧
      r.owner = scope := by
  simp only [completeRun, h, record]
  exact ⟨_, TaskStore.peek_put_self _ _ rfl, rfl, rfl⟩

theorem completeRun_other {f : Flight} {st : TaskStore} (h : f.scope = some scope) {task : String}
    (hne : f.task ≠ task) :
    (st.register f.task ⟨f.completedTask artifacts, f.scope⟩).Evicts
      (completeRun cfg st f artifacts now) task := by
  simp only [completeRun, h, record]
  exact TaskStore.put_evicts _ _ hne

theorem updateState_cases (cfg : Config) (st : TaskStore) (task : String) (scope : Option Scope)
    (x : TaskState) (now : Instant) :
    updateState cfg st task scope x now = st ∨
      ∃ s r, scope = some s ∧ st.peek task = some r ∧ r.orgId = s.orgId ∧
        updateState cfg st task scope x now =
          st.put cfg.limits (r.moved x now) := by
  cases scope with
  | none => exact Or.inl rfl
  | some s =>
    cases hg : st.get task s.orgId with
    | none => exact Or.inl (by simp only [updateState, Option.bind_some, hg])
    | some r =>
      obtain ⟨hp, ho⟩ := TaskStore.get_eq_some.1 hg
      exact Or.inr ⟨s, r, rfl, hp, ho, by simp only [updateState, Option.bind_some, hg]⟩

theorem guarded_idle (hs : ∀ task, s'.store.peek task = s.store.peek task)
    (hf : ∀ id g, s'.flights.get? id = some g →
      ∃ f, s.flights.get? id = some f ∧ g.SameRun f)
    (hI : Guarded s (a :: rest)) : Guarded s' rest := by
  intro id g r hg hsc hp ht b hb
  obtain ⟨f, hf, hsame⟩ := hf id g hg
  rw [hsame.outcome]
  rw [hs, hsame.1] at hp
  rw [hsame.2.1] at hsc
  exact hI id f r hf hsc hp ht b (List.mem_cons_of_mem _ hb)

theorem guarded_settle {task : String} {x : TaskState}
    (hflights : ∀ id g, s'.flights.get? id = some g → s.flights.get? id = some g)
    (hother : ∀ t r, t ≠ task → s'.store.peek t = some r → s.store.peek t = some r)
    (hself : ∀ r, s'.store.peek task = some r → r.state = x ∨ s.store.peek task = some r)
    (hC : ∀ id g, s'.flights.get? id = some g → g.task = task → g.scope ≠ none →
      ∀ b ∈ rest, g.outcome id b = none ∨ g.outcome id b = some x)
    (hI : Guarded s (a :: rest)) : Guarded s' rest := by
  intro id g r hg hsc hp ht b hb
  have hold : s.store.peek g.task = some r →
      g.outcome id b = none ∨ g.outcome id b = some r.state := fun hp =>
    hI id g r (hflights id g hg) hsc hp ht b (List.mem_cons_of_mem _ hb)
  by_cases he : g.task = task
  · rw [he] at hp
    rcases hself r hp with hx | hp
    · rw [hx]
      exact hC id g hg he hsc b hb
    · exact hold (he ▸ hp)
  · exact hold (hother _ r he hp)

theorem land_flights {s : Server} {id i : Nat} (h : (s.land id st).flights.get? i = some g) :
    s.flights.get? i = some g := by
  rw [Server.land, Dict.get?_erase] at h
  split at h
  · cases h
  · exact h

theorem guarded_launch {f : Flight} (hs : st'.peek f.task = none ∨ f.scope = none ∨
      ∃ r, st'.peek f.task = some r ∧ r.state = .working)
    (hother : ∀ t r, st'.peek t = some r → s.store.peek t = some r ∨ r.state = .working)
    (hI : Guarded s (a :: rest)) : Guarded (s.launch st' f) rest := by
  intro id g r hg hsc hp ht b hb
  change st'.peek g.task = some r at hp
  rw [Server.launch, Dict.get?_set] at hg
  split at hg
  next =>
    obtain rfl := Option.some.inj hg
    rcases hs with h | h | ⟨r', h, hw⟩
    · rw [h] at hp
      cases hp
    · exact absurd h hsc
    · obtain rfl := Option.some.inj (h.symm.trans hp)
      rw [hw] at ht
      cases ht
  next =>
    rcases hother _ r hp with hp | hw
    · exact hI id g r hg hsc hp ht b (List.mem_cons_of_mem _ hb)
    · rw [hw] at ht
      cases ht

theorem transition_guarded (ht : Transition cfg s a s') (hI : Guarded s (a :: rest))
    (hC : ∀ task x, settles cfg s a = some (task, x) →
      ∀ id f, s'.flights.get? id = some f → f.task = task → f.scope ≠ none →
        ∀ b ∈ rest, f.outcome id b = none ∨ f.outcome id b = some x) :
    Guarded s' rest := by
  cases ht with
  | idle hs hf => exact guarded_idle (fun _ => hs ▸ rfl) hf hI
  | unscoped f hscope hfree =>
    exact guarded_launch (Or.inr (Or.inl hscope)) (fun _ _ hp => Or.inl hp) hI
  | reserved f hcaller hscope hid hclaim =>
    apply guarded_launch (Or.inr (Or.inr ⟨_, TaskStore.peek_put_self _ _ rfl, rfl⟩)) _ hI
    intro t r hp
    by_cases he : f.task = t
    · right
      rw [TaskStore.peek_put_self _ _ he] at hp
      rw [← Option.some.inj hp]
      rfl
    · exact Or.inl ((TaskStore.put_evicts _ _ he).peek_some hp).1
  | cancelScoped task r hcaller hget hacc =>
    have hid : ∀ now, (r.moved .canceled now).taskId = task := fun now =>
      (r.moved_taskId _ now).trans (TaskStore.taskId_of_peek (scopedRecord_ok hget).1)
    apply guarded_settle _ _ _ (hC task .canceled (settles_of_accepts hacc)) hI
    · exact fun _ _ h => h
    · intro t r' hne hp
      exact ((TaskStore.put_evicts _ _ fun he => hne (he.symm.trans (hid _))).peek_some hp).1
    · intro r' hp
      left
      have hself := (TaskStore.peek_put_self _ _ (hid _)).symm.trans hp
      rw [← Option.some.inj hself]
      rfl
  | cancelUnscoped task stored hfree hstored hacc =>
    exact guarded_idle (fun _ => rfl) (fun _ g hg => ⟨g, hg, Flight.SameRun.refl g⟩) hI
  | completed id f artifacts now hf hout =>
    apply guarded_settle (fun _ _ h => land_flights h) _ _
      (hC f.task .completed (settles_of_outcome hf hout)) hI
    · intro t r hne hp
      cases hs : f.scope with
      | none => exact (completeRun_unscoped hs t) ▸ hp
      | some scope => exact ((completeRun_other hs fun he => hne he.symm).peek_some hp).1
    · intro r hp
      cases hs : f.scope with
      | none => exact Or.inr ((completeRun_unscoped hs f.task) ▸ hp)
      | some scope =>
        have hself : ∃ r, (completeRun cfg s.store f artifacts now).peek f.task = some r ∧
            r.state = .completed ∧ r.owner = scope := completeRun_self hs
        obtain ⟨r', hr', hx, -⟩ := hself
        obtain rfl := Option.some.inj (hr'.symm.trans hp)
        exact Or.inl hx
  | failed id f now hf hout =>
    apply guarded_settle (fun _ _ h => land_flights h) _ _
      (hC f.task .failed (settles_of_outcome hf hout)) hI
    · intro t r hne hp
      change (updateState cfg s.store f.task f.scope .failed now).peek t = some r at hp
      rcases updateState_cases cfg s.store f.task f.scope .failed now with he |
        ⟨_, r₀, -, hr₀, -, he⟩
      · exact he ▸ hp
      · rw [he] at hp
        have hid : (r₀.moved .failed now).taskId = f.task :=
          (r₀.moved_taskId _ _).trans (TaskStore.taskId_of_peek hr₀)
        exact ((TaskStore.put_evicts _ _ fun he => hne (he.symm.trans hid)).peek_some hp).1
    · intro r hp
      change (updateState cfg s.store f.task f.scope .failed now).peek f.task = some r at hp
      rcases updateState_cases cfg s.store f.task f.scope .failed now with he |
        ⟨_, r₀, -, hr₀, -, he⟩
      · exact Or.inr (he ▸ hp)
      · left
        have hid : (r₀.moved .failed now).taskId = f.task :=
          (r₀.moved_taskId _ _).trans (TaskStore.taskId_of_peek hr₀)
        rw [he, TaskStore.peek_put_self _ _ hid] at hp
        rw [← Option.some.inj hp]
        rfl

theorem transition_keepsTerminal {id : Nat} (ht : Transition cfg s a s')
    (hI : Guarded s (a :: rest))
    (hrun : a.run = some id) (hf : s.flights.get? id = some f)
    (hp : s.store.peek f.task = some r) (hr : r.state.terminal = true) :
    ∃ r', s'.store.peek f.task = some r' ∧ r'.state = r.state := by
  cases ht with
  | idle hs _ => exact ⟨r, hs ▸ hp, rfl⟩
  | unscoped => cases hrun
  | reserved => cases hrun
  | cancelScoped => cases hrun
  | cancelUnscoped => cases hrun
  | completed i g artifacts now hg hout =>
    obtain rfl := Option.some.inj ((Flight.run_of_outcome hout).symm.trans hrun)
    obtain rfl := Option.some.inj (hg.symm.trans hf)
    cases hs : g.scope with
    | none => exact ⟨r, (completeRun_unscoped hs g.task).trans hp, rfl⟩
    | some scope =>
      have hself : ∃ r, (completeRun cfg s.store g artifacts now).peek g.task = some r ∧
          r.state = .completed ∧ r.owner = scope := completeRun_self hs
      obtain ⟨r', hr', hx, -⟩ := hself
      have hsc : g.scope ≠ none := by rw [hs]; exact Option.some_ne_none _
      have hout' := hI _ g r hf hsc hp hr a List.mem_cons_self
      rw [hout] at hout'
      rcases hout' with h | h
      · cases h
      · exact ⟨r', hr', hx.trans (Option.some.inj h)⟩
  | failed i g now hg hout =>
    obtain rfl := Option.some.inj ((Flight.run_of_outcome hout).symm.trans hrun)
    obtain rfl := Option.some.inj (hg.symm.trans hf)
    change ∃ r', (updateState cfg s.store g.task g.scope .failed now).peek g.task = some r' ∧ _
    rcases updateState_cases cfg s.store g.task g.scope .failed now with he |
      ⟨sc, r₀, hs, hr₀, -, he⟩
    · exact ⟨r, by rw [he]; exact hp, rfl⟩
    · have hsc : g.scope ≠ none := by rw [hs]; exact Option.some_ne_none _
      have hout' := hI _ g r hf hsc hp hr a List.mem_cons_self
      rw [hout] at hout'
      rcases hout' with h | h
      · cases h
      · have hid : (r₀.moved .failed now).taskId = g.task :=
          (r₀.moved_taskId _ _).trans (TaskStore.taskId_of_peek hr₀)
        rw [he]
        exact ⟨_, TaskStore.peek_put_self _ _ hid, Option.some.inj h⟩

theorem guarded_init (acts : List Action) : Guarded {} acts := by
  intro id f r hf
  cases hf

/-- A v1 request of the tenant `acme`, without a principal. -/
def acmeCall (request : Request) : Call where
  request := request
  headers := true
  auth := none
  orgId := some "acme"

def sendT : Action :=
  .call (acmeCall (.v1Send false none
    ⟨"m1", .user, [{ content := .text "hi" }], none, some "t1"⟩ none)) { now := 0 }

def cancelT : Action := .call (acmeCall (.v1Cancel none "t1")) { now := 1 }

end Prismal.A2A
