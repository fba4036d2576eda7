import Prismal.A2A.Transitions
import Prismal.Lib.State

namespace Prismal.A2A
open Prismal.Lib Prismal.Lib.Run
set_option autoImplicit true

/-- An owner that a scope may read: the same tenant and, for a strict server, the principal of the
scope when it has one. -/
def Reads (cfg : Config) (scope : Scope) (owner : Option Scope) : Prop :=
  ∃ o, owner = some o ∧ o.orgId = scope.orgId ∧
    ∀ p, principalFilter cfg scope = some p → o.principal = some p

def Action.caller (s : Server) (a : Action) : Option Scope :=
  match a with
  | .call c _ => c.scope
  | .graph id _ _ | .resume id _ | .abandon id => (s.flights.get? id).bind Flight.scope

def Request.cancels : Request → Bool
  | .legacyCancel _ | .v1Cancel _ _ => true
  | _ => false

def Action.cancels : Action → Bool
  | .call c _ => c.request.cancels
  | _ => false

def Uncontended (s : Server) : Prop :=
  ∀ i j f g, s.flights.get? i = some f → s.flights.get? j = some g → f.task = g.task →
    f.scope = g.scope

/-- The task id that `uuid4` draws is in nobody's use. -/
def FreshIds (s : Server) : Action → Prop
  | .call _ env => env.taskUuid ≠ "" ∧ s.store.peek env.taskUuid = none ∧
      s.store.task env.taskUuid = none
  | _ => True

def Separate (cfg : Config) (s : Server) (a : Action) (_rest : List Action) : Prop :=
  FreshIds s a ∧ Uncontended (next cfg s a)

/-- What a scoped caller gets to see comes from owners it may read; a record is only replaced by
one of the same owner, on that owner's request or by a cancel that may read it; and a body keeps
its author. -/
structure Isolated (cfg : Config) (s : Server) (a : Action) : Prop where
  origins : ∀ scope, a.caller s = some scope → ∀ o ∈ (step cfg s a).2.origins,
    Reads cfg scope o
  records : ∀ task r r', s.store.peek task = some r → (next cfg s a).store.peek task = some r' →
    r' = r ∨ (r'.owner = r.owner ∧ ∃ scope, a.caller s = some scope ∧
      Reads cfg scope (some r.owner) ∧ (a.cancels = false → scope = r.owner))
  bodies : ∀ task b b', s.store.task task = some b → (next cfg s a).store.task task = some b' →
    b'.author = b.author

/-- Records, bodies and suspended runs agree on who owns a task. -/
structure Owned (s : Server) : Prop where
  uncontended : Uncontended s
  flight_record : ∀ i f r, s.flights.get? i = some f → s.store.peek f.task = some r →
    f.scope = some r.owner
  flight_body : ∀ i f b, s.flights.get? i = some f → s.store.task f.task = some b →
    b.author = f.scope
  body_owner : ∀ task b, s.store.task task = some b →
    b.author = (s.store.peek task).map TaskRecord.owner
  body_id : ∀ task b, s.store.task task = some b → b.task.id = task

/-- A step that only touches one task, which belongs to `owner` before and after. -/
structure Touches (cfg : Config) (s : Server) (a : Action) (s' : Server) (task : String)
    (owner : Option Scope) : Prop where
  frame : ∀ t, task ≠ t → s.store.Evicts s'.store t
  record_before : ∀ r, s.store.peek task = some r → owner = some r.owner
  record_after : ∀ r, s'.store.peek task = some r → owner = some r.owner
  body_before : ∀ b, s.store.task task = some b → b.author = owner
  body_after : ∀ b, s'.store.task task = some b → b.author = owner
  body_owner : ∀ b, s'.store.task task = some b →
    b.author = (s'.store.peek task).map TaskRecord.owner
  body_id : ∀ b, s'.store.task task = some b → b.task.id = task
  flights : ∀ i g, s'.flights.get? i = some g → (g.task = task ∧ g.scope = owner) ∨
    (task ≠ g.task ∧ ∃ j, s.flights.get? j = some g)
  caller : ∀ o, owner = some o → ∃ scope, a.caller s = some scope ∧ Reads cfg scope owner ∧
    (a.cancels = false → scope = o)

variable {cfg : Config} {s s' : Server} {st st' : TaskStore} {f : Flight} {a : Action} {c : Call}
  {env : Env} {task : String} {owner : Option Scope} {r : TaskRecord}

theorem Reads.self (cfg : Config) (scope : Scope) : Reads cfg scope (some scope) := by
  refine ⟨scope, rfl, rfl, fun p hp => ?_⟩
  rw [principalFilter] at hp
  split at hp
  · exact hp
  · cases hp

theorem reads_of_scopedRecord {id : String} (h : scopedRecord cfg st id scope = .ok r) :
    Reads cfg scope (some r.owner) :=
  ⟨r.owner, rfl, (scopedRecord_ok h).2.1, (scopedRecord_ok h).2.2⟩

theorem Touches.owned (h : Touches cfg s a s' task owner) (hs : Owned s)
    (hu : Uncontended s') : Owned s' where
  uncontended := hu
  flight_record := by
    intro i g r hg hr
    rcases h.flights i g hg with ⟨ht, hsc⟩ | ⟨hne, j, hj⟩
    · exact hsc.trans (h.record_after r (ht ▸ hr))
    · exact hs.flight_record j g r hj ((h.frame _ hne).peek_some hr).1
  flight_body := by
    intro i g b hg hb
    rcases h.flights i g hg with ⟨ht, hsc⟩ | ⟨hne, j, hj⟩
    · exact (h.body_after b (ht ▸ hb)).trans hsc.symm
    · rcases h.frame _ hne with ⟨-, ht⟩ | ⟨-, -, ht⟩
      · exact hs.flight_body j g b hj (ht ▸ hb)
      · rw [ht] at hb
        cases hb
  body_owner := by
    intro t b hb
    by_cases he : task = t
    · subst he
      exact h.body_owner b hb
    · rcases h.frame t he with ⟨hp, ht⟩ | ⟨-, -, ht⟩
      · rw [hp]
        exact hs.body_owner t b (ht ▸ hb)
      · rw [ht] at hb
        cases hb
  body_id := by
    intro t b hb
    by_cases he : task = t
    · subst he
      exact h.body_id b hb
    · rcases h.frame t he with ⟨-, ht⟩ | ⟨-, -, ht⟩
      · exact hs.body_id t b (ht ▸ hb)
      · rw [ht] at hb
        cases hb

theorem Touches.records {t : String} (h : Touches cfg s a s' task owner)
    (hr : s.store.peek t = some r)
    (hr' : s'.store.peek t = some r') :
    r' = r ∨ (r'.owner = r.owner ∧ ∃ scope, a.caller s = some scope ∧
      Reads cfg scope (some r.owner) ∧ (a.cancels = false → scope = r.owner)) := by
  by_cases he : task = t
  · subst he
    have ho := h.record_before r hr
    have ho' := h.record_after r' hr'
    right
    refine ⟨Option.some.inj (ho'.symm.trans ho), ?_⟩
    obtain ⟨scope, hc, hreads, hown⟩ := h.caller r.owner ho
    exact ⟨scope, hc, ho ▸ hreads, hown⟩
  · left
    have hp := ((h.frame t he).peek_some hr').1
    exact Option.some.inj (hp.symm.trans hr)

theorem Touches.bodies {t : String} (h : Touches cfg s a s' task owner)
    (hb : s.store.task t = some b)
    (hb' : s'.store.task t = some b') : b'.author = b.author := by
  by_cases he : task = t
  · subst he
    exact (h.body_after b' hb').trans (h.body_before b hb).symm
  · rcases h.frame t he with ⟨-, ht⟩ | ⟨-, -, ht⟩
    · rw [ht, hb] at hb'
      rw [Option.some.inj hb']
    · rw [ht] at hb'
      cases hb'

theorem claimTaskId_ok (hne : task ≠ "") (h : claimTaskId st task (some scope) = .ok ()) :
    (st.peek task = none ∧ st.task task = none) ∨
      ∃ r, st.peek task = some r ∧ scope = r.owner := by
  rw [claimTaskId, if_neg hne] at h
  cases hp : st.peek task with
  | none =>
    rw [hp] at h
    simp only at h
    split at h
    · cases h
    next hmem => exact Or.inl ⟨rfl, Dict.get?_eq_none.2 hmem⟩
  | some r =>
    rw [hp] at h
    simp only at h
    split at h
    next he => exact Or.inr ⟨r, rfl, Option.some.inj he⟩
    · cases h

theorem taskBody_author {id : String} (hs : Owned s) (hr : s.store.peek id = some r) :
    (taskBody s.store r).author = some r.owner ∧ (taskBody s.store r).task.id = id := by
  have hid := TaskStore.taskId_of_peek hr
  rw [taskBody, hid]
  cases hb : s.store.task id with
  | none => exact ⟨rfl, rfl⟩
  | some b =>
    refine ⟨?_, hs.body_id id b hb⟩
    rw [Option.getD_some, hs.body_owner id b hb, hr]
    rfl

theorem launched_flights (hu : Uncontended (s.launch st f)) (i : Nat) (g : Flight)
    (hg : (s.launch st f).flights.get? i = some g) :
    (g.task = f.task ∧ g.scope = f.scope) ∨
      (f.task ≠ g.task ∧ ∃ j, s.flights.get? j = some g) := by
  have hf : (s.launch st f).flights.get? s.nextFlight = some f := Dict.get?_set_self _ _ _
  by_cases ht : f.task = g.task
  · exact Or.inl ⟨ht.symm, hu i s.nextFlight g f hg hf ht.symm⟩
  · rw [Server.launch, Dict.get?_set] at hg
    split at hg
    next => exact absurd (congrArg Flight.task (Option.some.inj hg)) ht
    next => exact Or.inr ⟨ht, i, hg⟩

theorem landed_flights {id : Nat} (st : TaskStore) (hu : Uncontended s)
    (hf : s.flights.get? id = some f) (i : Nat)
    (g : Flight) (hg : (s.land id st).flights.get? i = some g) :
    (g.task = f.task ∧ g.scope = f.scope) ∨
      (f.task ≠ g.task ∧ ∃ j, s.flights.get? j = some g) := by
  have hg' := land_flights hg
  by_cases ht : f.task = g.task
  · exact Or.inl ⟨ht.symm, hu i id g f hg' hf ht.symm⟩
  · exact Or.inr ⟨ht, i, hg'⟩

theorem touches_unscoped (hs : Owned s) (hfree : s.store.peek f.task = none)
    (hscope : f.scope = none) (hu : Uncontended (s.launch s.store f)) :
    Touches cfg s a (s.launch s.store f) f.task none where
  frame := fun t _ => TaskStore.Evicts.refl _ t
  record_before := by
    intro r hr
    rw [hfree] at hr
    cases hr
  record_after := by
    intro r hr
    cases hfree.symm.trans hr
  body_before := by
    intro b hb
    rw [hs.body_owner _ b hb, hfree]
    rfl
  body_after := by
    intro b hb
    rw [hs.body_owner _ b hb, hfree]
    rfl
  body_owner := fun b hb => hs.body_owner _ b hb
  body_id := fun b hb => hs.body_id _ b hb
  flights := by
    intro i g hg
    rw [← hscope]
    exact launched_flights hu i g hg
  caller := fun o ho => nomatch ho

theorem touches_put {r : TaskRecord} (limits : StoreLimits) (hid : r.taskId = task)
    (hstore : s'.store = st.put limits r)
    (hframe : ∀ t, task ≠ t → s.store.Evicts (st.put limits r) t)
    (hbefore : ∀ r₀, s.store.peek task = some r₀ → r.owner = r₀.owner)
    (hbody : ∀ b, s.store.task task = some b → b.author = some r.owner)
    (hbody' : ∀ b, st.task task = some b → b.author = some r.owner ∧ b.task.id = task)
    (hflights : ∀ i g, s'.flights.get? i = some g → (g.task = task ∧ g.scope = some r.owner) ∨
      (task ≠ g.task ∧ ∃ j, s.flights.get? j = some g))
    (hcaller : ∃ scope, a.caller s = some scope ∧ Reads cfg scope (some r.owner) ∧
      (a.cancels = false → scope = r.owner)) :
    Touches cfg s a s' task (some r.owner) where
  frame := fun t ht => hstore ▸ hframe t ht
  record_before := fun r₀ hr₀ => congrArg some (hbefore r₀ hr₀)
  record_after := by
    intro r' hr'
    rw [hstore, TaskStore.peek_put_self _ _ hid] at hr'
    rw [Option.some.inj hr']
  body_before := hbody
  body_after := by
    intro b hb
    rw [hstore, TaskStore.task_put_self _ _ hid] at hb
    exact (hbody' b hb).1
  body_owner := by
    intro b hb
    rw [hstore, TaskStore.task_put_self _ _ hid] at hb
    rw [hstore, TaskStore.peek_put_self _ _ hid, (hbody' b hb).1]
    rfl
  body_id := by
    intro b hb
    rw [hstore, TaskStore.task_put_self _ _ hid] at hb
    exact (hbody' b hb).2
  flights := hflights
  caller := by
    intro o ho
    cases ho
    exact hcaller

theorem touches_register {b : Signed} (hs : Owned s) (hfree : s.store.peek task = none)
    (hauthor : b.author = none) (hid : b.task.id = task)
    (hstore : s'.store = s.store.register task b)
    (hflights : ∀ i g, s'.flights.get? i = some g → (g.task = task ∧ g.scope = none) ∨
      (task ≠ g.task ∧ ∃ j, s.flights.get? j = some g)) :
    Touches cfg s a s' task none where
  frame := by
    intro t ht
    left
    rw [hstore, TaskStore.task_register, if_neg ht]
    exact ⟨rfl, rfl⟩
  record_before := by
    intro r hr
    cases hfree.symm.trans hr
  record_after := by
    intro r hr
    rw [hstore] at hr
    cases hfree.symm.trans hr
  body_before := by
    intro b hb
    rw [hs.body_owner _ b hb, hfree]
    rfl
  body_after := by
    intro b' hb'
    rw [hstore, TaskStore.task_register, if_pos rfl] at hb'
    rw [← Option.some.inj hb', hauthor]
  body_owner := by
    intro b' hb'
    rw [hstore, TaskStore.task_register, if_pos rfl] at hb'
    rw [← Option.some.inj hb', hauthor, hstore, TaskStore.peek_register, hfree]
    rfl
  body_id := by
    intro b' hb'
    rw [hstore, TaskStore.task_register, if_pos rfl] at hb'
    rw [← Option.some.inj hb', hid]
  flights := hflights
  caller := fun o ho => nomatch ho

theorem evicts_register {t : String} (h : (st.register task b).Evicts st' t) (hne : task ≠ t) :
    st.Evicts st' t := by
  rw [TaskStore.Evicts, TaskStore.task_register, if_neg hne, TaskStore.peek_register] at h
  exact h

theorem touches_reserved (hs : Owned s) (hu : Uncontended (s.launch st f))
    (hst : st = s.store.put cfg.limits
      (working (s.store.peek f.task) f.task f.context c.callerScope env.now))
    (hcaller : c.scope = some c.callerScope) (hscope : f.scope = some c.callerScope)
    (hne : f.task ≠ "") (hclaim : claimTaskId s.store f.task (some c.callerScope) = .ok ()) :
    Touches cfg s (.call c env) (s.launch st f) f.task (some c.callerScope) := by
  have hclaimed := claimTaskId_ok hne hclaim
  have hbody : ∀ b, s.store.task f.task = some b →
      b.author = some c.callerScope ∧ b.task.id = f.task := by
    intro b hb
    rcases hclaimed with ⟨-, ht⟩ | ⟨r, hr, ho⟩
    · cases ht.symm.trans hb
    · rw [hs.body_owner _ b hb, hr, ho]
      exact ⟨rfl, hs.body_id _ b hb⟩
  apply touches_put (r := working (s.store.peek f.task) f.task f.context c.callerScope env.now)
    cfg.limits rfl hst
  · exact fun t ht => TaskStore.put_evicts _ _ ht
  · intro r hr
    rcases hclaimed with ⟨hn, -⟩ | ⟨r', hr', ho⟩
    · cases hn.symm.trans hr
    · rw [← Option.some.inj (hr'.symm.trans hr)]
      exact ho
  · exact fun b hb => (hbody b hb).1
  · exact hbody
  · intro i g hg
    have h := launched_flights hu i g hg
    rwa [hscope] at h
  · exact ⟨c.callerScope, hcaller, Reads.self cfg _, fun _ => rfl⟩

theorem accepts_cancels (h : accepts cfg s c = some task) : c.request.cancels = true := by
  rw [accepts] at h
  split at h
  next hr => rw [hr]; rfl
  next hr => rw [hr]; rfl
  · cases h

theorem touches_cancelScoped (hs : Owned s) (hcaller : c.scope = some c.callerScope)
    (hget : scopedRecord cfg s.store task c.callerScope = .ok r)
    (hacc : accepts cfg s c = some task) :
    Touches cfg s (.call c env)
      (s.withStore ((s.store.register task (canceled (taskBody s.store r))).put cfg.limits
        (r.moved .canceled env.now))) task (some r.owner) := by
  have hr := (scopedRecord_ok hget).1
  have hid := TaskStore.taskId_of_peek hr
  obtain ⟨hauthor, hbid⟩ := taskBody_author hs hr
  apply touches_put (r := r.moved .canceled env.now) cfg.limits hid rfl
  · intro t ht
    exact evicts_register (TaskStore.put_evicts _ _ (hid ▸ ht)) ht
  · intro r₀ hr₀
    rw [← Option.some.inj (hr.symm.trans hr₀)]
    rfl
  · intro b hb
    rw [hs.body_owner _ b hb, hr]
    rfl
  · intro b hb
    rw [TaskStore.task_register, if_pos rfl] at hb
    rw [← Option.some.inj hb]
    exact ⟨hauthor, hbid⟩
  · intro i g hg
    by_cases ht : task = g.task
    · left
      exact ⟨ht.symm, hs.flight_record i g r hg (ht ▸ hr)⟩
    · exact Or.inr ⟨ht, i, hg⟩
  · have hreads : Reads cfg c.callerScope (some (r.moved .canceled env.now).owner) := by
      rw [TaskRecord.moved_owner]
      exact reads_of_scopedRecord hget
    refine ⟨c.callerScope, hcaller, hreads, fun hc => ?_⟩
    have hcancels := accepts_cancels hacc
    rw [Action.cancels, hcancels] at hc
    cases hc

theorem touches_cancelUnscoped (hs : Owned s) (hfree : s.store.peek task = none)
    (hstored : s.store.task task = some stored) :
    Touches cfg s a (s.withStore (s.store.register task (canceled stored))) task none := by
  have hauthor : stored.author = none := by
    rw [hs.body_owner task stored hstored, hfree]
    rfl
  apply touches_register (b := canceled stored) hs hfree hauthor (hs.body_id task stored hstored)
    rfl
  intro i g hg
  by_cases ht : task = g.task
  · left
    refine ⟨ht.symm, ?_⟩
    rw [← hs.flight_body i g stored hg (ht ▸ hstored), hauthor]
  · exact Or.inr ⟨ht, i, hg⟩

theorem caller_of_outcome {id : Nat} (hf : s.flights.get? id = some f)
    (h : f.outcome id a = some x) : a.caller s = f.scope ∧ a.cancels = false := by
  have hrun := Flight.run_of_outcome h
  cases a with
  | call c env => cases hrun
  | graph i answer env =>
    cases hrun
    rw [Action.caller, hf]
    exact ⟨rfl, rfl⟩
  | resume i env =>
    cases hrun
    rw [Action.caller, hf]
    exact ⟨rfl, rfl⟩
  | abandon i => cases h

theorem touches_completed {id : Nat} (hs : Owned s) (hf : s.flights.get? id = some f)
    (hout : f.outcome id a = some x) :
    Touches cfg s a (s.land id (completeRun cfg s.store f artifacts now)) f.task f.scope := by
  obtain ⟨hcaller, -⟩ := caller_of_outcome hf hout
  have hflights := landed_flights (completeRun cfg s.store f artifacts now) hs.uncontended hf
  cases hsc : f.scope with
  | none =>
    have hfree : s.store.peek f.task = none := by
      cases hp : s.store.peek f.task with
      | none => rfl
      | some r => cases hsc.symm.trans (hs.flight_record id f r hf hp)
    rw [hsc] at hflights
    apply touches_register (b := ⟨f.completedTask artifacts, f.scope⟩) hs hfree hsc rfl _ hflights
    simp only [Server.land, completeRun, hsc]
  | some scope =>
    rw [hsc] at hflights hcaller
    have hbody : ∀ b, (s.store.register f.task ⟨f.completedTask artifacts, some scope⟩).task
        f.task = some b → b.author = some scope ∧ b.task.id = f.task := by
      intro b hb
      rw [TaskStore.task_register, if_pos rfl] at hb
      rw [← Option.some.inj hb]
      exact ⟨rfl, rfl⟩
    have hstore : completeRun cfg s.store f artifacts now =
        (s.store.register f.task ⟨f.completedTask artifacts, some scope⟩).put cfg.limits
          (finished (s.store.peek f.task) (f.completedTask artifacts) f.context scope now) := by
      simp only [completeRun, hsc]
      rfl
    apply touches_put (r := finished (s.store.peek f.task) (f.completedTask artifacts) f.context
      scope now) cfg.limits rfl hstore
    · intro t ht
      exact evicts_register (TaskStore.put_evicts _ _ ht) ht
    · intro r hr
      exact Option.some.inj (hsc.symm.trans (hs.flight_record id f r hf hr))
    · intro b hb
      exact (hs.flight_body id f b hf hb).trans hsc
    · exact hbody
    · exact hflights
    · exact ⟨scope, hcaller, Reads.self cfg scope, fun _ => rfl⟩

theorem touches_failed {id : Nat} (hs : Owned s) (hf : s.flights.get? id = some f)
    (hout : f.outcome id a = some x) (hr : s.store.peek f.task = some r)
    (hst : st = s.store.put cfg.limits (r.moved .failed now)) :
    Touches cfg s a (s.land id st) f.task (some r.owner) := by
  obtain ⟨hcaller, -⟩ := caller_of_outcome hf hout
  have hsc := hs.flight_record id f r hf hr
  have hid := TaskStore.taskId_of_peek hr
  have hbody : ∀ b, s.store.task f.task = some b →
      b.author = some r.owner ∧ b.task.id = f.task := by
    intro b hb
    exact ⟨(hs.flight_body id f b hf hb).trans hsc, hs.body_id _ b hb⟩
  have hflights := landed_flights st hs.uncontended hf
  rw [hsc] at hflights hcaller
  apply touches_put (r := r.moved .failed now) cfg.limits hid hst
  · intro t ht
    exact TaskStore.put_evicts _ _ (hid ▸ ht)
  · intro r₀ hr₀
    rw [← Option.some.inj (hr.symm.trans hr₀)]
    rfl
  · exact fun b hb => (hbody b hb).1
  · exact hbody
  · exact hflights
  · exact ⟨r.owner, hcaller, Reads.self cfg _, fun _ => rfl⟩

theorem owned_idle (hs : Owned s) (hstore : s'.store = s.store)
    (hf : ∀ id g, s'.flights.get? id = some g →
      ∃ f, s.flights.get? id = some f ∧ g.SameRun f) (hu : Uncontended s') : Owned s' where
  uncontended := hu
  flight_record := by
    intro i g r hg hr
    obtain ⟨f, hf, htask, hscope, -⟩ := hf i g hg
    rw [hstore, htask] at hr
    exact hscope.trans (hs.flight_record i f r hf hr)
  flight_body := by
    intro i g b hg hb
    obtain ⟨f, hf, htask, hscope, -⟩ := hf i g hg
    rw [hstore, htask] at hb
    exact (hs.flight_body i f b hf hb).trans hscope.symm
  body_owner := hstore ▸ hs.body_owner
  body_id := hstore ▸ hs.body_id

theorem transition_touches (hs : Owned s) (hfresh : FreshIds s a) (ht : Transition cfg s a s')
    (hu : Uncontended s') :
    (s'.store = s.store ∧ Owned s') ∨ ∃ task owner, Touches cfg s a s' task owner := by
  cases ht with
  | idle hstore hf => exact Or.inl ⟨hstore, owned_idle hs hstore hf hu⟩
  | unscoped f hscope hfree =>
    have hpeek : s.store.peek f.task = none := by
      rcases hfree with he | hp
      · rw [he]
        exact hfresh.2.1
      · exact hp
    exact Or.inr ⟨_, _, touches_unscoped hs hpeek hscope hu⟩
  | reserved f hcaller hscope hid hclaim =>
    have hne : f.task ≠ "" := by
      rcases hid with he | hne
      · rw [he]
        exact hfresh.1
      · exact hne
    exact Or.inr ⟨_, _, touches_reserved hs hu rfl hcaller hscope hne hclaim⟩
  | cancelScoped task r hcaller hget hacc =>
    exact Or.inr ⟨_, _, touches_cancelScoped hs hcaller hget hacc⟩
  | cancelUnscoped task stored hfree hstored hacc =>
    exact Or.inr ⟨_, _, touches_cancelUnscoped hs hfree hstored⟩
  | completed id f artifacts now hf hout =>
    exact Or.inr ⟨_, _, touches_completed hs hf hout⟩
  | failed id f now hf hout =>
    rcases updateState_cases cfg s.store f.task f.scope .failed now with he | ⟨_, r, -, hr, -, he⟩
    · left
      refine ⟨he, owned_idle hs he ?_ hu⟩
      exact fun i g hg => ⟨g, land_flights hg, Flight.SameRun.refl g⟩
    · exact Or.inr ⟨_, _, touches_failed hs hf hout hr he⟩

def ReadsAll (cfg : Config) (scope : Option Scope) (resp : Server × Response) : Prop :=
  ∀ sc, scope = some sc → ∀ o ∈ resp.2.origins, Reads cfg sc o

theorem readsAll_none {scope : Option Scope} {reply : Reply} :
    ReadsAll cfg scope (s, ⟨reply, []⟩) := fun _ _ _ ho => nomatch ho

theorem readsAll_record {id : String} {b : Signed} (hs : Owned s)
    (hr : scopedRecord cfg s.store id scope = .ok r) (hb : s.store.task id = some b) :
    Reads cfg scope b.author := by
  rw [hs.body_owner id b hb, (scopedRecord_ok hr).1]
  exact reads_of_scopedRecord hr

theorem legacyGet_reads {id : String} {scope : Option Scope} (hs : Owned s) :
    ReadsAll cfg scope (legacyGet cfg s id scope) := by
  rw [legacyGet]
  cases hb : s.store.task id with
  | none => exact readsAll_none
  | some stored =>
    simp only
    split
    next hin =>
      intro sc hsc o ho
      rw [List.mem_singleton.1 ho]
      rw [hs.body_id id stored hb, hsc] at hin
      obtain ⟨r, hr⟩ := inScope_some hin
      exact readsAll_record hs hr hb
    next => exact readsAll_none

theorem legacyCancel_reads {id : String} {scope : Option Scope} (hs : Owned s) :
    ReadsAll cfg scope (legacyCancel cfg s id scope env) := by
  rw [legacyCancel]
  cases hb : s.store.task id with
  | none => exact readsAll_none
  | some stored =>
    simp only
    split
    next hin =>
      intro sc hsc o ho
      rw [List.mem_singleton.1 ho]
      rw [hsc] at hin
      obtain ⟨r, hr⟩ := inScope_some hin
      exact readsAll_record hs hr hb
    next => exact readsAll_none

theorem reads_pair {scope : Scope} (hs : Owned s) (hr : s.store.peek r.taskId = some r)
    (hreads : Reads cfg scope (some r.owner))
    (ho : o ∈ [some r.owner, (taskBody s.store r).author]) : Reads cfg scope o := by
  have hbody : (taskBody s.store r).author = some r.owner := (taskBody_author hs hr).1
  rw [hbody] at ho
  simp only [List.mem_cons, List.not_mem_nil, or_false, or_self] at ho
  rw [ho]
  exact hreads

theorem scopedRecord_self {id : String} (h : scopedRecord cfg st id scope = .ok r) :
    st.peek r.taskId = some r := by
  have hp := (scopedRecord_ok h).1
  rw [TaskStore.taskId_of_peek hp]
  exact hp

theorem v1Get_reads {id : String} {scope : Scope} (hs : Owned s) :
    ReadsAll cfg (some scope) (v1Get cfg s id n scope) := by
  rw [v1Get]
  cases hr : scopedRecord cfg s.store id scope with
  | error e => exact readsAll_none
  | ok r =>
    intro sc hsc o ho
    obtain rfl := Option.some.inj hsc
    exact reads_pair hs (scopedRecord_self hr) (reads_of_scopedRecord hr) ho

theorem v1Cancel_reads {id : String} {scope : Scope} (hs : Owned s) :
    ReadsAll cfg (some scope) (v1Cancel cfg s id scope env) := by
  rw [v1Cancel]
  cases hr : scopedRecord cfg s.store id scope with
  | error e => exact readsAll_none
  | ok r =>
    simp only
    split
    next => exact readsAll_none
    next =>
      intro sc hsc o ho
      obtain rfl := Option.some.inj hsc
      exact reads_pair hs (scopedRecord_self hr) (reads_of_scopedRecord hr) ho

theorem TaskStore.mem_matching {params : ListTasksRequest} {org principal : Option String}
    (h : st.matching org params principal = .ok found) (hr : r ∈ found) :
    st.peek r.taskId = some r ∧ r.orgId = org ∧ ∀ p, principal = some p → r.principal = some p := by
  obtain ⟨after, -, h⟩ := except_bind_ok h
  rw [except_pure_ok h, List.mem_mergeSort, List.mem_filter, Dict.values, List.mem_map] at hr
  obtain ⟨⟨⟨k, r'⟩, hmem, rfl⟩, hm⟩ := hr
  have hp : st.peek k = some r' := Dict.get?_eq_some.2 hmem
  simp only [matches?, Bool.and_eq_true, decide_eq_true_eq] at hm
  refine ⟨by rw [taskId_of_peek hp]; exact hp, hm.1.1.1.1, fun p he => ?_⟩
  have hprin := hm.1.1.1.2
  rw [he, Option.all_some, decide_eq_true_eq] at hprin
  exact hprin

theorem TaskStore.mem_list {limits : StoreLimits} {params : ListTasksRequest}
    {org principal : Option String} (h : st.list limits org params principal = .ok (page, token))
    (hr : r ∈ page) :
    st.peek r.taskId = some r ∧ r.orgId = org ∧ ∀ p, principal = some p → r.principal = some p := by
  obtain ⟨found, hfound, h⟩ := except_bind_ok h
  obtain ⟨records, hrecords, h⟩ := except_bind_ok h
  obtain ⟨rfl, -⟩ := Prod.mk.inj (except_pure_ok h)
  have hmem := List.mem_of_mem_take hr
  apply mem_matching hfound
  rw [beforeCursor.eq_def] at hrecords
  split at hrecords
  next => exact Except.ok.inj hrecords ▸ hmem
  next => cases hrecords
  next =>
    rw [← Except.ok.inj hrecords] at hmem
    exact (List.mem_filter.1 hmem).1

theorem v1List_reads {scope : Scope} {params : ListTasksRequest} (hs : Owned s) :
    ReadsAll cfg (some scope) (v1List cfg s params scope) := by
  simp only [v1List]
  split
  next records token total hlist hcount =>
    have horigins : ∀ o ∈ records.flatMap fun r => [some r.owner, (taskBody s.store r).author],
        Reads cfg scope o := by
      intro o ho
      obtain ⟨r, hr, ho⟩ := List.mem_flatMap.1 ho
      obtain ⟨hpeek, horg, hprincipal⟩ := TaskStore.mem_list hlist hr
      exact reads_pair hs hpeek ⟨r.owner, rfl, horg, hprincipal⟩ ho
    split <;>
    · intro sc hsc o ho
      obtain rfl := Option.some.inj hsc
      exact horigins o ho
  · exact readsAll_none
  · exact readsAll_none

theorem legacySend_reads {scope : Option Scope} :
    ReadsAll cfg scope' (legacySend cfg s stream taskId text scope env) := by
  rw [legacySend]
  cases claimLegacySend cfg s.store taskId scope env with
  | error e => exact readsAll_none
  | ok store => exact readsAll_none

theorem v1Send_reads {scope : Scope} :
    ReadsAll cfg scope' (v1Send cfg s stream message n scope env) := by
  simp only [v1Send]
  split
  · exact readsAll_none
  · exact readsAll_none

theorem forTenant_reads {f : Server × Response} (h : ReadsAll cfg scope f) :
    ReadsAll cfg scope (forTenant s tenant scope' f) := by
  rw [forTenant]
  split
  · exact h
  · exact readsAll_none

theorem handle_reads (hs : Owned s) : ReadsAll cfg c.scope (handle cfg s c env) := by
  rw [handle]
  split
  next =>
    cases hreq : c.request with
    | legacySend stream taskId text => exact legacySend_reads
    | legacyGet id =>
      simp only [Call.scope, hreq]
      exact legacyGet_reads hs
    | legacyCancel id =>
      simp only [Call.scope, hreq]
      exact legacyCancel_reads hs
    | v1Send stream tenant message n => exact forTenant_reads v1Send_reads
    | v1Get tenant id n =>
      simp only [Call.scope, hreq]
      exact forTenant_reads (v1Get_reads hs)
    | v1Cancel tenant id =>
      simp only [Call.scope, hreq]
      exact forTenant_reads (v1Cancel_reads hs)
    | v1List params =>
      simp only [Call.scope, hreq]
      exact forTenant_reads (v1List_reads hs)
  next => exact readsAll_none

theorem readsAll_own {reply : Reply} {scope : Option Scope} :
    ReadsAll cfg scope (s, ⟨reply, [scope]⟩) := by
  intro sc hsc o ho
  rw [List.mem_singleton.1 ho, hsc]
  exact Reads.self cfg sc

theorem graphAnswered_reads {id : Nat} :
    ReadsAll cfg f.scope (graphAnswered cfg s id f text env) := by
  rw [graphAnswered]
  split
  · exact readsAll_none
  · exact readsAll_none
  · exact readsAll_own
  · exact readsAll_own
  · exact readsAll_own

theorem graphRaised_reads {id : Nat} : ReadsAll cfg f.scope (graphRaised cfg s id f env) := by
  rw [graphRaised]
  split <;> exact readsAll_none

theorem resumed_reads {id : Nat} : ReadsAll cfg f.scope (resumed cfg s id f env) := by
  rw [resumed]
  split
  · exact readsAll_none
  · exact readsAll_own
  · exact readsAll_none
  · exact readsAll_none

theorem onFlight_reads {id : Nat} {run : Flight → Server × Response}
    (h : ∀ f, ReadsAll cfg f.scope (run f)) :
    ReadsAll cfg ((s.flights.get? id).bind Flight.scope) (onFlight s id run) := by
  rw [onFlight]
  cases s.flights.get? id with
  | none => exact readsAll_none
  | some f => exact h f

theorem step_reads (hs : Owned s) (a : Action) : ReadsAll cfg (a.caller s) (step cfg s a) := by
  cases a with
  | call c env => exact handle_reads hs
  | abandon id => exact readsAll_none
  | resume id env => exact onFlight_reads fun _ => resumed_reads
  | graph id answer env =>
    cases answer with
    | none => exact onFlight_reads fun _ => graphRaised_reads
    | some text => exact onFlight_reads fun _ => graphAnswered_reads

theorem owned_init : Owned {} where
  uncontended := fun _ _ _ _ hf => nomatch hf
  flight_record := fun _ _ _ hf => nomatch hf
  flight_body := fun _ _ _ hf => nomatch hf
  body_owner := fun _ _ hb => nomatch hb
  body_id := fun _ _ hb => nomatch hb

/-- Owners are isolated from each other on every schedule on which no task id is claimed while a
run of another owner is in flight for it. -/
theorem owners_isolated (cfg : Config) (acts : List Action)
    (h : Along (next cfg) (Separate cfg) {} acts) :
    Along (next cfg) (fun s a _ => Isolated cfg s a) {} acts := by
  apply Along.of_invariant (I := fun s _ => Owned s) owned_init _ h
  intro s a rest hs hC
  obtain ⟨hfresh, hu⟩ := hC
  have horigins : ∀ scope, a.caller s = some scope → ∀ o ∈ (step cfg s a).2.origins,
      Reads cfg scope o := step_reads hs a
  rcases transition_touches hs hfresh (next_transition cfg s a) hu with
    ⟨hstore, hs'⟩ | ⟨task, owner, ht⟩
  · refine ⟨⟨horigins, ?_, ?_⟩, hs'⟩
    · intro t r r' hr hr'
      rw [hstore, hr] at hr'
      exact Or.inl (Option.some.inj hr').symm
    · intro t b b' hb hb'
      rw [hstore, hb] at hb'
      rw [Option.some.inj hb']
  · exact ⟨⟨horigins, fun t r r' hr hr' => ht.records hr hr', fun t b b' hb hb' =>
      ht.bodies hb hb'⟩, ht.owned hs hu⟩

theorem uncontended_of_single (h : s.flights.entries.length ≤ 1) : Uncontended s := by
  intro i j f g hf hg _
  have hf' := Dict.get?_eq_some.1 hf
  have hg' := Dict.get?_eq_some.1 hg
  match he : s.flights.entries, h with
  | [], _ => rw [he] at hf'; cases hf'
  | [e], _ =>
    rw [he, List.mem_singleton] at hf' hg'
    rw [(Prod.mk.inj (hf'.trans hg'.symm)).2]

/-- A request of a principal of the tenant `acme`. -/
def memberCall (subject : String) (request : Request) : Action :=
  .call ⟨request, true, some ⟨true, some subject⟩, some "acme"⟩
    { now := 0, taskUuid := "u1", contextUuid := "u2", messageUuid := "u3" }

def aliceSends : Action :=
  memberCall "alice" (.v1Send false none
    ⟨"m1", .user, [{ content := .text "hi" }], none, some "t1"⟩ none)

def graphAnswers : Action := .graph 0 (some "done") { now := 1 }

def memberGets (subject : String) : Action := memberCall subject (.v1Get none "t1" none)

theorem owners_isolated_strict :
    Along (next { strict := true }) (Separate { strict := true }) {}
        [aliceSends, graphAnswers, memberGets "alice", memberGets "bob"] ∧
      Along (next { strict := true }) (fun s a _ => Isolated { strict := true } s a) {}
        [aliceSends, graphAnswers, memberGets "alice", memberGets "bob"] := by
  have h : Along (next { strict := true }) (Separate { strict := true }) {}
      [aliceSends, graphAnswers, memberGets "alice", memberGets "bob"] := by
    refine ⟨⟨⟨by decide, rfl, rfl⟩, ?_⟩, ⟨trivial, ?_⟩, ⟨⟨by decide, rfl, rfl⟩, ?_⟩,
      ⟨⟨by decide, rfl, rfl⟩, ?_⟩, along_nil⟩
    all_goals exact uncontended_of_single (by decide)
  exact ⟨h, owners_isolated _ _ h⟩

/-- Without strict mode another principal of the tenant reads a task that it did not send. -/
theorem colleague_reads_task :
    ¬ ∀ cfg acts, Along (next cfg) (fun s a _ => ∀ scope, a.caller s = some scope →
      ∀ o ∈ (step cfg s a).2.origins, o = some scope) {} acts := by
  intro h
  obtain ⟨-, -, h, -⟩ := h {} [aliceSends, graphAnswers, memberGets "bob"]
  have hbob := h ⟨some "acme", some "bob"⟩ rfl (some ⟨some "acme", some "alice"⟩)
    (by decide)
  revert hbob
  decide

end Prismal.A2A
