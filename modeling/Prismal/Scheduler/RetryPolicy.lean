import Prismal.Scheduler.Executor

namespace Prismal.Scheduler
open Prismal.Lib
set_option autoImplicit true

/-! What the run history, the notices and the retry counts of the executor add up to. -/

def Effect.outcome? : Effect → Option RunOutcome
  | .record outcome _ _ => some outcome
  | _ => none

def Effect.resets? : Effect → Option Bool
  | .record .success _ _ => some true
  | .failureNotice _ => some true
  | .attempt _ _ => some false
  | _ => none

def Effect.isAftermath : Effect → Bool
  | .failureNotice _ => true
  | .attempt _ _ => true
  | _ => false

namespace Executor

def effectsOf (s : Executor) (x : Nat) : List Effect :=
  (s.log.filter fun e => decide (e.execution = x)).map Logged.effect

def recordsOf (s : Executor) (x : Nat) : List RunOutcome :=
  (s.effectsOf x).filterMap Effect.outcome?

/-- Whether the last thing that set the retry count of a job set it to zero: a success, a permanent
error or exhaustion. -/
def lastReset (s : Executor) (name : String) : Option Bool :=
  ((s.log.filter fun e => decide (e.job = name)).filterMap fun e => e.effect.resets?).getLast?

structure Accounted (s : Executor) : Prop where
  once : ∀ x e, s.executions[x]? = some e →
    (s.recordsOf x).length = if e.phase = .agent then 0 else 1
  kept : ∀ x, .success ∈ s.recordsOf x → ∀ effect ∈ s.effectsOf x, effect.isAftermath = false
  counted : ∀ name job, s.jobs.get? name = some job → job.retryCount ≤ job.maxRetries
  reset : ∀ name job, s.jobs.get? name = some job → s.lastReset name = some true →
    job.retryCount = 0

structure Fresh (s : Executor) : Prop where
  executions : s.executions = []
  log : s.log = []
  counted : ∀ name job, s.jobs.get? name = some job → job.retryCount ≤ job.maxRetries

def NoticeRaises (s : Executor) (a : Action) : Prop :=
  ∃ x error now name task output, a = .noticeReturns x (some error) now ∧
    s.executions[x]? = some ⟨name, task, .notice output⟩

def Consistent (effects : List Effect) : Phase → Prop
  | .agent => effects = []
  | .notice _ => effects.filterMap Effect.outcome? = [.success] ∧
      ∀ effect ∈ effects, effect.isAftermath = false
  | .delivery _ => effects.filterMap Effect.outcome? = [.success] ∧
      ∀ effect ∈ effects, effect.isAftermath = false
  | .alert => effects.filterMap Effect.outcome? = [.failure]
  | .done => effects.filterMap Effect.outcome? = [.failure] ∨
      effects.filterMap Effect.outcome? = [.success] ∧
        ∀ effect ∈ effects, effect.isAftermath = false

/-- An answer that a run gets, and what it does then. -/
inductive Moves : Phase → List Effect → Phase → Prop where
  | succeed : Moves .agent [.record .success output none, .successNotice output] (.notice output)
  | giveUp : Moves .agent [.record .failure none (some error), .failureNotice error] .alert
  | retry : Moves .agent [.record .failure none (some error), .attempt count runAt] .done
  | deliver : Moves (.notice output) [.delivery channel target text] (.delivery once)
  | skip : Moves (.notice output) [] .done
  | delivered : Moves (.delivery once) [] .done
  | alerted : Moves .alert [] .done

theorem Moves.consistent (h : Moves p new p') (hc : Consistent old p) :
    Consistent (old ++ new) p' := by
  cases h with
  | succeed =>
    cases hc
    exact ⟨rfl, by simp [Effect.isAftermath]⟩
  | giveUp =>
    cases hc
    rfl
  | retry =>
    cases hc
    exact Or.inl rfl
  | deliver =>
    refine ⟨by rw [List.filterMap_append, hc.1]; rfl, ?_⟩
    intro effect he
    rcases List.mem_append.1 he with he | he
    · exact hc.2 effect he
    · rw [List.mem_singleton.1 he]
      rfl
  | skip =>
    rw [List.append_nil]
    exact Or.inr hc
  | delivered =>
    rw [List.append_nil]
    exact Or.inr hc
  | alerted =>
    rw [List.append_nil]
    exact Or.inl hc

/-- What a step does to the runs and to the log: nothing, a run is started, or a run moves on. -/
inductive Ledger (s : Executor) : List Execution → List Logged → Prop where
  | same : Ledger s s.executions s.log
  | started (e : Execution) (h : e.phase = .agent) : Ledger s (s.executions ++ [e]) s.log
  | moved (h : s.executions[x]? = some e) (hm : Moves e.phase effects phase) :
      Ledger s (s.executions.modify x fun e => { e with phase := phase })
        (s.log ++ effects.map fun effect => ⟨x, e.job, effect⟩)

/-- The books of a state: every run has done what its phase says, under its own job. -/
structure Booked (s : Executor) : Prop where
  consistent : ∀ x e, s.executions[x]? = some e → Consistent (s.effectsOf x) e.phase
  known : ∀ e ∈ s.log, e.execution < s.executions.length

variable {l : Letters} {s : Executor}

/-! The ledger. -/

theorem ledger_fail (hx : s.executions[x]? = some ⟨name, task, .agent⟩) (error : String)
    (now : Int) : Ledger s (s.fail l x name task error now).executions
      (s.fail l x name task error now).log := by
  rcases fail_cases l s x name task error now with h | ⟨job, -, -, h⟩
  · rw [h, giveUp, act, executions_setRetryCount, log_setRetryCount]
    exact .moved hx .giveUp
  · rw [h, executions_retry, log_retry]
    exact .moved hx .retry

theorem ledger_finish (hx : s.executions[x]? = some e) (hm : Moves e.phase [] .done)
    (once : Bool) : Ledger s (s.finish x e.job once).executions (s.finish x e.job once).log :=
  .moved hx hm

theorem ledger_step (l : Letters) (s : Executor) (a : Action) (h : ¬ s.NoticeRaises a) :
    Ledger s (step l s a).executions (step l s a).log := by
  cases a with
  | fire id =>
    rw [step, fire]
    split
    · exact .same
    · split
      · exact .same
      · exact .started _ rfl
  | agentReturns x outcome now =>
    rw [step]
    split
    · next name task hx =>
      split
      · exact ledger_fail hx _ now
      · rw [succeed, act, executions_setRetryCount, log_setRetryCount, executions_updateLastRun,
          log_updateLastRun]
        exact .moved hx .succeed
    · exact .same
  | noticeReturns x raised now =>
    rw [step]
    split
    · next name task output hx =>
      cases raised with
      | some error => exact absurd ⟨x, error, now, name, task, output, rfl, hx⟩ h
      | none =>
        rcases deliver_cases s x name output with ⟨once, hs⟩ | ⟨channel, target, text, once, hs⟩
        · dsimp only
          rw [hs]
          exact ledger_finish hx .skip once
        · dsimp only
          rw [hs]
          exact .moved hx .deliver
    · exact .same
  | deliveryReturns x raised =>
    rw [step]
    split
    · next name task once hx => exact ledger_finish hx .delivered once
    · exact .same
  | alertReturns x raised =>
    rw [step]
    split
    · next name task hx => exact .moved hx .alerted
    · exact .same
  | managerAdd job =>
    rw [step, managerAdd]
    split <;> exact .same
  | managerRemove name => exact .same
  | addJob job expired =>
    rw [step, registerJob]
    split <;> exact .same
  | removeJob name => exact .same
  | pauseJob name =>
    rw [step, pauseJob]
    split <;> exact .same
  | resumeJob name expired =>
    rw [step, resumeJob]
    split
    · exact .same
    · split <;> exact .same

theorem effectsOf_append {s' : Executor} {effects : List Effect}
    (h : s'.log = s.log ++ effects.map fun effect => ⟨x, name, effect⟩) (y : Nat) :
    s'.effectsOf y = s.effectsOf y ++ if x = y then effects else [] := by
  rw [effectsOf, h, List.filter_append, List.map_append, ← effectsOf]
  congr 1
  split
  · next heq =>
    rw [List.filter_eq_self.2, List.map_map]
    · exact List.map_id effects
    · intro e he
      obtain ⟨effect, -, rfl⟩ := List.mem_map.1 he
      exact decide_eq_true heq
  · next hne =>
    rw [List.filter_eq_nil_iff.2, List.map_nil]
    intro e he
    obtain ⟨effect, -, rfl⟩ := List.mem_map.1 he
    rw [decide_eq_true_eq]
    exact hne

theorem Booked.effectsOf_new (h : s.Booked) : s.effectsOf s.executions.length = [] := by
  rw [effectsOf, List.filter_eq_nil_iff.2, List.map_nil]
  intro e he
  rw [decide_eq_true_eq]
  exact Nat.ne_of_lt (h.known e he)

theorem Ledger.booked {s' : Executor} (h : Ledger s es lg) (hex : s'.executions = es)
    (hlog : s'.log = lg) (hb : s.Booked) : s'.Booked := by
  cases h with
  | same =>
    refine ⟨fun x e hx => ?_, fun e he => ?_⟩
    · rw [effectsOf, hlog]
      exact hb.consistent x e (hex ▸ hx)
    · rw [hex]
      exact hb.known e (hlog ▸ he)
  | started e' hphase =>
    refine ⟨fun x e hx => ?_, fun e he => ?_⟩
    · rw [effectsOf, hlog, ← effectsOf]
      rw [hex, List.getElem?_append] at hx
      split at hx
      · exact hb.consistent x e hx
      · next hlt =>
        obtain ⟨hlen, heq⟩ := List.getElem?_eq_some_iff.1 hx
        have hxlen : x = s.executions.length := by
          rw [List.length_singleton] at hlen
          omega
        rw [hxlen, hb.effectsOf_new, ← heq]
        subst hxlen
        simp only [Nat.sub_self, List.getElem_cons_zero, hphase]
        rfl
    · rw [hex, List.length_append]
      exact Nat.lt_add_right _ (hb.known e (hlog ▸ he))
  | moved hx hm =>
    refine ⟨fun y e hy => ?_, fun e he => ?_⟩
    · rw [effectsOf_append hlog]
      rw [hex, List.getElem?_modify] at hy
      split at hy
      · next heq =>
        subst heq
        rw [hx] at hy
        cases hy
        rw [if_pos rfl]
        exact hm.consistent (hb.consistent _ _ hx)
      · next hne =>
        rw [if_neg hne, List.append_nil]
        exact hb.consistent y e (by simpa using hy)
    · rw [hex, List.length_modify]
      rw [hlog] at he
      rcases List.mem_append.1 he with he | he
      · exact hb.known e he
      · obtain ⟨effect, -, rfl⟩ := List.mem_map.1 he
        exact (List.getElem?_eq_some_iff.1 hx).1

theorem Booked.length_recordsOf (h : s.Booked) (hx : s.executions[x]? = some e) :
    (s.recordsOf x).length = if e.phase = .agent then 0 else 1 := by
  have hc := h.consistent x e hx
  rw [recordsOf]
  cases hp : e.phase with
  | agent =>
    rw [hp] at hc
    rw [Consistent] at hc
    rw [hc]
    rfl
  | notice output =>
    rw [hp] at hc
    rw [hc.1]
    rfl
  | delivery once =>
    rw [hp] at hc
    rw [hc.1]
    rfl
  | alert =>
    rw [hp] at hc
    rw [Consistent] at hc
    rw [hc]
    rfl
  | done =>
    rw [hp] at hc
    rcases hc with hc | hc
    · rw [hc]
      rfl
    · rw [hc.1]
      rfl

theorem Booked.kept (h : s.Booked) (hsuccess : .success ∈ s.recordsOf x) :
    ∀ effect ∈ s.effectsOf x, effect.isAftermath = false := by
  cases hx : s.executions[x]? with
  | none =>
    intro effect heffect
    obtain ⟨e, he, -⟩ := List.mem_map.1 heffect
    obtain ⟨hmem, hexec⟩ := List.mem_filter.1 he
    have hlt := h.known e hmem
    rw [of_decide_eq_true hexec] at hlt
    rw [List.getElem?_eq_none_iff] at hx
    omega
  | some e =>
    have hc := h.consistent x e hx
    rw [recordsOf] at hsuccess
    cases hp : e.phase with
    | agent =>
      rw [hp] at hc
      rw [Consistent] at hc
      rw [hc]
      exact List.forall_mem_nil _
    | notice output =>
      rw [hp] at hc
      exact hc.2
    | delivery once =>
      rw [hp] at hc
      exact hc.2
    | alert =>
      rw [hp] at hc
      rw [Consistent] at hc
      rw [hc] at hsuccess
      cases List.mem_singleton.1 hsuccess
    | done =>
      rw [hp] at hc
      rcases hc with hc | hc
      · rw [hc] at hsuccess
        cases List.mem_singleton.1 hsuccess
      · exact hc.2

/-! The retry counts. -/

def Recounts (s s' : Executor) : Prop :=
  ∀ n job', s'.jobs.get? n = some job' → job'.retryCount = 0 ∨
    ∃ job, s.jobs.get? n = some job ∧ job'.maxRetries = job.maxRetries ∧
      (job'.retryCount = job.retryCount ∧ s'.lastReset n = s.lastReset n ∨
        job.retryCount < job.maxRetries ∧ job'.retryCount = job.retryCount + 1 ∧
          s'.lastReset n = some false)

theorem lastReset_append {s' : Executor} {effects : List Effect}
    (h : s'.log = s.log ++ effects.map fun effect => ⟨x, name, effect⟩) (n : String) :
    s'.lastReset n = if name = n then (effects.filterMap Effect.resets?).getLast?.or (s.lastReset n)
      else s.lastReset n := by
  rw [lastReset, h, List.filter_append, List.filterMap_append]
  split
  · next heq =>
    rw [List.getLast?_append, ← lastReset]
    congr 2
    rw [List.filter_eq_self.2, List.filterMap_map]
    · rfl
    · intro e he
      obtain ⟨effect, -, rfl⟩ := List.mem_map.1 he
      exact decide_eq_true heq
  · next hne =>
    have hnone : ((effects.map fun effect => (⟨x, name, effect⟩ : Logged)).filter fun e =>
        decide (e.job = n)) = [] := by
      rw [List.filter_eq_nil_iff]
      intro e he
      obtain ⟨effect, -, rfl⟩ := List.mem_map.1 he
      rw [decide_eq_true_eq]
      exact hne
    rw [hnone, List.filterMap_nil, List.append_nil, ← lastReset]

theorem recounts_of_kept {s' : Executor} (hjobs : ∀ n job, s'.jobs.get? n = some job →
    s.jobs.get? n = some job) (hlog : ∀ n, s'.lastReset n = s.lastReset n) : Recounts s s' :=
  fun n job h => Or.inr ⟨job, hjobs n job h, rfl, Or.inl ⟨rfl, hlog n⟩⟩

theorem recounts_of_reset {s' : Executor} {effects : List Effect} (name : String)
    (hjobs : ∀ n, name ≠ n → s'.jobs.get? n = s.jobs.get? n)
    (hzero : ∀ job, s'.jobs.get? name = some job → job.retryCount = 0)
    (hlog : s'.log = s.log ++ effects.map fun effect => ⟨x, name, effect⟩) : Recounts s s' := by
  intro n job h
  by_cases hn : name = n
  · subst hn
    exact Or.inl (hzero job h)
  · rw [hjobs n hn] at h
    refine Or.inr ⟨job, h, rfl, Or.inl ⟨rfl, ?_⟩⟩
    rw [lastReset_append hlog, if_neg hn]

theorem recounts_giveUp (s : Executor) (x : Nat) (name error : String) :
    Recounts s (s.giveUp x name error) := by
  apply recounts_of_reset name
  · intro n hn
    exact (get?_setRetryCount s name n 0).trans (if_neg hn)
  · intro job hjob
    have hget := (get?_setRetryCount s name name 0).symm.trans hjob
    rw [if_pos rfl, Option.map_eq_some_iff] at hget
    obtain ⟨old, -, rfl⟩ := hget
    rfl
  · rw [giveUp, act, log_setRetryCount]

theorem recounts_succeed (s : Executor) (x : Nat) (name : String) (output : Option String)
    (now : Int) : Recounts s (s.succeed x name output now) := by
  apply recounts_of_reset name
  · intro n hn
    have hget := get?_setRetryCount (s.updateLastRun name now) name n 0
    rw [if_neg hn, get?_updateLastRun, if_neg hn] at hget
    exact hget
  · intro job hjob
    have hget := (get?_setRetryCount (s.updateLastRun name now) name name 0).symm.trans hjob
    rw [if_pos rfl, Option.map_eq_some_iff] at hget
    obtain ⟨old, -, rfl⟩ := hget
    rfl
  · rw [succeed, act, log_setRetryCount, log_updateLastRun]

theorem recounts_retry (x : Nat) (task error : String) (now : Int)
    (hjob : s.jobs.get? name = some job) (hlt : job.retryCount < job.maxRetries) :
    Recounts s (s.retry x name task error job now) := by
  intro n job' h
  rw [jobs_retry, get?_setRetryCount] at h
  have hlog := lastReset_append (log_retry s x name task error job now) n
  right
  split at h
  · next heq =>
    subst heq
    rw [hjob, Option.map_some, Option.some.injEq] at h
    subst h
    rw [if_pos rfl] at hlog
    exact ⟨job, hjob, rfl, Or.inr ⟨hlt, rfl, hlog⟩⟩
  · next hne =>
    rw [if_neg hne] at hlog
    exact ⟨job', h, rfl, Or.inl ⟨rfl, hlog⟩⟩

theorem recounts_fail (l : Letters) (s : Executor) (x : Nat) (name task error : String)
    (now : Int) : Recounts s (s.fail l x name task error now) := by
  rcases fail_cases l s x name task error now with h | ⟨job, hjob, hlt, h⟩
  · rw [h]
    exact recounts_giveUp s x name error
  · rw [h]
    exact recounts_retry x task error now hjob hlt

theorem lastReset_act (s : Executor) (x : Nat) (name : String) {effects : List Effect}
    (h : effects.filterMap Effect.resets? = []) (phase : Phase) (n : String) :
    (s.act x name effects phase).lastReset n = s.lastReset n := by
  have hlog : (s.act x name effects phase).log =
      s.log ++ effects.map fun effect => ⟨x, name, effect⟩ := rfl
  rw [lastReset_append hlog, h]
  split <;> rfl

theorem recounts_finish (s : Executor) (x : Nat) (name : String) (once : Bool) :
    Recounts s (s.finish x name once) := by
  apply recounts_of_kept
  · intro n job h
    cases once with
    | false => exact h
    | true =>
      rw [finish] at h
      dsimp only [act] at h
      rw [if_pos rfl] at h
      exact Dict.get?_of_get?_erase h
  · exact lastReset_act { s with jobs := if once then s.jobs.erase name else s.jobs } x name rfl _

theorem recounts_step (l : Letters) (s : Executor) (a : Action) : Recounts s (step l s a) := by
  have hrefl : Recounts s s := recounts_of_kept (fun _ _ h => h) fun _ => rfl
  cases a with
  | fire id =>
    rw [step, fire]
    split
    · exact hrefl
    · split
      · exact hrefl
      · exact recounts_of_kept (fun _ _ h => h) fun _ => rfl
  | agentReturns x outcome now =>
    rw [step]
    split
    · split
      · exact recounts_fail l s x _ _ _ now
      · exact recounts_succeed s x _ _ now
    · exact hrefl
  | noticeReturns x raised now =>
    rw [step]
    split
    · next name task output hx =>
      cases raised with
      | some error => exact recounts_fail l s x name task error now
      | none =>
        dsimp only
        rcases deliver_cases s x name output with ⟨once, hs⟩ | ⟨channel, target, text, once, hs⟩
        · rw [hs]
          exact recounts_finish s x name once
        · rw [hs]
          exact recounts_of_kept (fun _ _ h => h) (lastReset_act s x name rfl _)
    · exact hrefl
  | deliveryReturns x raised =>
    rw [step]
    split
    · exact recounts_finish s x _ _
    · exact hrefl
  | alertReturns x raised =>
    rw [step]
    split
    · exact recounts_of_kept (fun _ _ h => h) (lastReset_act s x _ rfl _)
    · exact hrefl
  | managerAdd job =>
    rw [step, managerAdd]
    split
    · exact hrefl
    · intro n job' h
      dsimp only at h
      rw [Dict.get?_set] at h
      split at h
      · cases h
        exact Or.inl rfl
      · exact Or.inr ⟨job', h, rfl, Or.inl ⟨rfl, rfl⟩⟩
  | managerRemove name =>
    apply recounts_of_kept
    · intro n job h
      rw [step] at h
      exact Dict.get?_of_get?_erase h
    · exact fun _ => rfl
  | addJob job expired =>
    rw [step, registerJob]
    split
    · apply recounts_of_kept
      · intro n job' h
        exact Dict.get?_of_get?_erase h
      · exact fun _ => rfl
    · exact recounts_of_kept (fun _ _ h => h) fun _ => rfl
  | removeJob name => exact recounts_of_kept (fun _ _ h => h) fun _ => rfl
  | pauseJob name =>
    rw [step, pauseJob]
    split
    · exact hrefl
    · exact recounts_of_kept (fun _ _ h => h) fun _ => rfl
  | resumeJob name expired =>
    rw [step, resumeJob]
    split
    · exact hrefl
    · split
      · exact recounts_of_kept (fun _ _ h => h) fun _ => rfl
      · exact recounts_of_kept (fun _ _ h => h) fun _ => rfl

/-! Runs of the executor. -/

/-- What every step keeps, as long as no success notice raises. -/
structure Orderly (s : Executor) : Prop where
  booked : s.Booked
  counted : ∀ name job, s.jobs.get? name = some job → job.retryCount ≤ job.maxRetries
  reset : ∀ name job, s.jobs.get? name = some job → s.lastReset name = some true →
    job.retryCount = 0

theorem Orderly.accounted (h : s.Orderly) : s.Accounted where
  once _ _ hx := h.booked.length_recordsOf hx
  kept _ hsuccess := h.booked.kept hsuccess
  counted := h.counted
  reset := h.reset

theorem Fresh.orderly (h : s.Fresh) : s.Orderly where
  booked := by
    constructor
    · intro x e hx
      rw [h.executions] at hx
      cases hx
    · intro e he
      rw [h.log] at he
      cases he
  counted := h.counted
  reset name job _ hreset := by
    rw [lastReset, h.log] at hreset
    cases hreset

theorem Orderly.step (h : s.Orderly) (l : Letters) (ha : ¬ s.NoticeRaises a) :
    (step l s a).Orderly where
  booked := (ledger_step l s a ha).booked rfl rfl h.booked
  counted name job hjob := by
    rcases recounts_step l s a name job hjob with hzero | ⟨old, hold, hmax, hcount⟩
    · rw [hzero]
      exact Nat.zero_le _
    · rw [hmax]
      rcases hcount with ⟨hsame, -⟩ | ⟨hlt, hmore, -⟩
      · rw [hsame]
        exact h.counted name old hold
      · rw [hmore]
        exact hlt
  reset name job hjob hreset := by
    rcases recounts_step l s a name job hjob with hzero | ⟨old, hold, hmax, hcount⟩
    · exact hzero
    · rcases hcount with ⟨hsame, hlast⟩ | ⟨hlt, hmore, hlast⟩
      · rw [hsame]
        exact h.reset name old hold (hlast ▸ hreset)
      · rw [hlast] at hreset
        cases hreset

theorem log_fail (l : Letters) (s : Executor) (x : Nat) (name task error : String) (now : Int) :
    ∃ after, Effect.outcome? after = none ∧ (s.fail l x name task error now).log =
      s.log ++ [.record .failure none (some error), after].map fun effect => ⟨x, name, effect⟩ := by
  rcases fail_cases l s x name task error now with h | ⟨job, -, -, h⟩
  · refine ⟨.failureNotice error, rfl, ?_⟩
    rw [h, giveUp, act, log_setRetryCount]
  · refine ⟨.attempt (job.retryCount + 1) (retryAt job now), rfl, ?_⟩
    rw [h, log_retry]

theorem recordsOf_fail (l : Letters) (s : Executor) (x : Nat) (name task error : String)
    (now : Int) : (s.fail l x name task error now).recordsOf x = s.recordsOf x ++ [.failure] := by
  obtain ⟨after, hafter, hlog⟩ := log_fail l s x name task error now
  rw [recordsOf, effectsOf_append hlog, if_pos rfl, List.filterMap_append, ← recordsOf]
  have hrecord : Effect.outcome? (.record .failure none (some error)) = some .failure := rfl
  rw [List.filterMap_cons_some hrecord, List.filterMap_cons_none hafter, List.filterMap_nil]

theorem fail_phase (l : Letters) (hx : s.executions[x]? = some e) (name task error : String)
    (now : Int) : ∃ e', (s.fail l x name task error now).executions[x]? = some e' ∧
      e'.phase ≠ .agent := by
  rcases fail_cases l s x name task error now with h | ⟨job, -, -, h⟩
  · rw [h, giveUp, act, executions_setRetryCount, List.getElem?_modify_eq, hx]
    exact ⟨_, rfl, fun hp => by cases hp⟩
  · rw [h, executions_retry, List.getElem?_modify_eq, hx]
    exact ⟨_, rfl, fun hp => by cases hp⟩

theorem Orderly.not_accounted (h : s.Orderly) (l : Letters) (ha : s.NoticeRaises a) :
    ¬ (Executor.step l s a).Accounted := by
  obtain ⟨x, error, now, name, task, output, rfl, hx⟩ := ha
  intro hacc
  have hstep : Executor.step l s (.noticeReturns x (some error) now) =
      s.fail l x name task error now := by
    rw [Executor.step, hx]
  have hrecords : s.recordsOf x = [.success] := (h.booked.consistent x _ hx).1
  obtain ⟨e, he, hphase⟩ := fail_phase l hx name task error now
  have honce := (hstep ▸ hacc).once x e he
  rw [recordsOf_fail, hrecords, if_neg hphase] at honce
  cases honce

/-- The retry policy holds after every step of a run exactly when no success notice raises. -/
theorem accounted_iff (l : Letters) (h : s.Fresh) (acts : List Action) :
    Run.Along (step l) (fun s a _ => (step l s a).Accounted) s acts ↔
      Run.Along (step l) (fun s a _ => ¬ s.NoticeRaises a) s acts := by
  have horderly := h.orderly
  clear h
  induction acts generalizing s with
  | nil => exact Iff.rfl
  | cons a rest ih =>
    rw [Run.along_cons, Run.along_cons]
    have hiff : (step l s a).Accounted ↔ ¬ s.NoticeRaises a := by
      constructor
      · intro hacc hraises
        exact horderly.not_accounted l hraises hacc
      · intro hquiet
        exact (horderly.step l hquiet).accounted
    rw [hiff]
    apply and_congr_right
    intro hquiet
    exact ih (horderly.step l hquiet)

def plain : Letters := ⟨id, (· == ·)⟩

def digest : CronJob where
  name := "digest"
  schedule := "0 9 * * *"
  task := "summarise the news"
  maxRetries := 1

def digestFired : List Action := [.managerAdd digest, .addJob digest false, .fire "digest"]

def digestRetried : List Action :=
  digestFired ++ [.agentReturns 0 (.raised "timeout") 100, .fire "digest_retry_1",
    .agentReturns 1 (.result (some "no news")) 160, .noticeReturns 1 none 161]

theorem accounted_retried :
    Run.Along (step plain) (fun s a _ => (step plain s a).Accounted) {} digestRetried := by
  apply (accounted_iff plain ⟨rfl, rfl, fun _ _ h => by cases h⟩ digestRetried).2
  refine ⟨?_, ?_, ?_, ?_, ?_, ?_, ?_, trivial⟩
  all_goals
    rintro ⟨x, error, now, name, task, output, h, -⟩
    cases h

/-- A success whose notice raises is recorded as a failure too, and the job is run again. -/
theorem success_retried : ¬ ∀ (l : Letters) (s : Executor) (acts : List Action), s.Fresh →
    Run.Along (step l) (fun s a _ => (step l s a).Accounted) s acts := by
  intro h
  have hlong := h plain {} (digestFired ++
    [.agentReturns 0 (.result (some "see [/b]")) 100,
      .noticeReturns 0 (some "closing tag '[/b]' doesn't match any open tag") 101])
    ⟨rfl, rfl, fun _ _ h => by cases h⟩
  have hacc := hlong.2.2.2.2.1
  have honce := hacc.once 0 ⟨"digest", "summarise the news", .done⟩ (by decide +kernel)
  revert honce
  decide

end Executor

end Prismal.Scheduler
