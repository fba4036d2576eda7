import Prismal.Scheduler.RetryPolicy

namespace Prismal.Scheduler
open Prismal.Lib
set_option autoImplicit true

/-! What is still run of a job that was removed from the scheduler, or paused. -/

namespace Executor

def Starts (s : Executor) (name : String) (a : Action) : Prop :=
  ∃ id entry, a = .fire id ∧ s.entries.get? id = some entry ∧ entry.paused = false ∧
    entry.job = name

def Unresumed (name : String) : Action → Prop
  | .addJob job _ => job.name ≠ name
  | .resumeJob n _ => n ≠ name
  | _ => True

def Fails (l : Letters) (s : Executor) (a : Action) (x : Nat) (name task error : String)
    (now : Int) : Prop :=
  (∃ outcome, a = .agentReturns x outcome now ∧ s.executions[x]? = some ⟨name, task, .agent⟩ ∧
    agentError l outcome = some error) ∨
  ∃ output, a = .noticeReturns x (some error) now ∧
    s.executions[x]? = some ⟨name, task, .notice output⟩

def SchedulesRetry (l : Letters) (s : Executor) (name : String) (a : Action) : Prop :=
  ∃ x task error now job, Fails l s a x name task error now ∧ l.isPermanentError error = false ∧
    s.jobs.get? name = some job ∧ job.retryCount < job.maxRetries ∧ (retryAt job now).isSome = true

def OnlyOwn (s : Executor) (name : String) : Prop :=
  ∀ id entry, s.entries.get? id = some entry → entry.job = name → id = name

def Quiet (s : Executor) (name : String) : Prop :=
  ∀ id entry, s.entries.get? id = some entry → entry.job = name →
    id = name ∧ entry.paused = true

variable {l : Letters} {s : Executor}

theorem entries_fail (hfails : Fails l s a x name task error now)
    (h : ¬ s.SchedulesRetry l name a) :
    (s.fail l x name task error now).entries = s.entries := by
  rw [fail]
  split
  · exact entries_giveUp s x name error
  · next hperm =>
    split
    · exact entries_giveUp s x name error
    · next job hjob =>
      split
      · next hlt =>
        rw [entries_retry, if_neg]
        intro hdate
        exact h ⟨x, task, error, now, job, hfails, Bool.not_eq_true _ ▸ hperm, hjob, hlt, hdate⟩
      · exact entries_giveUp s x name error

theorem Quiet.fail (h : s.Quiet name) (hne : other ≠ name) (l : Letters) (x : Nat)
    (task error : String) (now : Int) : (s.fail l x other task error now).Quiet name := by
  intro id entry hget hjob
  rcases fail_cases l s x other task error now with heq | ⟨job, -, -, heq⟩
  · rw [heq, entries_giveUp] at hget
    exact h id entry hget hjob
  · rw [heq, entries_retry] at hget
    split at hget
    · rw [Dict.get?_set] at hget
      split at hget
      · cases hget
        exact absurd hjob hne
      · exact h id entry hget hjob
    · exact h id entry hget hjob

theorem Quiet.of_entries {s' : Executor} (h : s.Quiet name) (he : s'.entries = s.entries) :
    s'.Quiet name := by
  intro id entry hget
  rw [he] at hget
  exact h id entry hget

theorem Quiet.of_changed {s' : Executor} (h : s.Quiet name)
    (he : ∀ id entry, s'.entries.get? id = some entry → s.entries.get? id = some entry ∨
      (entry.job = name → id = name ∧ entry.paused = true)) : s'.Quiet name := by
  intro id entry hget hjob
  rcases he id entry hget with hold | hnew
  · exact h id entry hold hjob
  · exact hnew hjob

theorem Quiet.erase (h : s.Quiet name) (n : String) :
    ({ s with entries := s.entries.erase n } : Executor).Quiet name := by
  apply h.of_changed
  intro id entry hget
  exact Or.inl (Dict.get?_of_get?_erase hget)

theorem Quiet.set (h : s.Quiet name) {new : Entry}
    (hnew : new.job = name → n = name ∧ new.paused = true) :
    ({ s with entries := s.entries.set n new } : Executor).Quiet name := by
  apply h.of_changed
  intro id entry hget
  dsimp only at hget
  rw [Dict.get?_set] at hget
  split at hget
  · next heq =>
    cases hget
    subst heq
    exact Or.inr hnew
  · exact Or.inl hget

theorem Quiet.step (h : s.Quiet name) (hu : Unresumed name a)
    (hr : ¬ s.SchedulesRetry l name a) : (step l s a).Quiet name := by
  cases a with
  | fire id =>
    rw [Executor.step, fire]
    split
    · exact h
    · split
      · exact h
      · split
        · exact (h.erase id).of_entries rfl
        · exact h.of_entries rfl
  | agentReturns x outcome now =>
    rw [Executor.step]
    split
    · next job task hx =>
      split
      · next error herror =>
        by_cases hjob : job = name
        · subst hjob
          exact h.of_entries (entries_fail (Or.inl ⟨outcome, rfl, hx, herror⟩) hr)
        · exact h.fail hjob l x task error now
      · apply h.of_entries
        rw [succeed, act, entries_setRetryCount, entries_updateLastRun]
    · exact h
  | noticeReturns x raised now =>
    rw [Executor.step]
    split
    · next job task output hx =>
      cases raised with
      | some error =>
        by_cases hjob : job = name
        · subst hjob
          exact h.of_entries (entries_fail (Or.inr ⟨output, rfl, hx⟩) hr)
        · exact h.fail hjob l x task error now
      | none => exact h.of_entries (entries_deliver s x job output)
    · exact h
  | deliveryReturns x raised =>
    rw [Executor.step]
    split
    · exact h.of_entries rfl
    · exact h
  | alertReturns x raised =>
    rw [Executor.step]
    split
    · exact h.of_entries rfl
    · exact h
  | managerAdd job =>
    rw [Executor.step, managerAdd]
    split
    · exact h
    · exact h.of_entries rfl
  | managerRemove n => exact h.of_entries rfl
  | addJob job expired =>
    rw [Executor.step, registerJob]
    split
    · exact h.of_entries rfl
    · exact h.set fun hjob => absurd hjob hu
  | removeJob n => exact h.erase n
  | pauseJob n =>
    rw [Executor.step, pauseJob]
    split
    · exact h
    · next entry hentry => exact h.set fun hjob => ⟨(h n entry hentry hjob).1, rfl⟩
  | resumeJob n expired =>
    rw [Executor.step, resumeJob]
    split
    · exact h
    · next entry hentry =>
      split
      · exact h.erase n
      · exact h.set fun hjob => absurd (h n entry hentry hjob).1 hu

theorem quiet_of_stop (l : Letters) (s : Executor)
    (h : stop = .removeJob name ∨ stop = .pauseJob name)
    (hown : (step l s stop).OnlyOwn name) : (step l s stop).Quiet name := by
  intro id entry hget hjob
  obtain rfl := hown id entry hget hjob
  refine ⟨rfl, ?_⟩
  rcases h with rfl | rfl
  · rw [Executor.step] at hget
    dsimp only at hget
    rw [Dict.get?_erase, if_pos rfl] at hget
    cases hget
  · rw [Executor.step, pauseJob] at hget
    split at hget
    · next hnone =>
      rw [hnone] at hget
      cases hget
    · dsimp only at hget
      rw [Dict.get?_set_self] at hget
      cases hget
      rfl

theorem Quiet.not_starts (h : s.Quiet name) (a : Action) : ¬ s.Starts name a := by
  rintro ⟨id, entry, -, hget, hpaused, hjob⟩
  rw [(h id entry hget hjob).2] at hpaused
  cases hpaused

theorem Quiet.along (h : s.Quiet name) (hu : ∀ a ∈ acts, Unresumed name a)
    (hr : Run.Along (Executor.step l) (fun s a _ => ¬ s.SchedulesRetry l name a) s acts) :
    Run.Along (Executor.step l) (fun s a _ => ¬ s.Starts name a) s acts := by
  induction acts generalizing s with
  | nil => exact Run.along_nil
  | cons a rest ih =>
    obtain ⟨hua, hurest⟩ := List.forall_mem_cons.1 hu
    exact ⟨h.not_starts a, ih (h.step hua hr.1) hurest hr.2⟩

theorem starts_of_schedulesRetry (h : s.SchedulesRetry l name a) :
    ∃ id, (step l s a).Starts name (.fire id) := by
  obtain ⟨x, task, error, now, job, hfails, hperm, hjob, hlt, hdate⟩ := h
  have hstep : step l s a = s.retry x name task error job now := by
    have hfail : s.fail l x name task error now = s.retry x name task error job now := by
      rw [fail, if_neg (by rw [hperm]; exact Bool.false_ne_true), hjob]
      exact if_pos hlt
    rcases hfails with ⟨outcome, rfl, hx, herror⟩ | ⟨output, rfl, hx⟩
    · rw [Executor.step, hx]
      dsimp only
      rw [herror]
      exact hfail
    · rw [Executor.step, hx]
      exact hfail
  refine ⟨retryId name (job.retryCount + 1), _, ⟨name, task, true, false⟩, rfl, ?_, rfl, rfl⟩
  rw [hstep, entries_retry, if_pos hdate, Dict.get?_set_self]

theorem starts_of_not_own (l : Letters) (hget : s.entries.get? n = some entry)
    (hjob : entry.job = name) :
    (step l s (.resumeJob n false)).Starts name (.fire n) := by
  refine ⟨n, { entry with paused := false }, rfl, ?_, rfl, hjob⟩
  rw [step, resumeJob, hget]
  dsimp only
  rw [Bool.and_false, if_neg Bool.false_ne_true, Dict.get?_set_self]

theorem no_retry_of_no_start
    (h : ∀ acts, (∀ a ∈ acts, Unresumed name a) →
      Run.Along (step l) (fun s a _ => ¬ s.Starts name a) s acts)
    (hu : ∀ a ∈ acts, Unresumed name a) :
    Run.Along (step l) (fun s a _ => ¬ s.SchedulesRetry l name a) s acts := by
  induction acts generalizing s with
  | nil => exact Run.along_nil
  | cons a rest ih =>
    obtain ⟨hua, hurest⟩ := List.forall_mem_cons.1 hu
    constructor
    · intro hretry
      obtain ⟨id, hstart⟩ := starts_of_schedulesRetry hretry
      have htwo := h [a, .fire id]
        (List.forall_mem_cons.2 ⟨hua, List.forall_mem_singleton.2 trivial⟩)
      exact htwo.2.1 hstart
    · apply ih _ hurest
      intro acts hacts
      exact (h (a :: acts) (List.forall_mem_cons.2 ⟨hua, hacts⟩)).2

/-- After a removal or a pause no run of the job starts as long as no other entry runs it and no
run of it fails with retries left; otherwise one can. -/
theorem stopped_iff (l : Letters) (s : Executor) (name : String) (stop : Action)
    (h : stop = .removeJob name ∨ stop = .pauseJob name) :
    (∀ acts, (∀ a ∈ acts, Unresumed name a) → (step l s stop).OnlyOwn name →
      Run.Along (step l) (fun s a _ => ¬ s.SchedulesRetry l name a) (step l s stop) acts →
      Run.Along (step l) (fun s a _ => ¬ s.Starts name a) (step l s stop) acts) ∧
    ((∀ acts, (∀ a ∈ acts, Unresumed name a) →
        Run.Along (step l) (fun s a _ => ¬ s.Starts name a) (step l s stop) acts) →
      (step l s stop).OnlyOwn name ∧ ∀ acts, (∀ a ∈ acts, Unresumed name a) →
        Run.Along (step l) (fun s a _ => ¬ s.SchedulesRetry l name a) (step l s stop) acts) := by
  constructor
  · intro acts hu hown hretry
    exact (quiet_of_stop l s h hown).along hu hretry
  · intro hnone
    refine ⟨?_, fun acts hu => no_retry_of_no_start hnone hu⟩
    intro id entry hget hjob
    by_contra hid
    have htwo := hnone [.resumeJob id false, .fire id] (by simp [hid, Unresumed])
    exact htwo.2.1 (starts_of_not_own l hget hjob)

def lastAnswer : List Action :=
  [.agentReturns 0 (.result (some "no news")) 100, .noticeReturns 0 none 101, .fire "digest"]

theorem stopped_last_answer :
    Run.Along (step plain) (fun s a _ => ¬ s.Starts "digest" a)
      (step plain (Run.final (step plain) {} digestFired) (.pauseJob "digest")) lastAnswer := by
  apply (stopped_iff plain _ "digest" _ (Or.inr rfl)).1
  · simp [lastAnswer, Unresumed]
  · intro id entry hget _
    have hkeys : (step plain (Run.final (step plain) {} digestFired)
        (.pauseJob "digest")).entries.keys = ["digest"] := by rfl
    have hid := Dict.mem_iff_keys.1 (Dict.mem_of_get? hget)
    rw [hkeys] at hid
    exact List.mem_singleton.1 hid
  · have hgood : agentError plain (.result (some "no news")) = none := by decide +kernel
    refine ⟨?_, ?_, ?_, trivial⟩
    all_goals
      rintro ⟨x, task, error, now, job, hfails, -⟩
      rcases hfails with ⟨outcome, h, -, herror⟩ | ⟨output, h, -⟩
    · cases h
      rw [hgood] at herror
      cases herror
    all_goals cases h

/-- A retry that is scheduled when its job is paused runs all the same. -/
theorem retried_while_paused : ¬ ∀ (l : Letters) (history acts : List Action) (name : String),
    (∀ a ∈ acts, Unresumed name a) →
      Run.Along (step l) (fun s a _ => ¬ s.Starts name a)
        (step l (Run.final (step l) {} history) (.pauseJob name)) acts := by
  intro h
  have hone := (h plain (digestFired ++ [.agentReturns 0 (.raised "timeout") 100])
    [.fire "digest_retry_1"] "digest" (by simp [Unresumed])).1
  apply hone
  refine ⟨"digest_retry_1", ⟨"digest", "summarise the news", true, false⟩, rfl, ?_, rfl, rfl⟩
  rfl

end Executor

end Prismal.Scheduler
