import Mathlib.Algebra.Group.Nat.Defs
import Mathlib.Data.List.Infix
import Prismal.Lib.Dict
import Prismal.Lib.Run

namespace Prismal.Scheduler
open Prismal.Lib
set_option autoImplicit true

/-! The executor of cron jobs: the scheduler fires its entries, and every run goes through the agent,
the notices and the retry policy. -/

/-- What the text of an answer or an error is compared with: the lower case of a text, and the
characters that are one letter when case is ignored. -/
structure Letters where
  lower : String → String
  same : Char → Char → Bool

/-- `_SOFT_FAILURE_SIGNATURES` -/
def softFailureSignatures : List String :=
  ["rate-limited", "rate limit", "rate_limit", "too many requests", "too many tokens per minute",
   "quota exceeded", "temporarily unavailable", "temporarily rate-limited",
   "ai service is temporarily", "service unavailable", "overloaded", "please try again later"]

/-- `_PERMANENT_ERROR_RE`: the words of every alternative, which at most one character separates. -/
def permanentErrors : List (List String) :=
  [["credit", "balance"],
   ["insufficient", "credit"], ["insufficient", "quota"], ["insufficient", "funds"],
   ["billing"], ["invalid", "api", "key"], ["invalid", "request", "error"], ["invalid", "model"],
   ["authentication"], ["permission", "denied"], ["unauthorised"], ["unauthorized"],
   ["account", "suspended"], ["account", "disabled"], ["model", "not", "found"]]

namespace Letters

variable (l : Letters)

def skipWord : List Char → List Char → Option (List Char)
  | [], cs => some cs
  | _ :: _, [] => none
  | w :: ws, c :: cs => if l.same w c then skipWord ws cs else none

/-- The words stand at the beginning of a text, with `.?` between them. -/
def beginsWith : List String → List Char → Bool
  | [], _ => true
  | w :: ws, cs =>
    match l.skipWord w.toList cs with
    | none => false
    | some rest =>
      beginsWith ws rest ||
        match rest with
        | [] => false
        | c :: rest => decide (ws ≠ []) && decide (c ≠ '\n') && beginsWith ws rest

def isPermanentError (errorText : String) : Bool :=
  errorText.toList.tails.any fun cs => permanentErrors.any fun ws => l.beginsWith ws cs

def looksLikeSoftFailure (text : Option String) : Option String :=
  text.bind fun text =>
    if text = "" then none
    else softFailureSignatures.find? fun sig => decide (sig.toList <:+: (l.lower text).toList)

end Letters

/-- A row of the table `cron_jobs`. -/
structure CronJob where
  name : String
  schedule : String
  task : String
  lastRun : Option Int := none
  maxRetries : Nat := 0
  retryDelaySeconds : Nat := 60
  retryCount : Nat := 0
  outputChannel : Option String := none
  outputTarget : Option String := none
  deriving DecidableEq, Repr

/-- `schedule.startswith("once:")` -/
def CronJob.once (job : CronJob) : Bool := "once:".toList.isPrefixOf job.schedule.toList

inductive RunOutcome where
  | success
  | failure
  deriving DecidableEq, Repr

/-- What a run does that others can see. An attempt sets the retry count and schedules the retry,
unless its date is out of range. -/
inductive Effect where
  | record (outcome : RunOutcome) (output error : Option String)
  | successNotice (output : Option String)
  | delivery (channel target text : String)
  | failureNotice (error : String)
  | attempt (count : Nat) (runAt : Option Int)
  deriving DecidableEq, Repr

inductive Phase where
  | agent
  | notice (output : Option String)
  | delivery (once : Bool)
  | alert
  | done
  deriving DecidableEq, Repr

/-- A call of `_run_job`. -/
structure Execution where
  job : String
  task : String
  phase : Phase := .agent
  deriving DecidableEq, Repr

/-- An entry of the scheduler: a call of `_run_job`, once or again and again. -/
structure Entry where
  job : String
  task : String
  once : Bool
  paused : Bool := false
  deriving DecidableEq, Repr

structure Logged where
  execution : Nat
  job : String
  effect : Effect
  deriving DecidableEq, Repr

/-- The manager's table, the scheduler's entries by their ids, and all runs with what they did. -/
structure Executor where
  jobs : Dict String CronJob := ∅
  entries : Dict String Entry := ∅
  executions : List Execution := []
  log : List Logged := []

inductive AgentOutcome where
  | result (output : Option String)
  | raised (error : String)
  deriving DecidableEq, Repr

def AgentOutcome.output : AgentOutcome → Option String
  | .result output => output
  | .raised _ => none

/-- What happens next. A call that returns may have raised an error. -/
inductive Action where
  | fire (entry : String)
  | agentReturns (execution : Nat) (outcome : AgentOutcome) (now : Int)
  | noticeReturns (execution : Nat) (raised : Option String) (now : Int)
  | deliveryReturns (execution : Nat) (raised : Option String)
  | alertReturns (execution : Nat) (raised : Option String)
  | managerAdd (job : CronJob)
  | managerRemove (name : String)
  | addJob (job : CronJob) (expired : Bool)
  | removeJob (name : String)
  | pauseJob (name : String)
  | resumeJob (name : String) (expired : Bool)
  deriving DecidableEq, Repr

/-- `f"{name}_retry_{count}"` -/
def retryId (name : String) (count : Nat) : String := name ++ "_retry_" ++ toString count

def maxDate : Int := 253402300799

namespace Executor

def updateLastRun (s : Executor) (name : String) (now : Int) : Executor :=
  match s.jobs.get? name with
  | none => s
  | some job => { s with jobs := s.jobs.set name { job with lastRun := some now } }

def setRetryCount (s : Executor) (name : String) (count : Nat) : Executor :=
  match s.jobs.get? name with
  | none => s
  | some job => { s with jobs := s.jobs.set name { job with retryCount := count } }

def act (s : Executor) (x : Nat) (name : String) (effects : List Effect) (phase : Phase) :
    Executor :=
  { s with
    executions := s.executions.modify x fun e => { e with phase := phase }
    log := s.log ++ effects.map fun effect => ⟨x, name, effect⟩ }

def succeed (s : Executor) (x : Nat) (name : String) (output : Option String) (now : Int) :
    Executor :=
  ((s.updateLastRun name now).setRetryCount name 0).act x name
    [.record .success output none, .successNotice output] (.notice output)

def giveUp (s : Executor) (x : Nat) (name error : String) : Executor :=
  (s.setRetryCount name 0).act x name
    [.record .failure none (some error), .failureNotice error] .alert

def retryAt (job : CronJob) (now : Int) : Option Int :=
  let runAt := now + (job.retryDelaySeconds * 2 ^ job.retryCount : Nat)
  if runAt ≤ maxDate then some runAt else none

def retry (s : Executor) (x : Nat) (name task error : String) (job : CronJob) (now : Int) :
    Executor :=
  let s := (s.setRetryCount name (job.retryCount + 1)).act x name
    [.record .failure none (some error), .attempt (job.retryCount + 1) (retryAt job now)] .done
  match retryAt job now with
  | none => s
  | some _ =>
    { s with entries :=
      s.entries.set (retryId name (job.retryCount + 1)) ⟨name, task, true, false⟩ }

/-- The `except` block of `_run_job`. -/
def fail (l : Letters) (s : Executor) (x : Nat) (name task error : String) (now : Int) : Executor :=
  if l.isPermanentError error then s.giveUp x name error
  else
    match s.jobs.get? name with
    | none => s.giveUp x name error
    | some job =>
      if job.retryCount < job.maxRetries then s.retry x name task error job now
      else s.giveUp x name error

def finish (s : Executor) (x : Nat) (name : String) (once : Bool) : Executor :=
  { s with jobs := if once then s.jobs.erase name else s.jobs }.act x name [] .done

def deliver (s : Executor) (x : Nat) (name : String) (output : Option String) : Executor :=
  match s.jobs.get? name with
  | none => s.act x name [] .done
  | some job =>
    match job.outputChannel.filter (· ≠ ""), job.outputTarget.filter (· ≠ "") with
    | some channel, some target =>
      s.act x name
        [.delivery channel target (output.getD ("Job '" ++ name ++ "' completed."))]
        (.delivery job.once)
    | _, _ => s.finish x name job.once

def agentError (l : Letters) : AgentOutcome → Option String
  | .raised error => some error
  | .result output => (l.looksLikeSoftFailure output).map fun sig =>
      "soft_failure detected: matched signature '" ++ sig ++ "' in agent output"

def fire (s : Executor) (id : String) : Executor :=
  match s.entries.get? id with
  | none => s
  | some entry =>
    if entry.paused then s
    else
      { s with
        entries := if entry.once then s.entries.erase id else s.entries
        executions := s.executions ++ [{ job := entry.job, task := entry.task }] }

/-- `_register_job`; a one-shot job whose date has passed is removed. -/
def registerJob (s : Executor) (job : CronJob) (expired : Bool) : Executor :=
  if job.once && expired then { s with jobs := s.jobs.erase job.name }
  else { s with entries := s.entries.set job.name ⟨job.name, job.task, job.once, false⟩ }

/-- `CronManager.add`: a job of a new name, which has not been retried. -/
def managerAdd (s : Executor) (job : CronJob) : Executor :=
  if job.name ∈ s.jobs then s
  else { s with jobs := s.jobs.set job.name { job with retryCount := 0, lastRun := none } }

def pauseJob (s : Executor) (name : String) : Executor :=
  match s.entries.get? name with
  | none => s
  | some entry => { s with entries := s.entries.set name { entry with paused := true } }

def resumeJob (s : Executor) (name : String) (expired : Bool) : Executor :=
  match s.entries.get? name with
  | none => s
  | some entry =>
    if entry.once && expired then { s with entries := s.entries.erase name }
    else { s with entries := s.entries.set name { entry with paused := false } }

def step (l : Letters) (s : Executor) : Action → Executor
  | .fire id => s.fire id
  | .agentReturns x outcome now =>
    match s.executions[x]? with
    | some ⟨name, task, .agent⟩ =>
      match agentError l outcome with
      | some error => s.fail l x name task error now
      | none => s.succeed x name outcome.output now
    | _ => s
  | .noticeReturns x raised now =>
    match s.executions[x]? with
    | some ⟨name, task, .notice output⟩ =>
      match raised with
      | some error => s.fail l x name task error now
      | none => s.deliver x name output
    | _ => s
  | .deliveryReturns x _ =>
    match s.executions[x]? with
    | some ⟨name, _, .delivery once⟩ => s.finish x name once
    | _ => s
  | .alertReturns x _ =>
    match s.executions[x]? with
    | some ⟨name, _, .alert⟩ => s.act x name [] .done
    | _ => s
  | .managerAdd job => s.managerAdd job
  | .managerRemove name => { s with jobs := s.jobs.erase name }
  | .addJob job expired => s.registerJob job expired
  | .removeJob name => { s with entries := s.entries.erase name }
  | .pauseJob name => s.pauseJob name
  | .resumeJob name expired => s.resumeJob name expired

/-! What an operation changes. -/

@[simp] theorem executions_updateLastRun (s : Executor) (name : String) (now : Int) :
    (s.updateLastRun name now).executions = s.executions := by
  rw [updateLastRun]
  split <;> rfl

@[simp] theorem log_updateLastRun (s : Executor) (name : String) (now : Int) :
    (s.updateLastRun name now).log = s.log := by
  rw [updateLastRun]
  split <;> rfl

@[simp] theorem executions_setRetryCount (s : Executor) (name : String) (count : Nat) :
    (s.setRetryCount name count).executions = s.executions := by
  rw [setRetryCount]
  split <;> rfl

@[simp] theorem log_setRetryCount (s : Executor) (name : String) (count : Nat) :
    (s.setRetryCount name count).log = s.log := by
  rw [setRetryCount]
  split <;> rfl

theorem get?_updateLastRun (s : Executor) (name n : String) (now : Int) :
    (s.updateLastRun name now).jobs.get? n =
      if name = n then (s.jobs.get? n).map fun job => { job with lastRun := some now }
      else s.jobs.get? n := by
  rw [updateLastRun]
  split
  · next h =>
    split
    · next heq => rw [← heq, h]; rfl
    · rfl
  · next job h =>
    rw [Dict.get?_set]
    split
    · next heq => rw [← heq, h]; rfl
    · rfl

theorem get?_setRetryCount (s : Executor) (name n : String) (count : Nat) :
    (s.setRetryCount name count).jobs.get? n =
      if name = n then (s.jobs.get? n).map fun job => { job with retryCount := count }
      else s.jobs.get? n := by
  rw [setRetryCount]
  split
  · next h =>
    split
    · next heq => rw [← heq, h]; rfl
    · rfl
  · next job h =>
    rw [Dict.get?_set]
    split
    · next heq => rw [← heq, h]; rfl
    · rfl

@[simp] theorem executions_retry (s : Executor) (x : Nat) (name task error : String)
    (job : CronJob) (now : Int) : (s.retry x name task error job now).executions =
      s.executions.modify x fun e => { e with phase := .done } := by
  rw [retry]
  split <;> rw [act, executions_setRetryCount]

@[simp] theorem log_retry (s : Executor) (x : Nat) (name task error : String) (job : CronJob)
    (now : Int) : (s.retry x name task error job now).log =
      s.log ++ ([.record .failure none (some error),
        .attempt (job.retryCount + 1) (retryAt job now)] : List Effect).map (⟨x, name, ·⟩) := by
  rw [retry]
  split <;> rw [act, log_setRetryCount]

theorem jobs_retry (s : Executor) (x : Nat) (name task error : String) (job : CronJob)
    (now : Int) : (s.retry x name task error job now).jobs =
      (s.setRetryCount name (job.retryCount + 1)).jobs := by
  rw [retry]
  split <;> rfl

theorem fail_cases (l : Letters) (s : Executor) (x : Nat) (name task error : String) (now : Int) :
    s.fail l x name task error now = s.giveUp x name error ∨
      ∃ job, s.jobs.get? name = some job ∧ job.retryCount < job.maxRetries ∧
        s.fail l x name task error now = s.retry x name task error job now := by
  rw [fail]
  split
  · exact Or.inl rfl
  · split
    · exact Or.inl rfl
    · next job hjob =>
      split
      · next hlt => exact Or.inr ⟨job, hjob, hlt, rfl⟩
      · exact Or.inl rfl

theorem deliver_cases (s : Executor) (x : Nat) (name : String) (output : Option String) :
    (∃ once, s.deliver x name output = s.finish x name once) ∨
      ∃ channel target text once, s.deliver x name output =
        s.act x name [.delivery channel target text] (.delivery once) := by
  rw [deliver]
  split
  · exact Or.inl ⟨false, rfl⟩
  · split
    · exact Or.inr ⟨_, _, _, _, rfl⟩
    · exact Or.inl ⟨_, rfl⟩

@[simp] theorem entries_updateLastRun (s : Executor) (name : String) (now : Int) :
    (s.updateLastRun name now).entries = s.entries := by
  rw [updateLastRun]
  split <;> rfl

@[simp] theorem entries_setRetryCount (s : Executor) (name : String) (count : Nat) :
    (s.setRetryCount name count).entries = s.entries := by
  rw [setRetryCount]
  split <;> rfl

theorem entries_giveUp (s : Executor) (x : Nat) (name error : String) :
    (s.giveUp x name error).entries = s.entries := by
  rw [giveUp, act, entries_setRetryCount]

theorem entries_deliver (s : Executor) (x : Nat) (name : String) (output : Option String) :
    (s.deliver x name output).entries = s.entries := by
  rcases deliver_cases s x name output with ⟨once, h⟩ | ⟨channel, target, text, once, h⟩
  · rw [h]
    rfl
  · rw [h]
    rfl

theorem entries_retry (s : Executor) (x : Nat) (name task error : String) (job : CronJob)
    (now : Int) : (s.retry x name task error job now).entries =
      if (retryAt job now).isSome = true then
        s.entries.set (retryId name (job.retryCount + 1)) ⟨name, task, true, false⟩
      else s.entries := by
  rw [retry]
  split
  · next h => rw [h, act, entries_setRetryCount]; rfl
  · next h => rw [h, act, entries_setRetryCount]; rfl

end Executor

end Prismal.Scheduler
