import Prismal.Budget.Resolve

namespace Prismal.Security
open Prismal.Lib Prismal.Agents Prismal.Budget
set_option autoImplicit true

/-! The hardening engines of a session: seeded by the supervisor, once for every turn it
recognises. -/

/-- An entry of the registry: which engines (detector, runaway guard, tool policy, taint registry)
were built, and the signature they were built for. -/
structure HardeningRun where
  engines : Nat
  turn : Nat
  deriving DecidableEq, Repr

structure HardeningSettings where
  hardeningEnabled : Bool := false
  hardeningMode : String

/-- A session with its entry in the registry and the marker in its metadata; `built` counts the
engines that were ever built. -/
structure HardenedSession where
  session : Session := {}
  run : Option HardeningRun := none
  marker : Option String := none
  built : Nat := 0

namespace HardenedSession

variable (st : HardeningSettings) (env : Surroundings)

/-- `seed_hardening_run`: new engines for the turn. -/
def seed (s : HardenedSession) : HardenedSession :=
  { s with
    run := some ⟨s.built, turnSignature s.session.messages⟩
    marker := some st.hardeningMode
    built := s.built + 1 }

def maybeSeedHardeningRun (s : HardenedSession) : HardenedSession :=
  if !st.hardeningEnabled then s
  else if s.run.any fun run => decide (run.turn = turnSignature s.session.messages) then s
  else s.seed st

def supervisorNode (host : CompactionHost) (updates : List MessageUpdate) (s : HardenedSession) :
    HardenedSession :=
  let s := s.maybeSeedHardeningRun st
  { s with session := s.session.supervisorNode env host updates }

def step (s : HardenedSession) : SessionAction → HardenedSession
  | .invoke input host updates =>
    { s with session := s.session.openTurn env input }.supervisorNode st env host updates
  | .hop host updates => s.supervisorNode st env host updates
  | a => { s with session := s.session.step env a }

def KeepsEngines (s : HardenedSession) : SessionAction → Prop
  | .invoke input host updates =>
    ∃ run, (s.step st env (.invoke input host updates)).run = some run ∧
      ∀ old, s.run = some old → run.engines ≠ old.engines
  | a => (s.step st env a).run.map HardeningRun.engines = s.run.map HardeningRun.engines

/-- A hop finds as many human messages as the turn began with, and a turn begins with another
number than the turn before it. -/
def TellsTurns (s : HardenedSession) : SessionAction → Prop
  | .invoke input _ _ =>
    turnSignature (env.addMessages s.session.messages input) ≠ s.session.opening
  | .hop _ _ => turnSignature s.session.messages = s.session.opening
  | _ => True

variable {st env} {s : HardenedSession}

def Known (s : HardenedSession) : Prop :=
  ∃ run, s.run = some run ∧ run.turn = s.session.opening ∧ run.engines < s.built

theorem opening_recordSummary (s : Session) (guard : Option Nat) (metered : Option Spend) :
    (s.recordSummary guard metered).opening = s.opening := by
  rw [Session.recordSummary.eq_def]
  split <;> rfl

theorem opening_compactContext (s : Session) (host : CompactionHost) :
    (s.compactContext env host).1.opening = s.opening := by
  rw [Session.compactContext]
  split
  · rfl
  · exact opening_recordSummary _ _ _

theorem opening_maybeSeedBudgetRun (s : Session) :
    (s.maybeSeedBudgetRun env).opening = s.opening := by
  rw [Session.maybeSeedBudgetRun]
  split
  · rfl
  · split <;> rfl

theorem opening_maybeSeedContextCompactionRun (s : Session) :
    (s.maybeSeedContextCompactionRun env).opening = s.opening := by
  rw [Session.maybeSeedContextCompactionRun]
  split
  · rfl
  · split <;> rfl

theorem opening_supervisorNode (s : Session) (host : CompactionHost)
    (updates : List MessageUpdate) :
    (s.supervisorNode env host updates).opening = s.opening := by
  simp only [Session.supervisorNode, Session.update, opening_compactContext,
    opening_maybeSeedContextCompactionRun, opening_maybeSeedBudgetRun]

theorem opening_record (s : Session) (delta : Spend) : (s.record delta).opening = s.opening := by
  rw [Session.record]
  split <;> rfl

theorem maybeSeed_of_turn (st : HardeningSettings) {run : HardeningRun} (hrun : s.run = some run)
    (h : run.turn = turnSignature s.session.messages) : s.maybeSeedHardeningRun st = s := by
  rw [maybeSeedHardeningRun]
  split
  · rfl
  · rw [if_pos (by rw [hrun, Option.any_some, decide_eq_true h])]

theorem maybeSeed_of_ne (hon : st.hardeningEnabled = true)
    (h : ∀ run, s.run = some run → run.turn ≠ turnSignature s.session.messages) :
    s.maybeSeedHardeningRun st = s.seed st := by
  rw [maybeSeedHardeningRun, if_neg (by simp [hon]), if_neg]
  rw [Option.any_eq_true]
  rintro ⟨run, hrun, hturn⟩
  exact h run hrun (of_decide_eq_true hturn)

theorem Known.hop (h : s.Known) (hon : st.hardeningEnabled = true) :
    (s.TellsTurns env (.hop host updates) ↔ s.KeepsEngines st env (.hop host updates)) ∧
      (s.TellsTurns env (.hop host updates) → (s.step st env (.hop host updates)).Known) := by
  obtain ⟨run, hrun, hturn, hbuilt⟩ := h
  by_cases htells : turnSignature s.session.messages = s.session.opening
  · have hsame := maybeSeed_of_turn st hrun (hturn.trans htells.symm)
    refine ⟨⟨fun _ => ?_, fun _ => htells⟩, fun _ => ⟨run, ?_, ?_, ?_⟩⟩
    all_goals simp only [KeepsEngines, step, supervisorNode, hsame, opening_supervisorNode]
    · exact hrun
    · exact hturn
    · exact hbuilt
  · refine ⟨⟨fun h => absurd h htells, fun hkeeps => ?_⟩, fun h => absurd h htells⟩
    have hseed := maybeSeed_of_ne (s := s) hon (by
      intro old hold hold'
      obtain rfl := Option.some.inj (hrun.symm.trans hold)
      exact htells (hold'.symm.trans hturn))
    simp only [KeepsEngines, step, supervisorNode, hseed, seed, hrun, Option.map_some,
      Option.some.injEq] at hkeeps
    omega

theorem invoke_fresh (host : CompactionHost) (updates : List MessageUpdate)
    (hon : st.hardeningEnabled = true)
    (h : ∀ run, s.run = some run →
      run.turn ≠ turnSignature (env.addMessages s.session.messages input)) :
    (s.step st env (.invoke input host updates)).run =
        some ⟨s.built, turnSignature (env.addMessages s.session.messages input)⟩ ∧
      (s.step st env (.invoke input host updates)).Known := by
  have hseed := maybeSeed_of_ne (s := { s with session := s.session.openTurn env input }) hon h
  have hrun : (s.step st env (.invoke input host updates)).run =
      some ⟨s.built, turnSignature (env.addMessages s.session.messages input)⟩ := by
    rw [step, supervisorNode, hseed]
    rfl
  refine ⟨hrun, _, hrun, ?_, ?_⟩
  · rw [step, supervisorNode, opening_supervisorNode, hseed]
    rfl
  · rw [step, supervisorNode, hseed]
    exact Nat.lt_succ_self s.built

theorem Known.invoke (h : s.Known) (hon : st.hardeningEnabled = true) :
    (s.TellsTurns env (.invoke input host updates) ↔
        s.KeepsEngines st env (.invoke input host updates)) ∧
      (s.TellsTurns env (.invoke input host updates) →
        (s.step st env (.invoke input host updates)).Known) := by
  obtain ⟨run, hrun, hturn, hbuilt⟩ := h
  have hopen : ({ s with session := s.session.openTurn env input } : HardenedSession).run =
      some run := hrun
  by_cases htells : turnSignature (env.addMessages s.session.messages input) = s.session.opening
  · refine ⟨⟨fun h => absurd htells h, fun hkeeps => ?_⟩, fun h => absurd htells h⟩
    obtain ⟨new, hnew, hne⟩ := hkeeps
    rw [step, supervisorNode, maybeSeed_of_turn st hopen (hturn.trans htells.symm), hrun] at hnew
    exact absurd (congrArg HardeningRun.engines (Option.some.inj hnew).symm) (hne run hrun)
  · have hother : ∀ old, s.run = some old →
        old.turn ≠ turnSignature (env.addMessages s.session.messages input) := by
      intro old hold hold'
      obtain rfl := Option.some.inj (hrun.symm.trans hold)
      exact htells (hold'.symm.trans hturn)
    obtain ⟨hfresh, hknown⟩ := invoke_fresh host updates hon hother
    refine ⟨⟨fun _ => ⟨_, hfresh, ?_⟩, fun _ => htells⟩, fun _ => hknown⟩
    intro old hold
    obtain rfl := Option.some.inj (hrun.symm.trans hold)
    exact Nat.ne_of_gt hbuilt

theorem Known.step (h : s.Known) (env : Surroundings) (hon : st.hardeningEnabled = true)
    (a : SessionAction) :
    (s.TellsTurns env a ↔ s.KeepsEngines st env a) ∧
      (s.TellsTurns env a → (s.step st env a).Known) := by
  cases a with
  | invoke input host updates => exact h.invoke hon
  | hop host updates => exact h.hop hon
  | record delta =>
    obtain ⟨run, hrun, hturn, hbuilt⟩ := h
    exact ⟨⟨fun _ => rfl, fun _ => trivial⟩,
      fun _ => ⟨run, hrun, hturn.trans (opening_record _ _).symm, hbuilt⟩⟩
  | answer updates => exact ⟨⟨fun _ => rfl, fun _ => trivial⟩, fun _ => h⟩

/-- In every session, from its first turn on, the engines of a turn are kept until it ends and
replaced when the next one begins exactly when the number of human messages tells the turns. -/
theorem engines_kept_iff (st : HardeningSettings) (env : Surroundings)
    (hon : st.hardeningEnabled = true) (input : List MessageUpdate) (host : CompactionHost)
    (updates : List MessageUpdate) (acts : List SessionAction) :
    Run.Along (step st env) (fun s a _ => s.KeepsEngines st env a)
        (step st env {} (.invoke input host updates)) acts ↔
      Run.Along (step st env) (fun s a _ => s.TellsTurns env a)
        (step st env {} (.invoke input host updates)) acts := by
  have hfirst : (step st env {} (.invoke input host updates)).Known := by
    apply (invoke_fresh host updates hon _).2
    intro run h
    cases h
  generalize step st env {} (.invoke input host updates) = s at hfirst
  induction acts generalizing s with
  | nil => exact Iff.rfl
  | cons a rest ih =>
    obtain ⟨hiff, hnext⟩ := hfirst.step env hon a
    rw [Run.along_cons, Run.along_cons, ← hiff]
    apply and_congr_right
    intro htells
    exact ih _ (hnext htells)

def hardened : HardeningSettings := ⟨true, "warn"⟩

def twoTurns : List SessionAction :=
  [.hop quietHost [reply "a1"], .answer [reply "a2"],
    .invoke [.put { id := some "h2", type := .human, content := "And then?" }] quietHost []]

def untouched : Surroundings where
  budgetEnabled := false
  compaction := { enabled := false }
  addMessages := mergeMessages

theorem engines_kept_untouched :
    Run.Along (step hardened untouched) (fun s a _ => s.KeepsEngines hardened untouched a)
      (step hardened untouched {} (.invoke [question] quietHost [])) twoTurns := by
  apply (engines_kept_iff hardened untouched rfl [question] quietHost [] twoTurns).2
  refine ⟨?_, trivial, ?_, trivial⟩
  · show turnSignature _ = _
    rfl
  · show turnSignature _ ≠ _
    decide

/-- A hop after a compaction that dropped the question of the turn builds new engines. -/
theorem engines_lost_by_compaction : ¬ ∀ (st : HardeningSettings) (env : Surroundings)
    (input : List MessageUpdate) (host : CompactionHost) (updates : List MessageUpdate)
    (acts : List SessionAction), st.hardeningEnabled = true →
      Run.Along (step st env) (fun s a _ => s.KeepsEngines st env a)
        (step st env {} (.invoke input host updates)) acts := by
  intro h
  have hlong := h hardened truncating [question] quietHost []
    [.answer [reply "a1", reply "a2"], .hop quietHost [], .hop quietHost []] rfl
  have hlast := hlong.2.2.1
  revert hlast
  show ¬ (_ : Option Nat) = _
  decide

end HardenedSession

end Prismal.Security
