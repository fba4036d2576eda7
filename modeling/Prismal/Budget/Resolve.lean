import Prismal.Agents.ContextCompaction
import Prismal.Lib.Run

namespace Prismal.Budget
open Prismal.Lib Prismal.Agents
set_option autoImplicit true

/-- The budget engine of a session: its meter, and the turn it was seeded for. -/
structure BudgetRun where
  meter : Nat
  turn : Nat

/-- `_turn_signature`: the number of human messages. -/
def turnSignature (messages : List Message) : Nat :=
  messages.countP fun m => decide (m.type = .human)

/-- What a process runs with; the reducer of the message list is the graph library's. -/
structure Surroundings where
  budgetEnabled : Bool
  compaction : CompactionSettings
  addMessages : List Message → List MessageUpdate → List Message

/-- One session of a process: its history, every meter ever built and the registries of the
budget and of the compactor. The opening signature and the spend of the turn are ghosts. -/
structure Session where
  messages : List Message := []
  meters : List Usage := []
  budget : Option BudgetRun := none
  compactor : Option CompactionRun := none
  opening : Nat := 0
  spent : Usage := {}

namespace Session

def meterOf (s : Session) (i : Nat) : Usage := (s.meters[i]?).getD {}

def guarded (s : Session) : Option Usage := s.budget.map fun run => s.meterOf run.meter

/-- `seed_budget_run`: a fresh meter for the turn. -/
def seedBudget (s : Session) : Session :=
  { s with
    meters := s.meters ++ [{}]
    budget := some ⟨s.meters.length, turnSignature s.messages⟩ }

def maybeSeedBudgetRun (env : Surroundings) (s : Session) : Session :=
  if !env.budgetEnabled then s
  else if s.budget.any fun run => decide (run.turn = turnSignature s.messages) then s
  else s.seedBudget

def maybeSeedContextCompactionRun (env : Surroundings) (s : Session) : Session :=
  if !env.compaction.enabled then s
  else if s.compactor.any fun run => decide (run.turn = turnSignature s.messages) then s
  else
    { s with
      compactor := some
        { guard := s.budget.map BudgetRun.meter, turn := turnSignature s.messages } }

def recordAt (s : Session) (i : Nat) (delta : Spend) : Session :=
  { s with meters := s.meters.set i (s.meterOf i + delta.usage), spent := s.spent + delta.usage }

def record (s : Session) (delta : Spend) : Session :=
  match s.budget with
  | none => s
  | some run => s.recordAt run.meter delta

def recordSummary (s : Session) (guard : Option Nat) (metered : Option Spend) : Session :=
  match guard, metered with
  | some i, some delta => s.recordAt i delta
  | _, _ => s

def compactContext (env : Surroundings) (host : CompactionHost) (s : Session) :
    Session × List MessageUpdate :=
  match s.compactor with
  | none => (s, [])
  | some run =>
    let (run', result) := maybeCompactContext env.compaction host run (run.guard.map s.meterOf)
      s.messages
    ({ s with compactor := some run' }.recordSummary run.guard result.metered,
      ContextCompactor.toStateUpdate result)

def update (env : Surroundings) (s : Session) (updates : List MessageUpdate) : Session :=
  { s with messages := env.addMessages s.messages updates }

def supervisorNode (env : Surroundings) (host : CompactionHost) (updates : List MessageUpdate)
    (s : Session) : Session :=
  let s := (s.maybeSeedBudgetRun env).maybeSeedContextCompactionRun env
  let (s, compaction) := s.compactContext env host
  s.update env (compaction ++ updates)

end Session

/-- What happens in a session: a user turn, which the supervisor opens; a later hop; a call of an
agent; the update of a worker node. -/
inductive SessionAction where
  | invoke (input : List MessageUpdate) (host : CompactionHost) (updates : List MessageUpdate)
  | hop (host : CompactionHost) (updates : List MessageUpdate)
  | record (delta : Spend)
  | answer (updates : List MessageUpdate)

namespace Session

def openTurn (env : Surroundings) (input : List MessageUpdate) (s : Session) : Session :=
  let messages := env.addMessages s.messages input
  { s with messages := messages, opening := turnSignature messages, spent := {} }

def step (env : Surroundings) (s : Session) : SessionAction → Session
  | .invoke input host updates => (s.openTurn env input).supervisorNode env host updates
  | .hop host updates => s.supervisorNode env host updates
  | .record delta => s.record delta
  | .answer updates => s.update env updates

def Covered (s : Session) : Prop := ∀ usage, s.guarded = some usage → s.spent.Within usage

def KeepsTurn (s : Session) : SessionAction → Prop
  | .hop _ _ => turnSignature s.messages = s.opening
  | _ => True

end Session

namespace Session

/-- A session between two actions: the engine belongs to the turn and has seen all of its spend,
and the compactor of the turn reads the same meter. -/
structure Metered (env : Surroundings) (s : Session) : Prop where
  nonneg : ∀ i c, 0 ≤ (s.meterOf i).column c
  known : ∀ run, s.budget = some run → run.meter < s.meters.length
  shared : ∀ compactor, s.compactor = some compactor → ∃ run, s.budget = some run ∧
    compactor.turn = run.turn ∧ compactor.guard = some run.meter
  idle : env.compaction.enabled = false → s.compactor = none
  seeded : ∀ run, s.budget = some run → run.turn = s.opening
  covered : ∀ run, s.budget = some run → s.spent.Within (s.meterOf run.meter)
  unspent : s.budget = none → ∀ c, s.spent.column c = 0

/-- A session that enters the supervisor: an engine of an earlier turn may still be there. -/
structure Entering (env : Surroundings) (s : Session) : Prop where
  nonneg : ∀ i c, 0 ≤ (s.meterOf i).column c
  known : ∀ run, s.budget = some run → run.meter < s.meters.length
  shared : ∀ compactor, s.compactor = some compactor → ∃ run, s.budget = some run ∧
    compactor.turn = run.turn ∧ compactor.guard = some run.meter
  idle : env.compaction.enabled = false → s.compactor = none
  signature : turnSignature s.messages = s.opening
  covered : ∀ run, s.budget = some run → run.turn = s.opening →
    s.spent.Within (s.meterOf run.meter)
  unspent : (∀ run, s.budget = some run → run.turn ≠ s.opening) → ∀ c, s.spent.column c = 0

theorem meterOf_seedBudget (s : Session) (i : Nat) : s.seedBudget.meterOf i = s.meterOf i := by
  simp only [meterOf, seedBudget]
  rcases Nat.lt_trichotomy i s.meters.length with h | h | h
  · rw [List.getElem?_append_left h]
  · subst h
    rw [List.getElem?_concat_length, List.getElem?_eq_none (le_refl _)]
    rfl
  · rw [List.getElem?_eq_none (by simp; omega), List.getElem?_eq_none h.le]

theorem column_recordAt {s : Session} (hi : i < s.meters.length) (delta : Spend) (j : Nat)
    (c : Column) : ((s.recordAt i delta).meterOf j).column c =
      (s.meterOf j).column c + if j = i then delta.usage.column c else 0 := by
  simp only [meterOf, recordAt]
  by_cases hj : j = i
  · subst hj
    rw [List.getElem?_set_self hi, if_pos rfl]
    simp
  · rw [List.getElem?_set_ne (Ne.symm hj), if_neg hj, add_zero]

theorem Metered.recordAt {s : Session} (h : Metered env s) (hb : s.budget = some run)
    (delta : Spend) : Metered env (s.recordAt run.meter delta) := by
  have hlt := h.known run hb
  refine ⟨?_, ?_, h.shared, h.idle, h.seeded, ?_, ?_⟩
  · intro i c
    rw [column_recordAt hlt]
    have hnn := h.nonneg i c
    have hd := delta.nonneg c
    split <;> linarith
  · intro run' hb'
    have hlt' := h.known run' hb'
    simp only [Session.recordAt, List.length_set]
    exact hlt'
  · intro run' hb' c
    have hrun : run' = run := Option.some.inj (hb'.symm.trans hb)
    subst hrun
    have hcov := h.covered run' hb c
    rw [column_recordAt hlt, if_pos rfl]
    simp only [Session.recordAt, Usage.column_add]
    linarith
  · intro hnone
    rw [Session.recordAt, hb] at hnone
    cases hnone

theorem Metered.record {s : Session} (h : Metered env s) (delta : Spend) :
    Metered env (s.record delta) := by
  rw [Session.record]
  split
  · exact h
  next run hb => exact h.recordAt hb delta

theorem Metered.update {s : Session} (h : Metered env s) (updates : List MessageUpdate) :
    Metered env (s.update env updates) :=
  ⟨h.nonneg, h.known, h.shared, h.idle, h.seeded, h.covered, h.unspent⟩

theorem maybeCompactContext_run (st : CompactionSettings) (host : CompactionHost)
    (run : CompactionRun) (used : Option Usage) (messages : List Message) :
    (maybeCompactContext st host run used messages).1.guard = run.guard ∧
      (maybeCompactContext st host run used messages).1.turn = run.turn := by
  rw [maybeCompactContext]
  split
  · exact ⟨rfl, rfl⟩
  · dsimp only
    split
    · exact ⟨rfl, rfl⟩
    · exact ⟨rfl, rfl⟩

theorem Metered.recordSummary {s : Session} (h : Metered env s) (hb : s.budget = some run)
    (metered : Option Spend) : Metered env (s.recordSummary (some run.meter) metered) := by
  cases metered with
  | none => exact h
  | some delta => exact h.recordAt hb delta

theorem Metered.compactContext {s : Session} (h : Metered env s) (host : CompactionHost) :
    Metered env (s.compactContext env host).1 := by
  rw [Session.compactContext]
  split
  · exact h
  next compactor hc =>
    obtain ⟨run, hb, hturn, hguard⟩ := h.shared compactor hc
    obtain ⟨hg, ht⟩ := maybeCompactContext_run env.compaction host compactor
      (compactor.guard.map s.meterOf) s.messages
    have hs : Metered env { s with compactor := some (maybeCompactContext env.compaction host
        compactor (compactor.guard.map s.meterOf) s.messages).1 } := by
      refine ⟨h.nonneg, h.known, ?_, ?_, h.seeded, h.covered, h.unspent⟩
      · intro compactor' hc'
        cases hc'
        exact ⟨run, hb, ht.trans hturn, hg.trans hguard⟩
      · intro hoff
        rw [h.idle hoff] at hc
        cases hc
    have hrec := hs.recordSummary hb (maybeCompactContext env.compaction host compactor
      (compactor.guard.map s.meterOf) s.messages).2.metered
    rw [← hguard] at hrec
    exact hrec

/-- The engine of the turn is in place; a compactor of an earlier turn may still be there. -/
structure Seeded (env : Surroundings) (s : Session) (run : BudgetRun) : Prop where
  nonneg : ∀ i c, 0 ≤ (s.meterOf i).column c
  engine : s.budget = some run
  known : run.meter < s.meters.length
  signature : turnSignature s.messages = s.opening
  turn : run.turn = s.opening
  covered : s.spent.Within (s.meterOf run.meter)
  idle : env.compaction.enabled = false → s.compactor = none
  linked : ∀ compactor, s.compactor = some compactor → compactor.turn = s.opening →
    compactor.guard = some run.meter

theorem Entering.seeded {s : Session} (h : Entering env s) (hon : env.budgetEnabled = true) :
    ∃ run, Seeded env (s.maybeSeedBudgetRun env) run := by
  simp only [maybeSeedBudgetRun, hon, Bool.not_true, Bool.false_eq_true, if_false]
  split
  next hk =>
    cases hb : s.budget with
    | none =>
      rw [hb] at hk
      cases hk
    | some run =>
      rw [hb, Option.any_some, decide_eq_true_eq, h.signature] at hk
      refine ⟨run, h.nonneg, hb, h.known run hb, h.signature, hk, h.covered run hb hk, h.idle, ?_⟩
      intro compactor hc _
      obtain ⟨run', hb', -, hguard⟩ := h.shared compactor hc
      rw [hb, Option.some.injEq] at hb'
      rw [hguard, hb']
  next hk =>
    have hold : ∀ run, s.budget = some run → run.turn ≠ s.opening := by
      intro run hb ht
      rw [hb, Option.any_some, h.signature, ht] at hk
      exact hk (decide_eq_true rfl)
    refine ⟨⟨s.meters.length, turnSignature s.messages⟩, ?_, rfl, ?_, h.signature, h.signature, ?_,
      h.idle, ?_⟩
    · intro i c
      rw [meterOf_seedBudget]
      exact h.nonneg i c
    · simp [seedBudget]
    · intro c
      have hz := h.unspent hold c
      have hnn := h.nonneg s.meters.length c
      rw [meterOf_seedBudget]
      change s.spent.column c ≤ _
      rw [hz]
      exact hnn
    · intro compactor hc ht
      obtain ⟨run, hb, hturn, -⟩ := h.shared compactor hc
      exact absurd (hturn.symm.trans ht) (hold run hb)

theorem Seeded.metered {s : Session} (h : Seeded env s run) :
    Metered env (s.maybeSeedContextCompactionRun env) := by
  have hrun : ∀ run', s.budget = some run' → run' = run := fun run' hb =>
    Option.some.inj (hb.symm.trans h.engine)
  have hmetered : ∀ compactor : Option CompactionRun,
      (∀ k, compactor = some k → k.turn = run.turn ∧ k.guard = some run.meter) →
      (env.compaction.enabled = false → compactor = none) →
      Metered env { s with compactor := compactor } := by
    intro compactor hshared hidle
    refine ⟨h.nonneg, ?_, ?_, hidle, ?_, ?_, ?_⟩
    · intro run' hb
      rw [hrun run' hb]
      exact h.known
    · intro k hk
      exact ⟨run, h.engine, hshared k hk⟩
    · intro run' hb
      rw [hrun run' hb]
      exact h.turn
    · intro run' hb
      rw [hrun run' hb]
      exact h.covered
    · intro hnone
      exact absurd (hnone.symm.trans h.engine) (Option.some_ne_none run).symm
  rw [maybeSeedContextCompactionRun]
  split
  next hoff =>
    have hnone := h.idle (by simpa using hoff)
    apply hmetered s.compactor _ h.idle
    intro k hk
    rw [hnone] at hk
    cases hk
  next hon =>
    have henabled : env.compaction.enabled = true := by simpa using hon
    split
    next hk =>
      apply hmetered s.compactor _ h.idle
      intro k hk'
      rw [hk', Option.any_some, decide_eq_true_eq, h.signature] at hk
      exact ⟨hk.trans h.turn.symm, h.linked k hk' hk⟩
    · apply hmetered _ _ fun hoff => absurd (hoff.symm.trans henabled) Bool.false_ne_true
      intro k hk
      cases hk
      exact ⟨h.signature.trans h.turn.symm, by rw [h.engine]; rfl⟩

theorem Entering.supervisorNode {s : Session} (h : Entering env s)
    (hon : env.budgetEnabled = true) (host : CompactionHost) (updates : List MessageUpdate) :
    Metered env (s.supervisorNode env host updates) := by
  obtain ⟨run, hs⟩ := h.seeded hon
  exact (hs.metered.compactContext host).update _

theorem Metered.hop {s : Session} (h : Metered env s) (hk : turnSignature s.messages = s.opening) :
    Entering env s := by
  refine ⟨h.nonneg, h.known, h.shared, h.idle, hk, fun run hb _ => h.covered run hb, ?_⟩
  intro hold
  apply h.unspent
  cases hb : s.budget with
  | none => rfl
  | some run => exact absurd (h.seeded run hb) (hold run hb)

theorem Metered.openTurn {s : Session} (h : Metered env s) (input : List MessageUpdate) :
    Entering env (s.openTurn env input) := by
  refine ⟨h.nonneg, h.known, h.shared, h.idle, rfl, ?_, ?_⟩
  · intro run hb _ c
    have hnn := h.nonneg run.meter c
    have hz : (s.openTurn env input).spent.column c = 0 := Usage.column_zero c
    rw [hz]
    exact hnn
  · intro _ c
    exact Usage.column_zero c

theorem Metered.step {s : Session} (h : Metered env s) (hon : env.budgetEnabled = true)
    (a : SessionAction) (hk : s.KeepsTurn a) : Metered env (s.step env a) := by
  cases a with
  | invoke input host updates => exact (h.openTurn input).supervisorNode hon host updates
  | hop host updates => exact (h.hop hk).supervisorNode hon host updates
  | record delta => exact h.record delta
  | answer updates => exact h.update updates

theorem Metered.covers {s : Session} (h : Metered env s) : s.Covered := by
  intro usage hg
  obtain ⟨run, hb, rfl⟩ := Option.map_eq_some_iff.1 hg
  exact h.covered run hb

theorem metered_new (env : Surroundings) : Metered env {} := by
  constructor
  · intro i c
    exact (Usage.column_zero c).ge
  · intro run hb
    cases hb
  · intro k hk
    cases hk
  · intro _
    rfl
  · intro run hb
    cases hb
  · intro run hb
    cases hb
  · intro _ c
    exact Usage.column_zero c

theorem budget_recordSummary (s : Session) (guard : Option Nat) (metered : Option Spend) :
    (s.recordSummary guard metered).budget = s.budget := by
  rw [Session.recordSummary.eq_def]
  split <;> rfl

theorem budget_compactContext (s : Session) (host : CompactionHost) :
    (s.compactContext env host).1.budget = s.budget := by
  rw [Session.compactContext]
  split
  · rfl
  · exact budget_recordSummary _ _ _

theorem budget_off {s : Session} (hoff : env.budgetEnabled = false) (h : s.budget = none)
    (a : SessionAction) : (s.step env a).budget = none := by
  have hnode : ∀ (s : Session) (host : CompactionHost) (updates : List MessageUpdate),
      s.budget = none → (s.supervisorNode env host updates).budget = none := by
    intro s host updates h
    simp only [Session.supervisorNode, Session.update, budget_compactContext,
      maybeSeedContextCompactionRun, maybeSeedBudgetRun, hoff, Bool.not_false, if_true]
    split
    · exact h
    · split
      · exact h
      · exact h
  cases a with
  | invoke input host updates => exact hnode _ host updates h
  | hop host updates => exact hnode s host updates h
  | record delta =>
    simp only [Session.step, Session.record, h]
  | answer updates => exact h

theorem covered_step {s : Session} (a : SessionAction) (hk : s.KeepsTurn a)
    (h : if env.budgetEnabled then Metered env s else s.budget = none) :
    (s.step env a).Covered ∧
      if env.budgetEnabled then Metered env (s.step env a) else (s.step env a).budget = none := by
  cases hon : env.budgetEnabled with
  | true =>
    rw [hon, if_pos rfl] at h
    have hs := h.step hon a hk
    rw [if_pos rfl]
    exact ⟨hs.covers, hs⟩
  | false =>
    rw [hon, if_neg Bool.false_ne_true] at h
    have hs := budget_off hon h a
    rw [if_neg Bool.false_ne_true]
    refine ⟨?_, hs⟩
    intro usage hg
    rw [Session.guarded, hs] at hg
    cases hg

end Session

def putMessage (messages : List Message) (m : Message) : List Message :=
  if m.id.isSome && messages.any fun k => decide (k.id = m.id) then
    messages.map fun k => if k.id = m.id then m else k
  else messages ++ [m]

def mergeMessages (messages : List Message) (updates : List MessageUpdate) : List Message :=
  updates.foldl (fun ms u =>
    match u with
    | .remove id => ms.filter fun m => decide (m.id ≠ some id)
    | .put m => putMessage ms m) messages

def truncating : Surroundings where
  budgetEnabled := true
  compaction := { maxMessages := 2, keepRecent := 1 }
  addMessages := mergeMessages

def quietHost : CompactionHost where
  summarize _ := none
  put _ _ := none

def question : MessageUpdate := .put { id := some "h1", type := .human, content := "Why?" }

def reply (id : String) : MessageUpdate := .put { id := some id, type := .ai, content := "..." }

def call : Spend where
  usage := { promptTokens := 100, calls := 1 }
  nonneg c := by
    cases c <;> simp [Usage.column]

def longTurn : List SessionAction :=
  [.invoke [question] quietHost [], .record call, .answer [reply "a1", reply "a2"],
    .hop quietHost [], .hop quietHost []]

end Prismal.Budget
