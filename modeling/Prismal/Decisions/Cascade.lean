import Prismal.Decisions.Types

namespace Prismal.Decisions
open Prismal.Lib
set_option autoImplicit true

def shuffleRequired (q : QuestionSpec) (policy : GatePolicy) : Bool :=
  decide (q.kind = .choice) && decide (q.riskTier ∈ policy.shuffleCheckTiers)

def evaluateGate (d : Decision) (q : QuestionSpec) (policy : GatePolicy)
    (calibrated tainted corroborated shuffleConsistent : Bool) : Bool × Reason :=
  if d.abstained || d.value.isNone then
    (false, if d.reason = .none then .backendError else d.reason)
  else if !calibrated then (false, .uncalibrated)
  else
    match policy.tau q.riskTier with
    | none => (false, .belowTau)
    | some tau =>
      if tainted && !corroborated && q.riskTier.atLeast .medium then (false, .tainted)
      else if !decide (tau ≤ d.answerConfidence) then (false, .belowTau)
      else if !decide (policy.minMargin ≤ d.margin) then (false, .lowMargin)
      else if shuffleRequired q policy && !shuffleConsistent then (false, .shuffleInconsistent)
      else (true, .none)

/-- What the gate has checked of a decision that it accepts. -/
structure Cleared (d : Decision) (q : QuestionSpec) (policy : GatePolicy)
    (calibrated tainted corroborated : Bool) : Prop where
  answered : d.abstained = false
  value : d.value ≠ none
  calibrated : calibrated = true
  confident : ∃ tau, policy.tau q.riskTier = some tau ∧ tau ≤ d.answerConfidence
  margin : policy.minMargin ≤ d.margin
  untainted : tainted = true → q.riskTier.atLeast .medium = true → corroborated = true

theorem cleared_of_evaluateGate
    (h : (evaluateGate d q policy calibrated tainted corroborated consistent).1 = true) :
    Cleared d q policy calibrated tainted corroborated := by
  rw [evaluateGate] at h
  split at h
  · cases h
  next ha =>
    rw [Bool.or_eq_true, not_or] at ha
    split at h
    · cases h
    next hc =>
      split at h
      · cases h
      next tau ht =>
        split at h
        · cases h
        next hu =>
          split at h
          · cases h
          next hconf =>
            split at h
            · cases h
            next hm =>
              refine ⟨by simpa using ha.1, ?_, by simpa using hc, ⟨tau, ht, by simpa using hconf⟩,
                by simpa using hm, ?_⟩
              · intro hv
                exact ha.2 (by rw [hv]; rfl)
              · intro htainted hmedium
                simpa [htainted, hmedium] using hu

/-- A source of shuffles: each one only reorders what it is given. -/
structure Rng where
  shuffle : Nat → Nat → List OptionSpec → List OptionSpec
  perm : ∀ seed turn options, (shuffle seed turn options).Perm options

def deranged (options original : List OptionSpec) : Bool :=
  (options.zip original).all fun p => decide (p.1.id ≠ p.2.id)

def derangement (rng : Rng) (seed : Nat) (original : List OptionSpec) : List OptionSpec :=
  match (List.range 32).find? fun turn => deranged (rng.shuffle seed turn original) original with
  | some turn => rng.shuffle seed turn original
  | none => original.drop 1 ++ original.take 1

theorem derangement_perm (rng : Rng) (seed : Nat) (original : List OptionSpec) :
    (derangement rng seed original).Perm original := by
  rw [derangement]
  split
  next turn _ => exact rng.perm seed turn original
  · have hrot : (original.drop 1 ++ original.take 1).Perm (original.take 1 ++ original.drop 1) :=
      List.perm_append_comm
    rwa [List.take_append_drop] at hrot

theorem validSpec_perm {id : String} {options options' : List OptionSpec}
    (hp : options'.Perm options) (h : validSpec id kind options levels = true) :
    validSpec id kind options' levels = true := by
  cases kind with
  | choice =>
    simp only [validSpec, Bool.and_eq_true, decide_eq_true_eq, List.all_eq_true] at h ⊢
    obtain ⟨hid, ⟨hlen, hn⟩, hall⟩ := h
    exact ⟨hid, ⟨hp.length_eq ▸ hlen, (hp.map _).nodup_iff.2 hn⟩, fun o ho =>
      hall o (hp.mem_iff.1 ho)⟩
  | score => exact h
  | noul => exact h

def shuffleOptions (rng : Rng) (q : QuestionSpec) (seed : Nat) : QuestionSpec :=
  match q.kind with
  | .choice =>
    { q with
      options := derangement rng seed q.options
      valid := validSpec_perm (derangement_perm rng seed q.options) q.valid }
  | _ => q

def llmTier : String := "llm"

def ruleTierName : String := "rule"

/-- One fitted calibration, as far as the gate reads it. -/
structure CalibrationRecord where
  tau : Rat
  targetPrecision : Rat
  nByLanguage : Dict String Int
  precisionByLanguage : Dict String Rat

def languageEnforceable (record : CalibrationRecord) (language : String) (minExamples : Int) :
    Bool :=
  decide (minExamples ≤ (record.nByLanguage.get? language).getD 0) &&
    decide (record.targetPrecision ≤ (record.precisionByLanguage.get? language).getD 0)

abbrev RuleHook := Dict String String → QuestionSpec → Option Decision

/-- A backend that answers questions; its answers may differ from call to call. -/
structure Backend where
  name : String
  model : String
  budgetMs : Option Int
  supports : QuestionSpec → String → Option Bool
  decide : Nat → Dict String String → Dict String QuestionSpec → GatePolicy → String →
    Option Decision

structure Settings where
  decisionLanguages : List String
  minCalibrationExamples : Int

/-- A built cascade. Where a hook, a record or a calibration raises, it answers `none`. -/
structure Cascade where
  backends : List Backend
  ruleEnabled : Bool
  ruleHook : Option RuleHook
  record : String → String → Option CalibrationRecord
  calibrate : CalibrationRecord → Decision → QuestionSpec → Option Decision
  settings : Option Settings
  llmTimeoutMs : Int
  rng : Rng
  clock : Nat → Rat

/-- An immutable decision state; `seed` is read off its hash. -/
structure DecisionState where
  fields : Dict String String
  taintedFields : List String
  language : String
  seed : Nat
  overLimit : Bool

def DecisionState.tainted (state : DecisionState) : Bool := !state.taintedFields.isEmpty

/-- The arguments of `decide`, for questions that validate. -/
structure DecisionCall where
  state : DecisionState
  questions : Dict String QuestionSpec
  policy : GatePolicy
  corroborate : Option (Decision → Option Bool)
  ruleHook : Option RuleHook
  allowLlm : Bool

structure Pending where
  question : QuestionSpec
  tried : List String := []
  last : Option Decision := none

/-- Which tier settled a question, and the backends it came after. A ghost. -/
inductive Source where
  | rule
  | backend (before : List Backend) (b : Backend)
  | unresolved

structure Resolution where
  id : String
  question : QuestionSpec
  decision : Decision
  source : Source

/-- The pending and the settled questions, the readings of the clock and the calls so far; the
log of resolutions is a ghost. -/
structure Progress where
  pending : Dict String Pending
  resolved : Dict String Decision := ∅
  log : List Resolution := []
  asked : List (String × List String) := []
  reads : Nat := 0
  deadline : Rat := 0

namespace Progress

def resolve (s : Progress) (qid : String) (p : Pending) (d : Decision) (source : Source) :
    Progress :=
  { s with
    pending := s.pending.erase qid
    resolved := s.resolved.set qid d
    log := s.log ++ [⟨qid, p.question, d, source⟩] }

/-- `p.tried.append(tier); p.last = last` -/
def escalate (s : Progress) (qid : String) (p : Pending) (tier : String)
    (last : Option Decision) : Progress :=
  { s with pending := s.pending.set qid { p with tried := p.tried ++ [tier], last := last } }

def visit (s : Progress) (qid : String) (f : Pending → Progress) : Progress :=
  match s.pending.get? qid with
  | none => s
  | some p => f p

def ask (s : Progress) (b : Backend) (questions : Dict String QuestionSpec) : Progress :=
  { s with asked := s.asked ++ [(b.name, questions.keys)] }

def read (s : Progress) : Progress := { s with reads := s.reads + 1 }

end Progress

/-- `replace(d, outcome=Outcome.ACCEPTED, escalated_from=tuple(tried), reason="")` -/
def Decision.accept (d : Decision) (tried : List String) : Decision :=
  { d with outcome := .accepted, escalatedFrom := tried, reason := .none }

/-- A missing or crashing corroborator counts as `false`. -/
def corroborated (corroborate : Option (Decision → Option Bool)) (d : Decision) : Bool :=
  (corroborate.bind fun f => f d).getD false

def ownBudgetMs (b : Backend) : Int := max 0 (b.budgetMs.getD 0)

def blocked (p : Pending) : Bool := p.last.any fun d => decide (d.reason = .overLimit)

def supported (b : Backend) (q : QuestionSpec) (language : String) : Bool :=
  (b.supports q language).getD false

/-- `int(seconds * 1000)` -/
def milliseconds (seconds : Rat) : Int := (seconds * 1000).num.tdiv (seconds * 1000).den

def answered (d : Option Decision) : Bool := d.any fun d => !d.abstained && d.value.isSome

namespace Cascade

variable (c : Cascade) (call : DecisionCall)

def languageAllowed (language : String) : Bool :=
  match c.settings with
  | none => decide (language ∈ ["en", "es"])
  | some settings => decide (language ∈ settings.decisionLanguages)

def sliceOk (record : CalibrationRecord) (language : String) : Bool :=
  languageEnforceable record language (c.settings.elim 300 Settings.minCalibrationExamples)

def start : Progress where
  pending := call.questions.mapValues fun q => { question := q }

def holdBack (p : Pending) : Pending :=
  if p.question.riskTier.atLeast .medium then
    { p with last := some (.abstain p.question "none" "" .overLimit) }
  else p

def skipOverLimit (s : Progress) : Progress :=
  if call.state.overLimit then
    { s with pending := s.pending.mapValues holdBack }
  else s

def hook : Option RuleHook :=
  if c.ruleEnabled then call.ruleHook.or c.ruleHook else none

def askRule (hook : RuleHook) (s : Progress) (qid : String) : Progress :=
  s.visit qid fun p =>
    if p.question.riskTier = .critical then s.escalate qid p ruleTierName p.last
    else
      match hook call.state.fields p.question with
      | none => s.escalate qid p ruleTierName p.last
      | some d =>
        if answered (some d) then
          s.resolve qid p
            { d with backend := ruleTierName, outcome := .accepted, escalatedFrom := [] } .rule
        else s.escalate qid p ruleTierName p.last

def ruleTier (s : Progress) : Progress :=
  match c.hook call with
  | none => s
  | some hook => s.pending.keys.foldl (askRule call hook) s

def shuffleCheck (b : Backend) (d : Decision) (q : QuestionSpec) (policy : GatePolicy)
    (deadline : Rat) (s : Progress) : Bool × Progress :=
  let remaining := milliseconds (deadline - c.clock s.reads)
  if remaining ≤ 0 then (false, s.read)
  else
    let asked := Dict.collect [(q.id, shuffleOptions c.rng q call.state.seed)]
    let second := b.decide s.asked.length call.state.fields asked
      { policy with timeoutMs := remaining } q.id
    (second.any fun a => !a.abstained && decide (a.value = d.value), (s.ask b asked).read)

def gatePolicy (policy : GatePolicy) (q : QuestionSpec) (record : Option CalibrationRecord) :
    GatePolicy :=
  match record with
  | none => policy
  | some r => policy.withTauFloor q.riskTier r.tau

def gateCalibrated (b : Backend) (d : Decision) (q : QuestionSpec) (policy : GatePolicy)
    (record : Option CalibrationRecord) (deadline : Rat) (s : Progress) :
    (Bool × Reason) × Progress :=
  let qPolicy := gatePolicy policy q record
  let calibrated := record.any fun r => c.sliceOk r call.state.language
  let backed := call.state.tainted && !d.abstained && corroborated call.corroborate d
  let verdict := evaluateGate d q qPolicy calibrated call.state.tainted backed true
  if verdict.1 && shuffleRequired q qPolicy then
    let (consistent, s) := c.shuffleCheck call b d q policy deadline s
    (evaluateGate d q qPolicy calibrated call.state.tainted backed consistent, s)
  else (verdict, s)

def recordOf (b : Backend) (raw : Decision) (q : QuestionSpec) : Option CalibrationRecord :=
  if raw.abstained then none else c.record q.id b.model

/-- Apply the record; `none`: it raised. -/
def calibrated (record : Option CalibrationRecord) (raw : Decision) (q : QuestionSpec) :
    Option Decision :=
  match record with
  | none => some raw
  | some r => c.calibrate r raw q

def gate (before : List Backend) (b : Backend) (policy : GatePolicy) (deadline : Rat)
    (raw : Decision) (qid : String) (p : Pending) (s : Progress) : Progress :=
  let record := c.recordOf b raw p.question
  match c.calibrated record raw p.question with
  | none =>
    s.escalate qid p b.name (some (.abstain p.question b.name b.model .backendError))
  | some d =>
    let (verdict, s) := c.gateCalibrated call b d p.question policy record deadline s
    if verdict.1 then s.resolve qid p (d.accept p.tried) (.backend before b)
    else
      s.escalate qid p b.name (some { d with outcome := .escalated, reason := verdict.2 })

def settle (before : List Backend) (b : Backend) (policy : GatePolicy) (deadline : Rat)
    (answers : String → Option Decision) (s : Progress) (qid : String) : Progress :=
  s.visit qid fun p =>
    let raw := (answers qid).getD (.abstain p.question b.name b.model .backendError)
    c.gate call before b policy deadline raw qid p s

def eligible (b : Backend) (s : Progress) : Dict String Pending :=
  s.pending.filter fun e =>
    !blocked e.2 && supported b e.2.question call.state.language

def questionsOf (pending : Dict String Pending) : Dict String QuestionSpec :=
  pending.mapValues Pending.question

def passUnsupported (b : Backend) (s : Progress) (qid : String) : Progress :=
  s.visit qid fun p =>
    if !blocked p && !supported b p.question call.state.language then
      s.escalate qid p b.name
        (p.last.or (some (.abstain p.question b.name b.model .unsupported)))
    else s

def passTimeout (b : Backend) (s : Progress) (qid : String) : Progress :=
  s.visit qid fun p =>
    s.escalate qid p b.name (some (.abstain p.question b.name b.model .timeout))

def handBack (own : Int) (tierStart : Rat) (s : Progress) : Progress :=
  if 0 < own then { s with deadline := s.deadline + (c.clock s.reads - tierStart) }.read else s

/-- `own_ms or int((deadline - tier_start) * 1000)` -/
def tierBudget (b : Backend) (s : Progress) : Int :=
  if 0 < ownBudgetMs b then ownBudgetMs b else milliseconds (s.deadline - c.clock s.reads)

def tierDeadline (b : Backend) (s : Progress) : Rat :=
  if 0 < ownBudgetMs b then c.clock s.reads + c.tierBudget b s / 1000 else s.deadline

def askBackend (before : List Backend) (b : Backend) (questions : Dict String QuestionSpec)
    (s : Progress) : Progress :=
  if c.tierBudget b s ≤ 0 then questions.keys.foldl (passTimeout b) s.read
  else
    let policy := { call.policy with timeoutMs := c.tierBudget b s }
    let answers := b.decide s.asked.length call.state.fields questions policy
    c.handBack (ownBudgetMs b) (c.clock s.reads)
      (questions.keys.foldl (c.settle call before b policy (c.tierDeadline b s) answers)
        (s.read.ask b questions))

def modelTier (before : List Backend) (b : Backend) (s : Progress) : Progress :=
  let questions := questionsOf (eligible call b s)
  let s := s.pending.keys.foldl (passUnsupported call b) s
  if questions.entries = [] then s else c.askBackend call before b questions s

/-- One answer of the terminal tier, which is not gated, but never accepts uncorroborated tainted
answers of at least MEDIUM risk. -/
def settleLlm (before : List Backend) (b : Backend) (answers : String → Option Decision)
    (s : Progress) (qid : String) : Progress :=
  s.visit qid fun p =>
    match answers qid with
    | none => s.escalate qid p b.name p.last
    | some d =>
      if !d.abstained && call.state.tainted && p.question.riskTier.atLeast .medium &&
          !corroborated call.corroborate d then
        s.escalate qid p b.name (some { d with outcome := .escalated, reason := .tainted })
      else if answered (some d) then s.resolve qid p (d.accept p.tried) (.backend before b)
      else s.escalate qid p b.name (some d)

def llmTierStep (before : List Backend) (b : Backend) (s : Progress) : Progress :=
  let questions := questionsOf (s.pending.filter fun e => !blocked e.2)
  if questions.entries = [] then s
  else
    let answers := b.decide s.asked.length call.state.fields questions
      { call.policy with timeoutMs := c.llmTimeoutMs }
    questions.keys.foldl (settleLlm call before b answers) (s.ask b questions)

def tier (before : List Backend) (b : Backend) (s : Progress) : Progress :=
  if b.name = llmTier then
    if call.allowLlm then c.llmTierStep call before b s else s
  else c.modelTier call before b s

def tiers (before : List Backend) : List Backend → Progress → Progress
  | [], s => s
  | b :: bs, s =>
    if s.pending.entries = [] then s else tiers (before ++ [b]) bs (c.tier call before b s)

def modelTiers (s : Progress) : Progress :=
  c.tiers call [] c.backends
    { s with deadline := c.clock s.reads + call.policy.timeoutMs / 1000 }.read

def leftover (reason : Option Reason) (p : Pending) : Decision :=
  match reason, p.last with
  | none, some last => last
  | _, _ => .abstain p.question "none" "" (reason.getD .unsupported)

def finish (reason : Option Reason) (s : Progress) (qid : String) : Progress :=
  s.visit qid fun p =>
    s.resolve qid p
      { leftover reason p with outcome := .escalated, escalatedFrom := p.tried } .unresolved

def finishAll (reason : Option Reason) (s : Progress) : Progress :=
  s.pending.keys.foldl (finish reason) s

def decide : Progress :=
  if c.languageAllowed call.state.language then
    finishAll none (c.modelTiers call (c.ruleTier call (skipOverLimit call (start call))))
  else finishAll (some .unsupported) (start call)

end Cascade

end Prismal.Decisions
