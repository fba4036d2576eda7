import Prismal.Decisions.Cascade

namespace Prismal.Decisions
open Prismal.Lib
set_option autoImplicit true

/-! What an accepted answer has passed. -/

variable {c : Cascade} {call : DecisionCall}

def takesPart (call : DecisionCall) (b : Backend) : Bool :=
  !decide (b.name = llmTier) || call.allowLlm

def ruleStep (c : Cascade) (call : DecisionCall) : List String :=
  if (c.hook call).isSome then [ruleTierName] else []

def stepsBefore (c : Cascade) (call : DecisionCall) (before : List Backend) : List String :=
  ruleStep c call ++ (before.filter (takesPart call)).map Backend.name

def tiersBefore (c : Cascade) (call : DecisionCall) : Source → List String
  | .rule => []
  | .backend before _ => stepsBefore c call before
  | .unresolved => []

/-- A calibrated answer over the threshold of its tier and the margin. -/
structure Calibrated (c : Cascade) (call : DecisionCall) (b : Backend) (q : QuestionSpec)
    (d : Decision) : Prop where
  record : ∃ record, c.record q.id b.model = some record ∧
    c.sliceOk record call.state.language = true ∧
    ∃ tau, (call.policy.withTauFloor q.riskTier record.tau).tau q.riskTier = some tau ∧
      tau ≤ d.answerConfidence
  margin : call.policy.minMargin ≤ d.margin

structure Accepted (c : Cascade) (call : DecisionCall) (r : Resolution) : Prop where
  answered : r.decision.abstained = false ∧ r.decision.value ≠ none
  settled : r.source ≠ .unresolved
  placed : ∀ before b, r.source = .backend before b →
    (∃ after, c.backends = before ++ b :: after) ∧ takesPart call b = true
  escalated : r.decision.escalatedFrom = tiersBefore c call r.source
  calibrated : ∀ before b, r.source = .backend before b → b.name ≠ llmTier →
    Calibrated c call b r.question r.decision
  corroborated : call.state.tainted = true → r.question.riskTier.atLeast .medium = true →
    r.source = .rule ∨ ∃ d tried, corroborated call.corroborate d = true ∧
      r.decision = d.accept tried
  limited : call.state.overLimit = true → r.question.riskTier.atLeast .medium = true →
    r.source = .rule

/-- The bookkeeping that every step of the cascade keeps. -/
structure Board (c : Cascade) (call : DecisionCall) (s : Progress) : Prop where
  partition : (s.log.map Resolution.id ++ s.pending.keys).Perm call.questions.keys
  resolved : ∀ id d, s.resolved.get? id = some d ↔ ∃ r ∈ s.log, r.id = id ∧ r.decision = d
  questions : ∀ id p, s.pending.get? id = some p → call.questions.get? id = some p.question
  logged : ∀ r ∈ s.log, call.questions.get? r.id = some r.question ∧
    (r.decision.outcome = .accepted → Accepted c call r)

/-- Over the call limit, the open questions of at least MEDIUM risk are held back. -/
structure Sound (c : Cascade) (call : DecisionCall) (s : Progress) : Prop
    extends Board c call s where
  held : call.state.overLimit = true → ∀ id p, s.pending.get? id = some p →
    p.question.riskTier.atLeast .medium = true → blocked p = true

/-- The open questions have tried `a` and, where their turn is over, `b`. -/
def Level (a : List String) (todo : List String) (b : List String) (s : Progress) : Prop :=
  ∀ id p, s.pending.get? id = some p → blocked p = false →
    p.tried = if id ∈ todo then a else b

namespace Board

variable {s : Progress}

theorem nodup (h : Board c call s) : (s.log.map Resolution.id ++ s.pending.keys).Nodup :=
  h.partition.nodup_iff.2 call.questions.nodup

theorem resolve (h : Board c call s) (hp : s.pending.get? qid = some p)
    (ha : d.outcome = .accepted → Accepted c call ⟨qid, p.question, d, source⟩) :
    Board c call (s.resolve qid p d source) := by
  have hmem : qid ∈ s.pending := Dict.mem_of_get? hp
  constructor
  · have hperm := Dict.perm_keys_erase hmem
    simp only [Progress.resolve, List.map_append, List.map_cons, List.map_nil, List.append_assoc]
    exact (List.Perm.append_left _ hperm.symm).trans h.partition
  · intro id d'
    have hnew : ∀ r ∈ s.log, r.id ≠ qid := by
      intro r hr he
      exact (List.nodup_append.1 h.nodup).2.2 _ (List.mem_map_of_mem hr) qid hmem he
    simp only [Progress.resolve, Dict.get?_set, List.mem_append, List.mem_singleton]
    split
    next he =>
      subst he
      constructor
      · intro hd
        exact ⟨_, .inr rfl, rfl, Option.some.inj hd⟩
      · rintro ⟨r, hr | rfl, hid, rfl⟩
        · exact absurd hid (hnew r hr)
        · rfl
    next hne =>
      rw [h.resolved id d']
      constructor
      · rintro ⟨r, hr, hid⟩
        exact ⟨r, .inl hr, hid⟩
      · rintro ⟨r, hr | rfl, hid, hd⟩
        · exact ⟨r, hr, hid, hd⟩
        · exact absurd hid hne
  · intro id p' hp'
    simp only [Progress.resolve, Dict.get?_erase] at hp'
    split at hp'
    · cases hp'
    · exact h.questions id p' hp'
  · intro r hr
    rcases List.mem_append.1 hr with hr | hr
    · exact h.logged r hr
    · cases List.mem_singleton.1 hr
      exact ⟨h.questions qid p hp, ha⟩

end Board

namespace Sound

variable {s : Progress}

theorem of_pending (h : Sound c call s) (hp : s'.pending = s.pending)
    (hr : s'.resolved = s.resolved) (hl : s'.log = s.log) : Sound c call s' := by
  obtain ⟨⟨h₁, h₂, h₃, h₄⟩, h₅⟩ := h
  refine ⟨⟨?_, ?_, ?_, ?_⟩, ?_⟩
  · rw [hl, hp]
    exact h₁
  · rw [hr, hl]
    exact h₂
  · rw [hp]
    exact h₃
  · rw [hl]
    exact h₄
  · rw [hp]
    exact h₅

theorem resolve (h : Sound c call s) (hp : s.pending.get? qid = some p)
    (ha : d.outcome = .accepted → Accepted c call ⟨qid, p.question, d, source⟩) :
    Sound c call (s.resolve qid p d source) := by
  refine ⟨h.toBoard.resolve hp ha, ?_⟩
  intro ho id p' hp'
  simp only [Progress.resolve, Dict.get?_erase] at hp'
  split at hp'
  · cases hp'
  · exact h.held ho id p' hp'

theorem escalate (h : Sound c call s) (hp : s.pending.get? qid = some p)
    (hb : blocked p = true → (last.any fun d => decide (d.reason = .overLimit)) = true) :
    Sound c call (s.escalate qid p tier last) := by
  have hmem : qid ∈ s.pending := Dict.mem_of_get? hp
  obtain ⟨⟨h₁, h₂, h₃, h₄⟩, h₅⟩ := h
  refine ⟨⟨?_, ?_, ?_, ?_⟩, ?_⟩
  · simp only [Progress.escalate, Dict.keys_set_mem hmem]
    exact h₁
  · exact h₂
  · intro id p' hp'
    simp only [Progress.escalate, Dict.get?_set] at hp'
    split at hp'
    next he =>
      cases hp'
      exact he ▸ h₃ qid p hp
    · exact h₃ id p' hp'
  · exact h₄
  · intro ho id p' hp' hm
    simp only [Progress.escalate, Dict.get?_set] at hp'
    split at hp'
    · cases hp'
      exact hb (h₅ ho qid p hp hm)
    · exact h₅ ho id p' hp' hm

end Sound

theorem Level.all (h : Level a [] a s) (b : List String) : Level a s.pending.keys b s := by
  intro id p hp hb
  have ht := h id p hp hb
  have hk : id ∈ s.pending.keys := Dict.mem_of_get? hp
  rw [if_pos hk]
  simpa using ht

theorem Level.of_pending (h : Level a todo b s) (hp : s'.pending = s.pending) :
    Level a todo b s' := by
  intro id p hp'
  rw [hp] at hp'
  exact h id p hp'

theorem Level.resolve (h : Level a (qid :: todo) b s) :
    Level a todo b (s.resolve qid p d source) := by
  intro id p' hp' hb
  simp only [Progress.resolve, Dict.get?_erase] at hp'
  split at hp'
  · cases hp'
  next hne =>
    have ht := h id p' hp' hb
    have hmem : id ∈ qid :: todo ↔ id ∈ todo := by
      rw [List.mem_cons]
      exact or_iff_right fun he => hne he.symm
    simpa only [hmem] using ht

theorem Level.escalate (h : Level a (qid :: todo) b s) (hq : qid ∉ todo)
    (ht : (last.any fun d => decide (d.reason = .overLimit)) = false → p.tried ++ [tier] = b) :
    Level a todo b (s.escalate qid p tier last) := by
  intro id p' hp' hb
  simp only [Progress.escalate, Dict.get?_set] at hp'
  split at hp'
  next he =>
    cases hp'
    subst he
    rw [if_neg hq]
    exact ht hb
  next hne =>
    have ht := h id p' hp' hb
    have hmem : id ∈ qid :: todo ↔ id ∈ todo := by
      rw [List.mem_cons]
      exact or_iff_right fun he => hne he.symm
    simpa only [hmem] using ht

theorem foldl_visit {I : List String → Progress → Prop} {f : Progress → String → Progress}
    (hstep : ∀ qid todo s, qid ∉ todo → I (qid :: todo) s → I todo (f s qid)) :
    ∀ (todo : List String) (s : Progress), todo.Nodup → I todo s → I [] (todo.foldl f s)
  | [], _, _, h => h
  | qid :: todo, s, hn, h => by
    rw [List.nodup_cons] at hn
    exact foldl_visit hstep todo _ hn.2 (hstep qid todo s hn.1 h)

theorem visit_some {s : Progress} {f : Pending → Progress} (hp : s.pending.get? qid = some p) :
    s.visit qid f = f p := by
  rw [Progress.visit, hp]

theorem visit_none {s : Progress} {f : Pending → Progress} (hp : s.pending.get? qid = none) :
    s.visit qid f = s := by
  rw [Progress.visit, hp]

theorem Level.skip {s : Progress} (h : Level a (qid :: todo) b s) (hq : s.pending.get? qid = none) :
    Level a todo b s := by
  intro id p hp hb
  have ht := h id p hp hb
  have hne : id ≠ qid := by
    rintro rfl
    rw [hq] at hp
    cases hp
  have hmem : id ∈ qid :: todo ↔ id ∈ todo := by
    rw [List.mem_cons]
    exact or_iff_right hne
  simpa only [hmem] using ht

theorem answered_some (h : answered (some d) = true) : d.abstained = false ∧ d.value ≠ none := by
  rw [answered, Option.any_some, Bool.and_eq_true] at h
  refine ⟨by simpa using h.1, ?_⟩
  intro hv
  rw [hv] at h
  cases h.2

theorem accepted_rule (h : answered (some d) = true) :
    Accepted c call ⟨qid, q, { d with
      backend := ruleTierName, outcome := .accepted, escalatedFrom := [] }, .rule⟩ := by
  constructor
  · exact answered_some h
  · intro he
    cases he
  · intro before b he
    cases he
  · rfl
  · intro before b he
    cases he
  · intro _ _
    exact .inl rfl
  · intro _ _
    rfl

theorem askRule_step {s : Progress} (hs : Sound c call s ∧ Level [] (qid :: todo) [ruleTierName] s)
    (hq : qid ∉ todo) (hook : RuleHook) :
    Sound c call (Cascade.askRule call hook s qid) ∧
      Level [] todo [ruleTierName] (Cascade.askRule call hook s qid) := by
  obtain ⟨hs, hl⟩ := hs
  rw [Cascade.askRule]
  cases hp : s.pending.get? qid with
  | none =>
    rw [visit_none hp]
    exact ⟨hs, hl.skip hp⟩
  | some p =>
    rw [visit_some hp]
    have hpass : Sound c call (s.escalate qid p ruleTierName p.last) ∧
        Level [] todo [ruleTierName] (s.escalate qid p ruleTierName p.last) := by
      refine ⟨hs.escalate hp fun hb => hb, hl.escalate hq ?_⟩
      intro hb
      have ht := hl qid p hp hb
      rw [if_pos List.mem_cons_self] at ht
      rw [ht]
      rfl
    split
    · exact hpass
    · split
      · exact hpass
      · split
        next ha => exact ⟨hs.resolve hp fun _ => accepted_rule ha, hl.resolve⟩
        · exact hpass

theorem ruleTier_spec (hs : Sound c call s)
    (hl : Level [] [] [] s) : Sound c call (c.ruleTier call s) ∧
      Level (ruleStep c call) [] (ruleStep c call) (c.ruleTier call s) := by
  rw [Cascade.ruleTier, ruleStep]
  cases hh : c.hook call with
  | none => exact ⟨hs, hl⟩
  | some hook =>
    obtain ⟨hs, hl⟩ := foldl_visit
      (I := fun todo s => Sound c call s ∧ Level [] todo [ruleTierName] s)
      (fun qid todo s hq h => askRule_step h hq hook) s.pending.keys s s.pending.nodup
      ⟨hs, hl.all _⟩
    refine ⟨hs, ?_⟩
    intro id p hp hb
    have ht := hl id p hp hb
    simpa using ht

/-- The turn of one backend: `todo` are the questions that it has still to answer. -/
structure Turn (c : Cascade) (call : DecisionCall) (before : List Backend) (b : Backend)
    (todo : List String) (s : Progress) : Prop where
  sound : Sound c call s
  level : Level (stepsBefore c call before) todo (stepsBefore c call before ++ [b.name]) s
  unblocked : ∀ id ∈ todo, ∀ p, s.pending.get? id = some p → blocked p = false

namespace Turn

variable {before : List Backend} {b : Backend} {s : Progress}

theorem of_pending (h : Turn c call before b todo s) (hp : s'.pending = s.pending)
    (hr : s'.resolved = s.resolved) (hl : s'.log = s.log) : Turn c call before b todo s' := by
  refine ⟨h.sound.of_pending hp hr hl, h.level.of_pending hp, ?_⟩
  rw [hp]
  exact h.unblocked

theorem skip (h : Turn c call before b (qid :: todo) s) (hq : s.pending.get? qid = none) :
    Turn c call before b todo s :=
  ⟨h.sound, h.level.skip hq, fun id hid => h.unblocked id (List.mem_cons_of_mem qid hid)⟩

theorem tried (h : Turn c call before b (qid :: todo) s) (hp : s.pending.get? qid = some p) :
    blocked p = false ∧ p.tried = stepsBefore c call before := by
  have hb := h.unblocked qid List.mem_cons_self p hp
  have ht := h.level qid p hp hb
  rw [if_pos List.mem_cons_self] at ht
  exact ⟨hb, ht⟩

theorem resolve (h : Turn c call before b (qid :: todo) s) (hp : s.pending.get? qid = some p)
    (ha : Accepted c call ⟨qid, p.question, d, source⟩) :
    Turn c call before b todo (s.resolve qid p d source) := by
  refine ⟨h.sound.resolve hp fun _ => ha, h.level.resolve, ?_⟩
  intro id hid p' hp'
  simp only [Progress.resolve, Dict.get?_erase] at hp'
  split at hp'
  · cases hp'
  · exact h.unblocked id (List.mem_cons_of_mem qid hid) p' hp'

theorem escalate (h : Turn c call before b (qid :: todo) s) (hq : qid ∉ todo)
    (hp : s.pending.get? qid = some p) (last : Option Decision) :
    Turn c call before b todo (s.escalate qid p b.name last) := by
  obtain ⟨hb, ht⟩ := h.tried hp
  constructor
  · apply h.sound.escalate hp
    intro hb'
    rw [hb] at hb'
    cases hb'
  · apply h.level.escalate hq
    intro _
    rw [ht]
  · intro id hid p' hp'
    have hne : qid ≠ id := fun he => hq (he ▸ hid)
    simp only [Progress.escalate, Dict.get?_set_ne _ hne] at hp'
    exact h.unblocked id (List.mem_cons_of_mem qid hid) p' hp'

theorem not_limited (h : Turn c call before b (qid :: todo) s)
    (hp : s.pending.get? qid = some p) (ho : call.state.overLimit = true)
    (hm : p.question.riskTier.atLeast .medium = true) : False := by
  have hb := h.sound.held ho qid p hp hm
  rw [(h.tried hp).1] at hb
  cases hb

end Turn

/-- The backend `b` stands after `before` in the cascade. -/
def Placed (c : Cascade) (call : DecisionCall) (before : List Backend) (b : Backend) : Prop :=
  (∃ after, c.backends = before ++ b :: after) ∧ takesPart call b = true

theorem shuffleCheck_frame (s : Progress) :
    (c.shuffleCheck call b d q policy deadline s).2.pending = s.pending ∧
      (c.shuffleCheck call b d q policy deadline s).2.resolved = s.resolved ∧
      (c.shuffleCheck call b d q policy deadline s).2.log = s.log := by
  rw [Cascade.shuffleCheck]
  split
  · exact ⟨rfl, rfl, rfl⟩
  · exact ⟨rfl, rfl, rfl⟩

theorem gateCalibrated_frame (c : Cascade) (call : DecisionCall) (b : Backend)
    (d : Decision) (q : QuestionSpec) (policy : GatePolicy) (record : Option CalibrationRecord)
    (deadline : Rat) (s : Progress) :
    (c.gateCalibrated call b d q policy record deadline s).2.pending = s.pending ∧
      (c.gateCalibrated call b d q policy record deadline s).2.resolved = s.resolved ∧
      (c.gateCalibrated call b d q policy record deadline s).2.log = s.log := by
  rw [Cascade.gateCalibrated]
  split
  · exact shuffleCheck_frame s
  · exact ⟨rfl, rfl, rfl⟩

theorem cleared_of_gateCalibrated
    (h : (c.gateCalibrated call b d q policy record deadline s).1.1 = true) :
    Cleared d q (Cascade.gatePolicy policy q record)
      (record.any fun r => c.sliceOk r call.state.language) call.state.tainted
      (call.state.tainted && !d.abstained && corroborated call.corroborate d) := by
  rw [Cascade.gateCalibrated] at h
  split at h
  · exact cleared_of_evaluateGate h
  · exact cleared_of_evaluateGate h

theorem tau_withTauFloor_timeout (policy : GatePolicy) (ms : Int) (t : RiskTier) (x : Rat) :
    (({ policy with timeoutMs := ms } : GatePolicy).withTauFloor t x).tau t =
      (policy.withTauFloor t x).tau t := by
  have ht : ({ policy with timeoutMs := ms } : GatePolicy).tau t = policy.tau t := rfl
  rw [GatePolicy.withTauFloor, GatePolicy.withTauFloor, ht]
  cases policy.tau t with
  | none => rfl
  | some current => rfl

theorem accepted_gate {s : Progress} (h : Turn c call before b (qid :: todo) s)
    (hp : s.pending.get? qid = some p) (hplace : Placed c call before b)
    (hd : Cleared d p.question
      (Cascade.gatePolicy { call.policy with timeoutMs := ms } p.question
        (c.recordOf b raw p.question))
      ((c.recordOf b raw p.question).any fun r => c.sliceOk r call.state.language)
      call.state.tainted
      (call.state.tainted && !d.abstained && corroborated call.corroborate d)) :
    Accepted c call ⟨qid, p.question, d.accept p.tried, .backend before b⟩ := by
  obtain ⟨-, ht⟩ := h.tried hp
  constructor
  · exact ⟨hd.answered, hd.value⟩
  · intro he
    cases he
  · intro before' b' he
    cases he
    exact hplace
  · exact ht
  · intro before' b' he _
    cases he
    have hcal := hd.calibrated
    have hconf := hd.confident
    have hmargin := hd.margin
    rw [Option.any_eq_true] at hcal
    obtain ⟨record, hr, hok⟩ := hcal
    rw [hr, Cascade.gatePolicy] at hconf hmargin
    refine ⟨⟨record, ?_, hok, ?_⟩, ?_⟩
    · rw [Cascade.recordOf] at hr
      split at hr
      · cases hr
      · exact hr
    · rw [tau_withTauFloor_timeout] at hconf
      exact hconf
    · have hm : (({ call.policy with timeoutMs := ms } : GatePolicy).withTauFloor
          p.question.riskTier record.tau).minMargin = call.policy.minMargin := by
        rw [GatePolicy.withTauFloor]
        split <;> rfl
      rw [hm] at hmargin
      exact hmargin
  · intro htaint hmed
    have hback := hd.untainted htaint hmed
    rw [Bool.and_eq_true] at hback
    exact .inr ⟨d, p.tried, hback.2, rfl⟩
  · intro ho hm
    exact (h.not_limited hp ho hm).elim

theorem gate_step {s : Progress} (h : Turn c call before b (qid :: todo) s) (hq : qid ∉ todo)
    (hp : s.pending.get? qid = some p) (hplace : Placed c call before b) :
    Turn c call before b todo
      (c.gate call before b { call.policy with timeoutMs := ms } deadline raw qid p s) := by
  simp only [Cascade.gate]
  split
  · exact h.escalate hq hp _
  next d _ =>
    obtain ⟨hpend, hres, hlog⟩ := gateCalibrated_frame c call b d p.question
      { call.policy with timeoutMs := ms } (c.recordOf b raw p.question) deadline s
    have h' := h.of_pending hpend hres hlog
    have hp' := hp
    rw [← hpend] at hp'
    split
    next hok => exact h'.resolve hp' (accepted_gate h hp hplace (cleared_of_gateCalibrated hok))
    · exact h'.escalate hq hp' _

theorem settle_step {s : Progress} (h : Turn c call before b (qid :: todo) s) (hq : qid ∉ todo)
    (hplace : Placed c call before b) (answers : String → Option Decision) :
    Turn c call before b todo
      (c.settle call before b { call.policy with timeoutMs := ms } deadline answers s qid) := by
  rw [Cascade.settle]
  cases hp : s.pending.get? qid with
  | none =>
    rw [visit_none hp]
    exact h.skip hp
  | some p =>
    rw [visit_some hp]
    exact gate_step h hq hp hplace

theorem passTimeout_step {s : Progress} (h : Turn c call before b (qid :: todo) s)
    (hq : qid ∉ todo) : Turn c call before b todo (Cascade.passTimeout b s qid) := by
  rw [Cascade.passTimeout]
  cases hp : s.pending.get? qid with
  | none =>
    rw [visit_none hp]
    exact h.skip hp
  | some p =>
    rw [visit_some hp]
    exact h.escalate hq hp _

theorem turn_handBack {s : Progress} (h : Turn c call before b todo s) :
    Turn c call before b todo (c.handBack own tierStart s) := by
  rw [Cascade.handBack]
  split
  · exact h.of_pending rfl rfl rfl
  · exact h

theorem askBackend_spec {s : Progress} {questions : Dict String QuestionSpec}
    (h : Turn c call before b questions.keys s) (hplace : Placed c call before b) :
    Turn c call before b [] (c.askBackend call before b questions s) := by
  rw [Cascade.askBackend]
  split
  · exact foldl_visit (I := Turn c call before b) (fun qid todo s hq h => passTimeout_step h hq)
      questions.keys _ questions.nodup (h.of_pending rfl rfl rfl)
  · apply turn_handBack
    exact foldl_visit (I := Turn c call before b)
      (fun qid todo s hq h => settle_step h hq hplace _) questions.keys _ questions.nodup
      (h.of_pending rfl rfl rfl)

/-- While unsupported questions pass a backend by: `s₀` is the state before. -/
structure Passing (c : Cascade) (call : DecisionCall) (before : List Backend) (b : Backend)
    (s₀ : Progress) (todo : List String) (s : Progress) : Prop where
  sound : Sound c call s
  level : Level (stepsBefore c call before) (todo ++ (Cascade.eligible call b s₀).keys)
    (stepsBefore c call before ++ [b.name]) s
  kept : ∀ id, id ∈ todo ∨ id ∈ Cascade.eligible call b s₀ → s.pending.get? id = s₀.pending.get? id

theorem mem_eligible {id : String} {s : Progress} (hp : s.pending.get? id = some p) :
    id ∈ Cascade.eligible call b s ↔
      blocked p = false ∧ supported b p.question call.state.language = true := by
  rw [Cascade.eligible, Dict.mem_filter]
  constructor
  · rintro ⟨p', hp', h⟩
    rw [hp] at hp'
    cases hp'
    simpa using h
  · intro h
    exact ⟨p, hp, by simpa using h⟩

theorem passUnsupported_step {s : Progress} (h : Passing c call before b s₀ (qid :: todo) s)
    (hq : qid ∉ todo) :
    Passing c call before b s₀ todo (Cascade.passUnsupported call b s qid) := by
  have hkept : ∀ id, id ∈ todo ∨ id ∈ Cascade.eligible call b s₀ →
      s.pending.get? id = s₀.pending.get? id := by
    intro id hid
    exact h.kept id (hid.imp_left fun hm => List.mem_cons_of_mem qid hm)
  rw [Cascade.passUnsupported]
  cases hp : s.pending.get? qid with
  | none =>
    rw [visit_none hp]
    exact ⟨h.sound, h.level.skip hp, hkept⟩
  | some p =>
    rw [visit_some hp]
    have hp₀ : s₀.pending.get? qid = some p := by
      rw [← h.kept qid (.inl List.mem_cons_self)]
      exact hp
    split
    next hc =>
      rw [Bool.and_eq_true, Bool.not_eq_true', Bool.not_eq_true'] at hc
      have hnot : qid ∉ Cascade.eligible call b s₀ := by
        rw [mem_eligible hp₀, hc.2]
        simp
      have hmem : qid ∉ todo ++ (Cascade.eligible call b s₀).keys := by
        rw [List.mem_append, not_or]
        exact ⟨hq, hnot⟩
      constructor
      · apply h.sound.escalate hp
        intro hb
        rw [hc.1] at hb
        cases hb
      · apply h.level.escalate hmem
        intro _
        have ht := h.level qid p hp hc.1
        rw [if_pos (List.mem_append_left _ List.mem_cons_self)] at ht
        rw [ht]
      · intro id hid
        have hne : qid ≠ id := by
          rintro rfl
          exact hid.elim hq hnot
        simp only [Progress.escalate, Dict.get?_set_ne _ hne]
        exact hkept id hid
    next hc =>
      refine ⟨h.sound, ?_, hkept⟩
      intro id p' hp' hb
      have ht := h.level id p' hp' hb
      by_cases he : id = qid
      · subst he
        rw [hp] at hp'
        cases hp'
        have hmem : id ∈ Cascade.eligible call b s₀ := by
          rw [mem_eligible hp₀]
          simpa [hb] using hc
        rw [if_pos (List.mem_append_left _ List.mem_cons_self)] at ht
        rw [if_pos (List.mem_append_right _ hmem)]
        exact ht
      · have hmem : id ∈ qid :: todo ++ (Cascade.eligible call b s₀).keys ↔
            id ∈ todo ++ (Cascade.eligible call b s₀).keys := by
          rw [List.cons_append, List.mem_cons]
          exact or_iff_right he
        simpa only [hmem] using ht

theorem stepsBefore_snoc (h : takesPart call b = true) :
    stepsBefore c call (before ++ [b]) = stepsBefore c call before ++ [b.name] := by
  rw [stepsBefore, stepsBefore, List.filter_append, List.map_append, List.append_assoc,
    List.filter_cons_of_pos h]
  rfl

theorem stepsBefore_skip (h : takesPart call b = false) :
    stepsBefore c call (before ++ [b]) = stepsBefore c call before := by
  rw [stepsBefore, stepsBefore, List.filter_append, List.filter_cons_of_neg (by simp [h]),
    List.filter_nil, List.append_nil]

/-- Between two tiers: the open questions have tried what came before. -/
structure Between (c : Cascade) (call : DecisionCall) (before : List Backend) (s : Progress) :
    Prop where
  sound : Sound c call s
  level : Level (stepsBefore c call before) [] (stepsBefore c call before) s

theorem Turn.done {s : Progress} (h : Turn c call before b [] s) (ht : takesPart call b = true) :
    Between c call (before ++ [b]) s := by
  refine ⟨h.sound, ?_⟩
  rw [stepsBefore_snoc ht]
  intro id p hp hb
  have hl := h.level id p hp hb
  simpa using hl

theorem modelTier_spec {s : Progress} (h : Between c call before s)
    (hplace : Placed c call before b) :
    Between c call (before ++ [b]) (c.modelTier call before b s) := by
  have hpass :
    Passing c call before b s [] (s.pending.keys.foldl (Cascade.passUnsupported call b) s) := by
    apply foldl_visit (I := Passing c call before b s)
      (fun qid todo s' hq h' => passUnsupported_step h' hq) s.pending.keys s s.pending.nodup
    refine ⟨h.sound, ?_, fun id _ => rfl⟩
    intro id p hp hb
    have hk : id ∈ s.pending.keys := Dict.mem_of_get? hp
    have ht := h.level id p hp hb
    rw [if_pos (List.mem_append_left _ hk)]
    simpa using ht
  have hturn : Turn c call before b (Cascade.questionsOf (Cascade.eligible call b s)).keys
      (s.pending.keys.foldl (Cascade.passUnsupported call b) s) := by
    rw [Cascade.questionsOf, Dict.keys_mapValues]
    refine ⟨hpass.sound, hpass.level, ?_⟩
    intro id hid p hp
    rw [hpass.kept id (.inr hid)] at hp
    exact ((mem_eligible hp).1 hid).1
  simp only [Cascade.modelTier]
  split
  next he =>
    apply Turn.done _ hplace.2
    rw [Dict.keys, he] at hturn
    exact hturn
  · exact (askBackend_spec hturn hplace).done hplace.2

theorem accepted_llm {s : Progress} (h : Turn c call before b (qid :: todo) s)
    (hp : s.pending.get? qid = some p) (hplace : Placed c call before b) (hb : b.name = llmTier)
    (hd : answered (some d) = true)
    (hc : ¬ (!d.abstained && call.state.tainted && p.question.riskTier.atLeast .medium &&
      !corroborated call.corroborate d) = true) :
    Accepted c call ⟨qid, p.question, d.accept p.tried, .backend before b⟩ := by
  obtain ⟨-, ht⟩ := h.tried hp
  constructor
  · exact answered_some hd
  · intro he
    cases he
  · intro before' b' he
    cases he
    exact hplace
  · exact ht
  · intro before' b' he hne
    cases he
    exact absurd hb hne
  · intro htaint hmed
    simp only [htaint, hmed, (answered_some hd).1] at hc
    exact .inr ⟨d, p.tried, by simpa using hc, rfl⟩
  · intro ho hm
    exact (h.not_limited hp ho hm).elim

theorem settleLlm_step {s : Progress} (h : Turn c call before b (qid :: todo) s) (hq : qid ∉ todo)
    (hplace : Placed c call before b) (hb : b.name = llmTier)
    (answers : String → Option Decision) :
    Turn c call before b todo (Cascade.settleLlm call before b answers s qid) := by
  rw [Cascade.settleLlm]
  cases hp : s.pending.get? qid with
  | none =>
    rw [visit_none hp]
    exact h.skip hp
  | some p =>
    rw [visit_some hp]
    split
    · exact h.escalate hq hp _
    · split
      · exact h.escalate hq hp _
      next hc =>
        split
        next hd => exact h.resolve hp (accepted_llm h hp hplace hb hd hc)
        · exact h.escalate hq hp _

theorem llmTierStep_spec {s : Progress} (h : Between c call before s)
    (hplace : Placed c call before b) (hb : b.name = llmTier) :
    Between c call (before ++ [b]) (c.llmTierStep call before b s) := by
  have hmem : ∀ id p, s.pending.get? id = some p →
      (id ∈ (s.pending.filter fun e => !blocked e.2) ↔ blocked p = false) := by
    intro id p hp
    rw [Dict.mem_filter]
    constructor
    · rintro ⟨p', hp', hb'⟩
      rw [hp] at hp'
      cases hp'
      simpa using hb'
    · intro hb'
      exact ⟨p, hp, by simpa using hb'⟩
  have hturn : Turn c call before b
      (Cascade.questionsOf (s.pending.filter fun e => !blocked e.2)).keys s := by
    rw [Cascade.questionsOf, Dict.keys_mapValues]
    refine ⟨h.sound, ?_, ?_⟩
    · intro id p hp hb'
      have hk : id ∈ (s.pending.filter fun e => !blocked e.2).keys := (hmem id p hp).2 hb'
      have ht := h.level id p hp hb'
      rw [if_pos hk]
      simpa using ht
    · intro id hid p hp
      exact (hmem id p hp).1 hid
  simp only [Cascade.llmTierStep]
  split
  next he =>
    apply Turn.done _ hplace.2
    rw [Dict.keys, he] at hturn
    exact hturn
  · apply Turn.done _ hplace.2
    exact foldl_visit (I := fun todo s => Turn c call before b todo s)
      (fun qid todo s hq h => settleLlm_step h hq hplace hb _) _ _ (Dict.nodup _)
      (hturn.of_pending rfl rfl rfl)

theorem tier_spec {s : Progress} (h : Between c call before s)
    (hplace : c.backends = before ++ b :: after) :
    Between c call (before ++ [b]) (c.tier call before b s) := by
  rw [Cascade.tier]
  split
  next hb =>
    split
    next ha =>
      have ht : takesPart call b = true := by
        rw [takesPart, ha, Bool.or_true]
      exact llmTierStep_spec h ⟨⟨after, hplace⟩, ht⟩ hb
    next ha =>
      have ht : takesPart call b = false := by
        rw [takesPart, decide_eq_true hb]
        simpa using ha
      refine ⟨h.sound, ?_⟩
      rw [stepsBefore_skip ht]
      exact h.level
  next hb =>
    have ht : takesPart call b = true := by
      rw [takesPart, decide_eq_false hb]
      rfl
    exact modelTier_spec h ⟨⟨after, hplace⟩, ht⟩

theorem tiers_sound : ∀ (bs before : List Backend) {s : Progress}, Between c call before s →
    c.backends = before ++ bs → Sound c call (c.tiers call before bs s)
  | [], _, _, h, _ => h.sound
  | b :: bs, before, s, h, hplace => by
    rw [Cascade.tiers]
    split
    · exact h.sound
    · apply tiers_sound bs (before ++ [b]) (tier_spec h hplace)
      rw [hplace, List.append_assoc]
      rfl

theorem board_start (c : Cascade) (call : DecisionCall) : Board c call (Cascade.start call) := by
  constructor
  · simp [Cascade.start]
  · intro id d
    simp [Cascade.start]
  · intro id p hp
    simp only [Cascade.start, Dict.get?_mapValues, Option.map_eq_some_iff] at hp
    obtain ⟨q, hq, rfl⟩ := hp
    exact hq
  · intro r hr
    cases hr

theorem holdBack_question (p : Pending) : (Cascade.holdBack p).question = p.question := by
  rw [Cascade.holdBack]
  split <;> rfl

theorem holdBack_tried (p : Pending) : (Cascade.holdBack p).tried = p.tried := by
  rw [Cascade.holdBack]
  split <;> rfl

theorem blocked_holdBack {p : Pending} (hm : p.question.riskTier.atLeast .medium = true) :
    blocked (Cascade.holdBack p) = true := by
  rw [Cascade.holdBack, if_pos hm]
  rfl

theorem sound_skipOverLimit {s : Progress} (h : Board c call s) :
    Sound c call (Cascade.skipOverLimit call s) := by
  rw [Cascade.skipOverLimit]
  split
  · obtain ⟨h₁, h₂, h₃, h₄⟩ := h
    refine ⟨⟨?_, h₂, ?_, h₄⟩, ?_⟩
    · rw [Dict.keys_mapValues]
      exact h₁
    · intro id p hp
      rw [Dict.get?_mapValues, Option.map_eq_some_iff] at hp
      obtain ⟨p', hp', rfl⟩ := hp
      rw [holdBack_question]
      exact h₃ id p' hp'
    · intro _ id p hp hm
      rw [Dict.get?_mapValues, Option.map_eq_some_iff] at hp
      obtain ⟨p', -, rfl⟩ := hp
      rw [holdBack_question] at hm
      exact blocked_holdBack hm
  next ho => exact ⟨h, fun ho' => absurd ho' ho⟩

theorem level_skipOverLimit :
    Level [] [] [] (Cascade.skipOverLimit call (Cascade.start call)) := by
  have hstart : ∀ id p, (Cascade.start call).pending.get? id = some p → p.tried = [] := by
    intro id p hp
    simp only [Cascade.start, Dict.get?_mapValues, Option.map_eq_some_iff] at hp
    obtain ⟨q, -, rfl⟩ := hp
    rfl
  intro id p hp _
  rw [if_neg List.not_mem_nil]
  rw [Cascade.skipOverLimit] at hp
  split at hp
  · rw [Dict.get?_mapValues, Option.map_eq_some_iff] at hp
    obtain ⟨p', hp', rfl⟩ := hp
    rw [holdBack_tried]
    exact hstart id p' hp'
  · exact hstart id p hp

theorem finish_step {s : Progress} (hs : Board c call s) (reason : Option Reason) :
    Board c call (Cascade.finish reason s qid) := by
  rw [Cascade.finish]
  cases hp : s.pending.get? qid with
  | none =>
    rw [visit_none hp]
    exact hs
  | some p =>
    rw [visit_some hp]
    apply hs.resolve hp
    intro he
    cases he

theorem pending_finish (reason : Option Reason) (s : Progress) (qid : String) :
    (Cascade.finish reason s qid).pending = s.pending.erase qid := by
  rw [Cascade.finish]
  cases hp : s.pending.get? qid with
  | none =>
    rw [visit_none hp, Dict.erase_of_not_mem (Dict.get?_eq_none.1 hp)]
  | some p =>
    rw [visit_some hp]
    rfl

theorem finishAll_spec {s : Progress} (hs : Board c call s) (reason : Option Reason) :
    Board c call (Cascade.finishAll reason s) ∧ (Cascade.finishAll reason s).pending.keys = [] := by
  obtain ⟨hb, hopen⟩ := foldl_visit
    (I := fun todo s => Board c call s ∧ ∀ id ∈ s.pending.keys, id ∈ todo)
    (f := Cascade.finish reason) (by
      rintro qid todo s - ⟨hs, hopen⟩
      refine ⟨finish_step hs reason, ?_⟩
      intro id hid
      rw [pending_finish, ← Dict.mem_iff_keys, Dict.mem_erase] at hid
      exact (List.mem_cons.1 (hopen id hid.2)).resolve_left hid.1)
    s.pending.keys s s.pending.nodup ⟨hs, fun id hid => hid⟩
  exact ⟨hb, List.eq_nil_iff_forall_not_mem.2 fun id hid => by cases hopen id hid⟩

structure Contract (c : Cascade) (call : DecisionCall) (s : Progress) : Prop where
  once : (s.log.map Resolution.id).Perm call.questions.keys
  resolved : ∀ id d, s.resolved.get? id = some d ↔ ∃ r ∈ s.log, r.id = id ∧ r.decision = d
  logged : ∀ r ∈ s.log, call.questions.get? r.id = some r.question ∧
    (r.decision.outcome = .accepted → Accepted c call r)

/-- Every question is resolved once, and what is accepted has passed its tier. -/
theorem decide_contract (c : Cascade) (call : DecisionCall) :
    Contract c call (c.decide call) := by
  have hend : ∃ s reason, Board c call s ∧ c.decide call = Cascade.finishAll reason s := by
    rw [Cascade.decide]
    split
    · have hstart := sound_skipOverLimit (board_start c call)
      obtain ⟨hs, hl⟩ := ruleTier_spec hstart level_skipOverLimit
      have hnone : stepsBefore c call [] = ruleStep c call := List.append_nil _
      have htiers := tiers_sound c.backends []
        (s := { (c.ruleTier call (Cascade.skipOverLimit call (Cascade.start call))) with
          deadline := c.clock (c.ruleTier call (Cascade.skipOverLimit call
            (Cascade.start call))).reads + call.policy.timeoutMs / 1000 }.read)
        ⟨hs.of_pending rfl rfl rfl, by
          rw [hnone]
          exact hl.of_pending rfl⟩ rfl
      exact ⟨_, none, htiers.toBoard, rfl⟩
    · exact ⟨_, some .unsupported, board_start c call, rfl⟩
  obtain ⟨s, reason, hs, he⟩ := hend
  obtain ⟨hb, hnil⟩ := finishAll_spec hs reason
  rw [← he] at hb hnil
  have hpart := hb.partition
  rw [hnil, List.append_nil] at hpart
  exact ⟨hpart, hb.resolved, hb.logged⟩

def lowQuestion : QuestionSpec where
  id := "q"
  kind := .noul
  instructions := "Is this spam?"
  riskTier := .low
  valid := rfl

def sureAnswer : Decision where
  questionId := "q"
  kind := .noul
  value := some (.truth true)
  probabilities := [("true", 1), ("false", 0)]
  answerConfidence := 1
  spreadConfidence := 1
  margin := 1
  expectedLevel := none
  model := "jev-1"
  backend := "jev"
  calibrationVersion := none
  latencyMs := 1
  outcome := .escalated

def passingCascade : Cascade where
  backends :=
    [⟨"laya", "laya-1", none, fun _ _ => some false, fun _ _ _ _ _ => some sureAnswer⟩,
      ⟨"jev", "jev-1", none, fun _ _ => some true, fun _ _ _ _ _ => some sureAnswer⟩]
  ruleEnabled := false
  ruleHook := none
  record _ _ := some ⟨0, 0, Dict.collect [("en", 300)], Dict.collect [("en", 1)]⟩
  calibrate _ d _ := some d
  settings := none
  llmTimeoutMs := 30000
  rng := ⟨fun _ _ options => options, fun _ _ _ => .refl _⟩
  clock _ := 0

def spamCall : DecisionCall where
  state := ⟨Dict.collect [("text", "hi")], [], "en", 0, false⟩
  questions := Dict.collect [("q", lowQuestion)]
  policy := .default
  corroborate := none
  ruleHook := none
  allowLlm := true

/-- A tier that was never asked about the question is listed before the accepting one. -/
theorem decide_passes_unsupported :
    (passingCascade.decide spamCall).resolved.get? "q" = some (sureAnswer.accept ["laya"]) ∧
      (passingCascade.decide spamCall).asked = [("jev", ["q"])] := by
  decide +kernel

end Prismal.Decisions
