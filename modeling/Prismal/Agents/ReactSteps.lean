import Prismal.Agents.ReactLoop
import Prismal.Lib.State

namespace Prismal.Agents.ReactLoop
open Prismal.Budget Prismal.Lib Prismal.Security
set_option autoImplicit true

/-! What the loop may do next, and that it does nothing else. -/

section
variable (w : Host) (cfg : Config)

/-- How a text of a tool gets into a message: as an error, without a detector, or as a result that
the detector did not hold back. -/
inductive Vetted (log : List Event) (t : ToolText) : Prop
  | error (h : log[t.time]? = some (.invoked tool args (.raised t.text) metered))
      (hlimit : w.isRateLimit t.text = false)
  | unwired (h : cfg.detector = none)
  | empty (h : t.text = "")
  | screened (h : cfg.detector = some d)
      (hlog : log[t.time]? = some (.screened t.text (d.ask t.time t.text)))
      (hpass : ∀ v, d.ask t.time t.text = some v → v.blocked = false)

/-- The call is let through by every check but the policy. -/
structure Callable (s : State) (call : ToolCall) : Prop where
  mapped : call.name ∈ s.toolMap
  admitted : admits cfg call.name = true
  failures : s.failures call.name < maxToolFailures
  unlimited : call.name ∉ s.rateLimited

def Consulted (s : State) (call : ToolCall) : Prop :=
  cfg.toolPolicy = true → ∃ effect, s.log.getLast? = some (.checked call.name call.args effect) ∧
    (effect = none ∨ effect = some .allow)

def beforeTurn : Bool → Phase
  | true => .closing
  | false => .cleared

inductive Allows (s : State) : Event → Prop
  | passed (hphase : s.phase = .acting []) (hleft : s.iterations < cfg.maxIterations.toNat)
      (hbudget : overBudget cfg s.usage = false) : Allows s .passed
  | compacted (hphase : s.phase = .cleared ∨ s.phase = .closing)
      (hcompactor : cfg.contextCompactor = some c)
      (hlist : ∃ used, list =
        ContextCompactor.compactList c.settings (w.compaction s.time) used s.messages) :
      Allows s (.compacted list metered)
  | turn (hphase : s.phase = beforeTurn forced) :
      Allows s (.turn forced s.usage s.messages)
  | attempt (hphase : s.phase = .asked forced) : Allows s .attempt
  | answered (hphase : s.phase = .asked forced) (hai : m.type = .ai) (href : m.ref = s.next)
      (hsource : m.source = none) : Allows s (.answered m metered)
  | acted (hphase : s.phase = .answered) (hcalls : s.response.toolCalls ≠ []) :
      Allows s (.acted s.response)
  | checked (hphase : s.phase = .acting (call :: rest)) :
      Allows s (.checked call.name call.args
        ((w.toolPolicy s.time call.name call.args).map PolicyDecision.effect))
  | invoked (hphase : s.phase = .acting (call :: rest)) (hcall : Callable cfg s call)
      (hpolicy : Consulted cfg s call) :
      Allows s (.invoked call.name call.args (w.tool s.time call.name call.args)
        (w.toolSpend s.time))
  | screened (hphase : s.phase = .acting (call :: rest)) (hdetector : cfg.detector = some d) :
      Allows s (.screened text (d.ask s.time text))
  | replied (hphase : s.phase = .acting (call :: rest)) (htool : m.type = .tool)
      (hcalls : m.toolCalls = []) (hid : m.toolCallId = call.id.getD "None")
      (hsource : ∀ t, m.source = some t → Vetted w cfg s.log t) : Allows s (.replied m masked)
  | bound (hphase : s.phase = .acting []) : Allows s (.bound names)
  | prompted (hphase : s.phase = .acting []) : Allows s (.prompted prompt)
  | capped (hphase : s.phase = .acting []) (hleft : s.iterations = cfg.maxIterations.toNat) :
      Allows s (.capped s.response)

inductive Reached (init : State) : State → Prop
  | start : Reached init init
  | step (h : Reached init s) (ha : Allows w cfg s e) : Reached init (s.record w e)

end

variable {w : Host} {cfg : Config} {init : State}

theorem Reached.always {I : State → Prop} (hinit : I init)
    (hstep : ∀ s e, I s → Allows w cfg s e → I (s.record w e)) (h : Reached w cfg init s) :
    I s := by
  induction h with
  | start => exact hinit
  | step h ha ih => exact hstep _ _ ih ha

theorem Reached.invariant {I : State → Prop} {C : List Event → Event → Prop} (hinit : I init)
    (hstep : ∀ s e, I s → Allows w cfg s e → C s.log e → I (s.record w e))
    (h : Reached w cfg init s) (hC : AtEach C s.log) : I s := by
  induction h with
  | start => exact hinit
  | step h ha ih =>
    obtain ⟨hlog, he⟩ := hC.of_concat
    exact hstep _ _ (ih hlog) ha he

def At (phase : Phase) (k : Nat) (s : State) : Prop := s.phase = phase ∧ s.iterations = k

abbrev Moves (w : Host) (cfg : Config) (init : State) (P : State → Prop) (m : M α)
    (Q : α → State → Prop) : Prop :=
  Spec (fun s => Reached w cfg init s ∧ P s) m (fun a s => Reached w cfg init s ∧ Q a s)
    fun _ => Reached w cfg init

theorem emit_moves {P : State → Prop} {Q : Unit → State → Prop} (ha : ∀ s, P s → Allows w cfg s e)
    (hQ : ∀ s, P s → Q () (s.record w e)) : Moves w cfg init P (emit w e) Q :=
  Spec.modify fun s hs => ⟨hs.1.step (ha s hs.2), hQ s hs.2⟩

theorem return_moves {P : State → Prop} {Q : α → State → Prop} (h : ∀ s, P s → Q a s) :
    Moves w cfg init P (pure a : M α) Q :=
  Spec.pure fun s hs => ⟨hs.1, h s hs.2⟩

theorem throw_moves {P : State → Prop} {Q : α → State → Prop} {e : LoopError} :
    Moves w cfg init P (throw e : M α) Q :=
  Spec.throw fun _ hs => hs.1

theorem get_moves {P : State → Prop} {f : State → M α} {Q : α → State → Prop}
    (hf : ∀ t, P t → Moves w cfg init (fun s => s = t) (f t) Q) :
    Moves w cfg init P (get >>= f) Q :=
  fun s hs => hf s hs.2 s ⟨hs.1, rfl⟩

theorem bind_moves {P : State → Prop} {R : α → State → Prop} {Q : β → State → Prop} {m : M α}
    {f : α → M β} (hm : Moves w cfg init P m R) (hf : ∀ a, Moves w cfg init (R a) (f a) Q) :
    Moves w cfg init P (m >>= f) Q :=
  Spec.bind hm hf

theorem compact_moves (hphase : phase = .cleared ∨ phase = .closing) :
    Moves w cfg init (At phase k) (compact w cfg) fun _ => At phase k := by
  rw [compact]
  split
  · exact return_moves fun _ hs => hs
  next c hc =>
    apply get_moves
    intro t ht
    apply emit_moves
    · intro s hs
      cases hs
      refine .compacted ?_ hc ⟨_, rfl⟩
      rw [ht.1]
      exact hphase
    · intro s hs
      cases hs
      exact ht

theorem attemptLlm_moves {onRateLimit : String → M Answer}
    (hlimit : ∀ text, Moves w cfg init (At (.asked forced) k) (onRateLimit text)
      fun _ => At (.asked forced) k) :
    Moves w cfg init (At (.asked forced) k) (attemptLlm w onRateLimit)
      fun _ => At (.asked forced) k := by
  apply get_moves
  intro t ht
  refine bind_moves (R := fun _ => At (.asked forced) k) (emit_moves ?_ ?_) fun _ => ?_
  · intro s hs
    cases hs
    exact .attempt ht.1
  · intro s hs
    cases hs
    exact ht
  · split
    · exact return_moves fun _ hs => hs
    · split
      · exact throw_moves
      · split
        · exact throw_moves
        · exact hlimit _

theorem invokeLlmWithBackoff_moves (retries : Nat) :
    Moves w cfg init (At (.asked forced) k) (invokeLlmWithBackoff w retries)
      fun _ => At (.asked forced) k := by
  induction retries with
  | zero => exact attemptLlm_moves fun _ => throw_moves
  | succ n ih => exact attemptLlm_moves fun _ => ih

theorem llmErrorFallback_moves {Q : Turn → State → Prop} (hQ : ∀ m s, Q (.fallback m) s)
    (message : String) (e : LoopError) :
    Moves w cfg init (fun _ => True) (llmErrorFallback w message e) Q := by
  cases e with
  | llm text =>
    rw [llmErrorFallback]
    split
    · exact return_moves fun s _ => hQ _ s
    · split
      · exact return_moves fun s _ => hQ _ s
      · exact throw_moves
  | missingToolCallId => exact throw_moves

def afterTurn : Bool → Phase
  | true => .ended
  | false => .answered

def Responded (forced : Bool) (k : Nat) : Turn → State → Prop
  | .answered m, s => At (afterTurn forced) k s ∧ s.response = m
  | .fallback _, _ => True

theorem answered_phase {s : State} (h : s.phase = .asked forced) (m : LoopMessage)
    (metered : Option Spend) : (s.record w (.answered m metered)).phase = afterTurn forced := by
  change (if s.phase = .asked true then Phase.ended else .answered) = _
  rw [h]
  cases forced with
  | true => rfl
  | false => rfl

theorem meterResponse_moves (answer : Answer) :
    Moves w cfg init (At (.asked forced) k) (meterResponse w cfg answer)
      fun m s => At (afterTurn forced) k s ∧ s.response = m := by
  apply get_moves
  intro t ht
  refine bind_moves (emit_moves ?_ ?_) fun _ => return_moves fun _ hs => hs
  · intro s hs
    cases hs
    exact .answered ht.1 rfl rfl rfl
  · intro s hs
    cases hs
    exact ⟨⟨answered_phase ht.1 _ _, ht.2⟩, rfl⟩

theorem modelTurn_moves (forced : Bool) (message : String) :
    Moves w cfg init (At (beforeTurn forced) k)
      (modelTurn w cfg forced message) (Responded forced k) := by
  apply get_moves
  intro t ht
  refine bind_moves (R := fun _ => At (.asked forced) k) (emit_moves ?_ ?_) fun _ => ?_
  · intro s hs
    cases hs
    exact .turn ht.1
  · intro s hs
    cases hs
    exact ⟨rfl, ht.2⟩
  · refine Spec.tryCatch (E := fun _ => Reached w cfg init) ?_ fun e => ?_
    · refine bind_moves (invokeLlmWithBackoff_moves _) fun answer => ?_
      exact bind_moves (meterResponse_moves answer) fun m => return_moves fun _ hs => hs
    · exact (llmErrorFallback_moves (fun _ _ => trivial) message e).pre fun s hs => ⟨hs, trivial⟩

theorem finalLlmTurn_moves (prompt : String) :
    Moves w cfg init (At (.acting []) k) (finalLlmTurn w cfg prompt) fun _ _ => True := by
  refine bind_moves (R := fun _ => At .closing k) (emit_moves ?_ ?_) fun _ => ?_
  · intro s hs
    exact .prompted hs.1
  · intro s hs
    exact ⟨rfl, hs.2⟩
  · refine bind_moves (compact_moves (.inr rfl)) fun _ => ?_
    refine bind_moves (modelTurn_moves true _) fun turn => ?_
    cases turn with
    | answered m => exact return_moves fun _ _ => trivial
    | fallback m => exact return_moves fun _ _ => trivial

/-! The calls -/

theorem toolPolicyBlockMessage_moves (k : Nat) (call : ToolCall) (rest : List ToolCall) :
    Moves w cfg init (fun s => At (.acting (call :: rest)) k s ∧ Callable cfg s call)
      (toolPolicyBlockMessage w cfg call)
      fun notice s => At (.acting (call :: rest)) k s ∧
        (notice = none → Callable cfg s call ∧ Consulted cfg s call) := by
  rw [toolPolicyBlockMessage]
  split
  next hpolicy =>
    apply get_moves
    intro t ht
    refine bind_moves (R := fun _ s => (At (.acting (call :: rest)) k s ∧ Callable cfg s call) ∧
      s.log.getLast? = some (.checked call.name call.args
        ((w.toolPolicy t.time call.name call.args).map PolicyDecision.effect)))
      (emit_moves ?_ ?_) fun _ => ?_
    · intro s hs
      cases hs
      exact .checked ht.1.1
    · intro s hs
      cases hs
      obtain ⟨hat, hcall⟩ := ht
      exact ⟨⟨hat, hcall.mapped, hcall.admitted, hcall.failures, hcall.unlimited⟩,
        List.getLast?_concat⟩
    · cases hd : w.toolPolicy t.time call.name call.args with
      | none =>
        refine return_moves fun s hs => ⟨hs.1.1, fun _ => ⟨hs.1.2, fun _ => ?_⟩⟩
        exact ⟨none, hs.2, .inl rfl⟩
      | some decision =>
        dsimp only
        split
        · exact return_moves fun s hs => ⟨hs.1.1, fun h => by cases h⟩
        · exact return_moves fun s hs => ⟨hs.1.1, fun h => by cases h⟩
        next heffect =>
          refine return_moves fun s hs => ⟨hs.1.1, fun _ => ⟨hs.1.2, fun _ => ?_⟩⟩
          rw [Option.map_some, heffect] at hs
          exact ⟨some .allow, hs.2, .inr rfl⟩
  next hpolicy =>
    refine return_moves fun s hs => ⟨hs.1, fun _ => ⟨hs.2, fun h => ?_⟩⟩
    exact absurd h hpolicy

def VettedContent (w : Host) (cfg : Config) (source : Option ToolText) (s : State) : Prop :=
  ∀ t, source = some t → Vetted w cfg s.log t

theorem vetted_none (s : State) : VettedContent w cfg none s := by
  intro t h
  cases h

theorem screenToolResult_moves (tool result : String) :
    Moves w cfg init (At (.acting (call :: rest)) k) (screenToolResult w cfg tool result)
      fun content s => At (.acting (call :: rest)) k s ∧ VettedContent w cfg content.source s := by
  apply get_moves
  intro t ht
  have hraw : ∀ {s : State}, Vetted w cfg s.log ⟨result, t.time⟩ →
      VettedContent w cfg (some ⟨result, t.time⟩) s := by
    intro s h u hu
    cases hu
    exact h
  dsimp only
  split
  next hd =>
    refine return_moves fun s hs => ?_
    cases hs
    exact ⟨ht, hraw (.unwired hd)⟩
  next d hd =>
    split
    next hempty =>
      refine return_moves fun s hs => ?_
      cases hs
      exact ⟨ht, hraw (.empty hempty)⟩
    · refine bind_moves (R := fun _ s => At (.acting (call :: rest)) k s ∧
        s.log[t.time]? = some (.screened result (d.ask t.time result)))
        (emit_moves ?_ ?_) fun _ => ?_
      · intro s hs
        cases hs
        exact .screened ht.1 hd
      · intro s hs
        cases hs
        exact ⟨ht, List.getElem?_concat_length⟩
      · cases hask : d.ask t.time result with
        | none =>
          refine return_moves fun s hs => ⟨hs.1, hraw (.screened hd ?_ ?_)⟩
          · rw [hask]
            exact hs.2
          · intro v hv
            rw [hask] at hv
            cases hv
        | some verdict =>
          dsimp only
          split
          · exact return_moves fun s hs => ⟨hs.1, vetted_none s⟩
          next hpass =>
            split
            · exact return_moves fun s hs => ⟨hs.1, vetted_none s⟩
            · refine return_moves fun s hs => ⟨hs.1, hraw (.screened hd ?_ ?_)⟩
              · rw [hask]
                exact hs.2
              · intro v hv
                rw [hask] at hv
                cases hv
                exact Bool.eq_false_iff.2 hpass

theorem count_frame (s : State) (tool : String) (outcome : ToolOutcome) :
    ∃ failCounts rateLimited successes, s.count w tool outcome =
      { s with
        failCounts := failCounts
        rateLimited := rateLimited
        successes := successes } := by
  cases outcome with
  | result text => exact ⟨_, _, _, rfl⟩
  | raised text =>
    rw [State.count]
    split
    · exact ⟨_, _, _, rfl⟩
    · exact ⟨_, _, _, rfl⟩

@[simp] theorem count_phase (s : State) (tool : String) (outcome : ToolOutcome) :
    (s.count w tool outcome).phase = s.phase := by
  obtain ⟨failCounts, rateLimited, successes, h⟩ := count_frame (w := w) s tool outcome
  rw [h]

@[simp] theorem count_iterations (s : State) (tool : String) (outcome : ToolOutcome) :
    (s.count w tool outcome).iterations = s.iterations := by
  obtain ⟨failCounts, rateLimited, successes, h⟩ := count_frame (w := w) s tool outcome
  rw [h]

@[simp] theorem count_toolMap (s : State) (tool : String) (outcome : ToolOutcome) :
    (s.count w tool outcome).toolMap = s.toolMap := by
  obtain ⟨failCounts, rateLimited, successes, h⟩ := count_frame (w := w) s tool outcome
  rw [h]

@[simp] theorem count_messages (s : State) (tool : String) (outcome : ToolOutcome) :
    (s.count w tool outcome).messages = s.messages := by
  obtain ⟨failCounts, rateLimited, successes, h⟩ := count_frame (w := w) s tool outcome
  rw [h]

@[simp] theorem count_response (s : State) (tool : String) (outcome : ToolOutcome) :
    (s.count w tool outcome).response = s.response := by
  obtain ⟨failCounts, rateLimited, successes, h⟩ := count_frame (w := w) s tool outcome
  rw [h]

@[simp] theorem count_next (s : State) (tool : String) (outcome : ToolOutcome) :
    (s.count w tool outcome).next = s.next := by
  obtain ⟨failCounts, rateLimited, successes, h⟩ := count_frame (w := w) s tool outcome
  rw [h]

theorem invokeTool_moves (call : ToolCall) (rest : List ToolCall) :
    Moves w cfg init (fun s => At (.acting (call :: rest)) k s ∧ Callable cfg s call ∧
        Consulted cfg s call) (invokeTool w cfg call)
      fun content s => At (.acting (call :: rest)) k s ∧ VettedContent w cfg content.source s := by
  apply get_moves
  intro t ht
  refine bind_moves (R := fun _ s => At (.acting (call :: rest)) k s ∧
    s.log[t.time]? = some (.invoked call.name call.args (w.tool t.time call.name call.args)
      (w.toolSpend t.time))) (emit_moves ?_ ?_) fun _ => ?_
  · intro s hs
    cases hs
    exact .invoked ht.1.1 ht.2.1 ht.2.2
  · intro s hs
    cases hs
    refine ⟨⟨?_, ?_⟩, List.getElem?_concat_length⟩
    · exact (count_phase t _ _).trans ht.1.1
    · exact (count_iterations t _ _).trans ht.1.2
  · cases houtcome : w.tool t.time call.name call.args with
    | result text =>
      exact (screenToolResult_moves call.name text).pre fun s hs => ⟨hs.1, hs.2.1⟩
    | raised text =>
      dsimp only
      split
      · exact return_moves fun s hs => ⟨hs.1, vetted_none s⟩
      next hlimit =>
        refine return_moves fun s hs => ⟨hs.1, fun u hu => ?_⟩
        cases hu
        exact .error hs.2 (Bool.eq_false_iff.2 hlimit)

theorem toolCallResult_moves (call : ToolCall) (rest : List ToolCall)
    (hadmits : admits cfg call.name = true) :
    Moves w cfg init (At (.acting (call :: rest)) k) (toolCallResult w cfg call)
      fun content s => At (.acting (call :: rest)) k s ∧ VettedContent w cfg content.source s := by
  apply get_moves
  intro t ht
  have hskip : ∀ {text : String}, Moves w cfg init (fun s => s = t)
      (pure { text := text } : M Content)
      fun content s => At (.acting (call :: rest)) k s ∧ VettedContent w cfg content.source s := by
    intro text
    refine return_moves fun s hs => ?_
    cases hs
    exact ⟨ht, vetted_none t⟩
  split
  · exact hskip
  next hmapped =>
    rw [not_not] at hmapped
    split
    · exact hskip
    next hfailures =>
      split
      · exact hskip
      next hunlimited =>
        have hcall : Callable cfg t call :=
          ⟨hmapped, hadmits, Nat.lt_of_not_le hfailures, hunlimited⟩
        refine bind_moves ((toolPolicyBlockMessage_moves k call rest).pre ?_) fun notice => ?_
        · intro s hs
          cases hs.2
          exact ⟨hs.1, ht, hcall⟩
        · cases notice with
          | some notice => exact return_moves fun s hs => ⟨hs.1, vetted_none s⟩
          | none =>
            exact (invokeTool_moves call rest).pre fun s hs => ⟨hs.1, hs.2.1, hs.2.2 rfl⟩

structure Answers (w : Host) (cfg : Config) (call : ToolCall) (m : LoopMessage) (s : State) :
    Prop where
  tool : m.type = .tool
  calls : m.toolCalls = []
  id : m.toolCallId = call.id.getD "None"
  source : VettedContent w cfg m.source s

theorem toolCallMessage_moves (call : ToolCall) (rest : List ToolCall) :
    Moves w cfg init (At (.acting (call :: rest)) k) (toolCallMessage w cfg call)
      fun r s => At (.acting (call :: rest)) k s ∧ Answers w cfg call r.1 s := by
  rw [toolCallMessage]
  split
  next hadmits =>
    refine bind_moves (toolCallResult_moves call rest hadmits) fun content => ?_
    apply get_moves
    intro t ht
    split
    · exact throw_moves
    next id hid =>
      refine return_moves fun s hs => ?_
      cases hs
      refine ⟨ht.1, rfl, rfl, ?_, ht.2⟩
      rw [hid]
      rfl
  · exact return_moves fun s hs => ⟨hs, rfl, rfl, rfl, vetted_none s⟩

theorem replied_phase {s : State} (h : s.phase = .acting (call :: rest)) (m : LoopMessage)
    (masked : Bool) : (s.record w (.replied m masked)).phase = .acting rest := by
  rw [State.record, State.apply]
  simp only [h]

theorem answerCall_moves (call : ToolCall) (rest : List ToolCall) :
    Moves w cfg init (At (.acting (call :: rest)) k) (answerCall w cfg call)
      fun _ => At (.acting rest) k := by
  refine bind_moves (toolCallMessage_moves call rest) fun r => emit_moves ?_ ?_
  · intro s ⟨hat, hm⟩
    exact .replied hat.1 hm.tool hm.calls hm.id hm.source
  · intro s ⟨hat, _⟩
    exact ⟨replied_phase hat.1 _ _, hat.2⟩

theorem answerCalls_moves (calls : List ToolCall) :
    Moves w cfg init (At (.acting calls) k) (calls.forM (answerCall w cfg))
      fun _ => At (.acting []) k :=
  Spec.forM (I := fun calls s => Reached w cfg init s ∧ At (.acting calls) k s) answerCall_moves

theorem syncDeferredTools_moves :
    Moves w cfg init (At (.acting []) k) (syncDeferredTools w cfg) fun _ => At (.acting []) k := by
  rw [syncDeferredTools]
  split
  · apply get_moves
    intro t ht
    refine emit_moves ?_ ?_
    · intro s hs
      cases hs
      exact .bound ht.1
    · intro s hs
      cases hs
      exact ht
  · exact return_moves fun _ hs => hs

/-! The loop -/

theorem iteration_moves {goOn : M LoopMessage} (hleft : k < cfg.maxIterations.toNat)
    (hgoOn : Moves w cfg init (At (.acting []) (k + 1)) goOn fun _ _ => True) :
    Moves w cfg init (fun s => At (.acting []) k s ∧ overBudget cfg s.usage = false)
      (iteration w cfg goOn) fun _ _ => True := by
  refine bind_moves (R := fun _ => At .cleared (k + 1)) (emit_moves ?_ ?_) fun _ => ?_
  · intro s ⟨hat, hbudget⟩
    exact .passed hat.1 (by rw [hat.2]; exact hleft) hbudget
  · intro s ⟨hat, _⟩
    exact ⟨rfl, congrArg (· + 1) hat.2⟩
  refine bind_moves (compact_moves (.inl rfl)) fun _ => ?_
  refine bind_moves (modelTurn_moves false _) fun turn => ?_
  cases turn with
  | fallback m => exact return_moves fun _ _ => trivial
  | answered m =>
    dsimp only
    split
    · exact return_moves fun _ _ => trivial
    next hcalls =>
      apply get_moves
      intro t ⟨hat, hresponse⟩
      split
      · exact return_moves fun _ _ => trivial
      refine bind_moves (R := fun _ => At (.acting m.toolCalls) (k + 1)) (emit_moves ?_ ?_)
        fun _ => ?_
      · intro s hs
        cases hs
        cases hresponse
        exact .acted hat.1 hcalls
      · intro s hs
        cases hs
        exact ⟨rfl, hat.2⟩
      refine bind_moves (answerCalls_moves _) fun _ => ?_
      refine bind_moves syncDeferredTools_moves fun _ => ?_
      apply get_moves
      intro u hu
      split
      · refine (finalLlmTurn_moves (k := k + 1) _).pre fun s hs => ?_
        cases hs.2
        exact ⟨hs.1, hu⟩
      · refine hgoOn.pre fun s hs => ?_
        cases hs.2
        exact ⟨hs.1, hu⟩

theorem iterate_moves (left k : Nat) (hleft : k + left = cfg.maxIterations.toNat) :
    Moves w cfg init (At (.acting []) k) (iterate w cfg left) fun _ _ => True := by
  induction left generalizing k with
  | zero =>
    apply get_moves
    intro t ht
    refine bind_moves (R := fun _ => At (.acting []) k) (emit_moves ?_ ?_)
      fun _ => finalLlmTurn_moves _
    · intro s hs
      cases hs
      exact .capped ht.1 (ht.2.trans hleft)
    · intro s hs
      cases hs
      exact ht
  | succ left ih =>
    apply get_moves
    intro t ht
    split
    · exact return_moves fun _ _ => trivial
    next hnone =>
      refine (iteration_moves (by omega) (ih (k + 1) (by omega))).pre fun s hs => ?_
      cases hs.2
      refine ⟨hs.1, ht, ?_⟩
      rw [budgetPartialOrNone] at hnone
      split at hnone
      · cases hnone
      next hbudget => exact Bool.eq_false_iff.2 hbudget

theorem iterate_of_free {s : State} (h : overBudget cfg s.usage = false) (left : Nat) :
    iterate w cfg (left + 1) s = iteration w cfg (iterate w cfg left) s := by
  have hnone : budgetPartialOrNone cfg s = none := by
    rw [budgetPartialOrNone, h]
    rfl
  have hget : (get : M State) s = .ok s s := rfl
  rw [iterate, bind_of_ok hget, hnone]

def loopLog (w : Host) (cfg : Config) (tools : List String) (messages : List LoopMessage)
    (usage : Usage) : List Event :=
  (left (reactLoop w cfg tools messages usage)).log

theorem reached_reactLoop (w : Host) (cfg : Config) (tools : List String)
    (messages : List LoopMessage) (usage : Usage) :
    Reached w cfg (start cfg tools messages usage)
      (left (reactLoop w cfg tools messages usage)) := by
  have hrun := iterate_moves (w := w) cfg.maxIterations.toNat 0 (Nat.zero_add _)
    (start cfg tools messages usage) ⟨.start, rfl, rfl⟩
  rw [reactLoop]
  cases h : iterate w cfg cfg.maxIterations.toNat (start cfg tools messages usage) with
  | ok m s =>
    rw [h] at hrun
    exact hrun.1
  | error e s =>
    rw [h] at hrun
    exact hrun

end Prismal.Agents.ReactLoop
