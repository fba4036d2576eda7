import Prismal.Agents.ReactSteps

namespace Prismal.Agents.ReactLoop
open Prismal.Budget Prismal.Lib
set_option autoImplicit true

/-! Which texts of tools the model gets to see. -/

def Detector.Blocks (d : Detector) (t : ToolText) : Prop := (d.check t.time t.text).blocked = true

def Screened (d : Detector) (log : List Event) : Prop :=
  ∀ forced usage messages, .turn forced usage messages ∈ log → ∀ m ∈ messages, m.type = .tool →
    ∀ t, m.source = some t → ¬d.Blocks t

/-- The ways around the screening are not taken: a tool raises no error with a text that the
detector blocks, but for rate limits, and the detector does not break down over such a result. -/
def NoWayAround (w : Host) (d : Detector) (pre : List Event) : Event → Prop
  | .invoked _ _ (.raised text) _ => w.isRateLimit text = false → ¬d.Blocks ⟨text, pre.length⟩
  | .screened text none => ¬d.Blocks ⟨text, pre.length⟩
  | _ => True

variable {w : Host} {cfg : Config} {d : Detector}

theorem not_blocks_empty (h : t.text = "") : ¬d.Blocks t := by
  intro hb
  rw [Detector.Blocks, Detector.check, if_pos h] at hb
  cases hb

theorem Vetted.not_blocks (h : Vetted w cfg log t) (hd : cfg.detector = some d)
    (hlog : AtEach (NoWayAround w d) log) : ¬d.Blocks t := by
  have hat : ∀ {e : Event}, log[t.time]? = some e →
      ∃ pre, pre.length = t.time ∧ NoWayAround w d pre e := by
    intro e he
    obtain ⟨hlt, he⟩ := List.getElem?_eq_some_iff.1 he
    refine ⟨log.take t.time, List.length_take_of_le hlt.le, hlog _ _ (log.drop (t.time + 1)) ?_⟩
    rw [← he, ← List.drop_eq_getElem_cons, List.take_append_drop]
  cases h with
  | error h hlimit =>
    obtain ⟨pre, hpre, hno⟩ := hat h
    have hno := hno hlimit
    rw [hpre] at hno
    exact hno
  | unwired h =>
    rw [hd] at h
    cases h
  | empty h => exact not_blocks_empty h
  | screened h hlog hpass =>
    cases hd.symm.trans h
    cases hask : d.ask t.time t.text with
    | none =>
      rw [hask] at hlog
      obtain ⟨pre, hpre, hno⟩ := hat hlog
      rw [NoWayAround, hpre] at hno
      exact hno
    | some v =>
      have hv := hpass v hask
      rw [Detector.ask] at hask
      split at hask
      · cases hask
      · cases hask
        exact Bool.eq_false_iff.1 hv

theorem Vetted.append (h : Vetted w cfg log t) (more : List Event) :
    Vetted w cfg (log ++ more) t := by
  have hat : ∀ {e : Event}, log[t.time]? = some e → (log ++ more)[t.time]? = some e := by
    intro e he
    rw [List.getElem?_append_left (List.getElem?_eq_some_iff.1 he).1]
    exact he
  cases h with
  | error h hlimit => exact .error (hat h) hlimit
  | unwired h => exact .unwired h
  | empty h => exact .empty h
  | screened h hlog hpass => exact .screened h (hat hlog) hpass

theorem VettedContent.append {s t : State} (h : VettedContent w cfg source s)
    (hlog : t.log = s.log ++ more) : VettedContent w cfg source t := by
  intro u hu
  rw [hlog]
  exact (h u hu).append more

/-! A compaction makes no message from a text of a tool. -/

theorem mem_maskInPlace {st : CompactionSettings} {host : CompactionHost} {all : List Message}
    {ms : List LoopMessage}
    (h : m ∈ ContextCompactor.maskInPlace st host all ms tries remaining) :
    m ∈ ms ∨ m.source = none := by
  induction ms generalizing tries remaining with
  | nil => cases h
  | cons x rest ih =>
    have hkeep : ∀ {tries remaining},
        m ∈ x :: ContextCompactor.maskInPlace st host all rest tries remaining →
          m ∈ x :: rest ∨ m.source = none := by
      intro tries remaining h
      cases List.mem_cons.1 h with
      | inl h => exact .inl (List.mem_cons.2 (.inl h))
      | inr h => exact (ih h).imp_left (List.mem_cons_of_mem x)
    rw [ContextCompactor.maskInPlace] at h
    split at h
    · exact .inl h
    · split at h
      · split at h
        · exact hkeep h
        · cases List.mem_cons.1 h with
          | inl h => exact .inr (by rw [h]; rfl)
          | inr h => exact (ih h).imp_left (List.mem_cons_of_mem x)
      · exact hkeep h

theorem mem_compactList {st : CompactionSettings} {host : CompactionHost} {used : Option Usage}
    {ms : List LoopMessage} (h : m ∈ (ContextCompactor.compactList st host used ms).messages) :
    m ∈ ms ∨ m.source = none := by
  rw [ContextCompactor.compactList] at h
  dsimp only at h
  split at h
  · exact .inl h
  · split at h
    · cases List.mem_append.1 h with
      | inl h => exact (mem_maskInPlace h).imp_left List.mem_of_mem_take
      | inr h => exact .inl (List.mem_of_mem_drop h)
    · split at h
      · exact .inl h
      · split at h
        · exact .inl h
        · split at h
          · split at h
            · cases List.mem_cons.1 h with
              | inl h => exact .inr (by rw [h])
              | inr h => exact .inl (List.mem_of_mem_drop h)
            · exact .inl (List.mem_of_mem_drop h)
          · exact .inl (List.mem_of_mem_drop h)

structure ScreenInv (w : Host) (cfg : Config) (s : State) : Prop where
  messages : ∀ m ∈ s.messages, VettedContent w cfg m.source s
  response : s.response.source = none
  sent : ∀ forced usage messages, .turn forced usage messages ∈ s.log →
    ∀ m ∈ messages, VettedContent w cfg m.source s

theorem step_screen {s : State} (h : ScreenInv w cfg s) (ha : Allows w cfg s e) :
    ScreenInv w cfg (s.record w e) := by
  have hold : ∀ m ∈ s.messages, VettedContent w cfg m.source (s.record w e) :=
    fun m hm => (h.messages m hm).append rfl
  have hnone : ∀ {source : Option ToolText}, source = none →
      VettedContent w cfg source (s.record w e) := by
    intro source hsource
    rw [hsource]
    exact vetted_none _
  have hadd : ∀ {x : LoopMessage}, VettedContent w cfg x.source (s.record w e) →
      ∀ m ∈ s.messages ++ [x], VettedContent w cfg m.source (s.record w e) := by
    intro x hx m hm
    cases List.mem_append.1 hm with
    | inl hm => exact hold m hm
    | inr hm =>
      rw [List.mem_singleton.1 hm]
      exact hx
  refine ⟨?_, ?_, ?_⟩
  · cases ha with
    | compacted _ _ hlist =>
      obtain ⟨used, rfl⟩ := hlist
      intro m hm
      exact (mem_compactList hm).elim (hold m) hnone
    | acted => exact hadd (hnone h.response)
    | invoked =>
      intro m hm
      have hm : m ∈ (s.count w _ _).messages := hm
      rw [count_messages] at hm
      exact hold m hm
    | replied _ _ _ _ hsource => exact hadd fun t ht => (hsource t ht).append _
    | prompted => exact hadd (hnone rfl)
    | capped => exact hadd (hnone h.response)
    | _ => exact hold
  · cases ha with
    | answered _ _ _ hsource => exact hsource
    | invoked => exact (congrArg LoopMessage.source (count_response s _ _)).trans h.response
    | _ => exact h.response
  · intro forced usage messages hm m hmem
    cases List.mem_append.1 hm with
    | inl hm => exact (h.sent forced usage messages hm m hmem).append rfl
    | inr hm =>
      cases List.mem_singleton.1 hm
      cases ha
      exact hold m hmem

theorem mem_withAllowedToolsHint {allowed : List String} {phase : Option String}
    {ms : List LoopMessage} (h : m ∈ withAllowedToolsHint allowed phase ms) :
    m ∈ ms ∨ ∃ x ∈ ms, m.source = x.source := by
  rw [withAllowedToolsHint] at h
  split at h
  · exact .inl h
  next tail htail =>
    split at h
    · cases List.mem_append.1 h with
      | inl h => exact .inl (List.mem_of_mem_dropLast h)
      | inr h =>
        rw [List.mem_singleton.1 h]
        exact .inr ⟨tail, List.mem_of_getLast? htail, rfl⟩
    · exact .inl h

theorem start_source (cfg : Config) (tools : List String) (messages : List LoopMessage)
    (usage : Usage) (h : m ∈ (start cfg tools messages usage).messages) : m.source = none := by
  have hgiven : ∀ x ∈ messages.map fun m => { m with source := none }, x.source = none := by
    intro x hx
    obtain ⟨y, -, rfl⟩ := List.mem_map.1 hx
    rfl
  rw [start] at h
  dsimp only at h
  split at h
  · exact hgiven m h
  · cases mem_withAllowedToolsHint h with
    | inl h => exact hgiven m h
    | inr h =>
      obtain ⟨x, hx, hsource⟩ := h
      rw [hsource]
      exact hgiven x hx

/-- Where no way around the screening is taken, the model sees no text of a tool that the detector
blocks. -/
theorem screened_without_detour (hd : cfg.detector = some d) (tools : List String)
    (messages : List LoopMessage) (usage : Usage)
    (hno : AtEach (NoWayAround w d) (loopLog w cfg tools messages usage)) :
    Screened d (loopLog w cfg tools messages usage) := by
  have hreached := reached_reactLoop w cfg tools messages usage
  have hinv := hreached.always (I := ScreenInv w cfg) ?_ fun _ _ hi ha => step_screen hi ha
  · intro forced usage' sent hsent m hm _ t ht
    exact (hinv.sent forced usage' sent hsent m hm t ht).not_blocks hd hno
  · refine ⟨fun m hm => ?_, rfl, fun _ _ _ h => by cases h⟩
    rw [start_source cfg tools messages usage hm]
    exact vetted_none _

def Event.breaks : Event → Bool
  | .invoked _ _ (.raised _) _ => true
  | .screened _ none => true
  | _ => false

theorem noWayAround_of_sound (h : ∀ e ∈ log, e.breaks = false) : AtEach (NoWayAround w d) log := by
  apply atEach_of_forall
  intro e he pre
  have he := h e he
  cases e with
  | invoked tool args outcome metered =>
    cases outcome with
    | result text => trivial
    | raised text => cases he
  | screened text verdict =>
    cases verdict with
    | none => cases he
    | some verdict => trivial
  | _ => trivial

def flags (bad : String) : Detector where
  mode := .enforce
  threshold := 1
  risk := fun _ text => if text = bad then 1 else 0
  sanitize := id
  fails := fun _ _ => false

def callsTool (outcome : ToolOutcome) : Host where
  llm := fun _ _ => .ok ⟨"", [⟨some "c", "t", []⟩]⟩
  tool := fun _ _ _ => outcome
  isRateLimit := fun _ => false
  isPermanentError := fun _ => false

def screening (bad : String) : Config where
  maxIterations := 1
  detector := some (flags bad)

/-- A result that the detector flags is withheld. -/
theorem screened_result :
    Screened (flags "x") (loopLog (callsTool (.result "x")) (screening "x") ["t"] [] {}) :=
  screened_without_detour rfl ["t"] [] {} (noWayAround_of_sound (by decide))

/-- A tool that raises gets the flagged text to the model. -/
theorem error_unscreened :
    ¬∀ (w : Host) (cfg : Config) (d : Detector) (tools : List String)
      (messages : List LoopMessage) (usage : Usage), cfg.detector = some d → d.mode = .enforce →
        Screened d (loopLog w cfg tools messages usage) := by
  intro h
  have hscreened := h (callsTool (.raised "x")) (screening "x") (flags "x") ["t"] [] {} rfl rfl
  have hturn : (loopLog (callsTool (.raised "x")) (screening "x") ["t"] [] {})[8]? =
      some (.turn true {} [
        { LoopMessage.ai "" with toolCalls := [⟨some "c", "t", []⟩], ref := 1 },
        .tool "Tool error: x" "c" (some ⟨"x", 5⟩),
        .human allToolsFailedPrompt]) := rfl
  exact hscreened true {} _ (List.mem_of_getElem? hturn)
    (.tool "Tool error: x" "c" (some ⟨"x", 5⟩)) (by decide) rfl ⟨"x", 5⟩ rfl rfl

end Prismal.Agents.ReactLoop

namespace Prismal.Agents.ReactLoop
open Prismal.Budget Prismal.Lib
set_option autoImplicit true

/-! How many turns the model takes, and what the meter says when they start. -/

variable {w : Host} {cfg : Config}

def Event.isTurn : Event → Bool
  | .turn _ _ _ => true
  | _ => false

def turns (log : List Event) : Nat := log.countP Event.isTurn

def spent (usage : Usage) : Event → Usage
  | .compacted _ metered => State.charged usage metered
  | .answered _ metered => State.charged usage metered
  | .invoked _ _ _ metered => State.charged usage metered
  | _ => usage

def TurnsWithin (cfg : Config) (log : List Event) : Prop :=
  ∀ forced usage messages, .turn forced usage messages ∈ log → overBudget cfg usage = false

/-- The places without a check: a forced final turn starts within the cap, and the call of the
summarizer, which the meter records, does not carry the run over it. -/
def Unchecked (cfg : Config) (start : Usage) (pre : List Event) : Event → Prop
  | .turn true usage _ => overBudget cfg usage = false
  | .compacted _ metered =>
    let usage := pre.foldl spent start
    overBudget cfg usage = false → overBudget cfg (State.charged usage metered) = false
  | _ => True

def Phase.owed : Phase → Nat
  | .cleared => 1
  | _ => 0

def Phase.extra : Phase → Nat
  | .asked true | .ended => 1
  | _ => 0

structure TurnInv (cfg : Config) (start : Usage) (s : State) : Prop where
  usage : s.usage = s.log.foldl spent start
  cleared : s.phase = .cleared → overBudget cfg s.usage = false
  within : TurnsWithin cfg s.log

structure CountInv (cfg : Config) (s : State) : Prop where
  turns : turns s.log + s.phase.owed = s.iterations + s.phase.extra
  bound : s.iterations ≤ cfg.maxIterations.toNat

theorem turns_concat (log : List Event) (e : Event) :
    turns (log ++ [e]) = turns log + if e.isTurn then 1 else 0 := by
  rw [turns, List.countP_append, List.countP_singleton, turns]

theorem within_concat (h : TurnsWithin cfg log)
    (he : ∀ forced usage messages, e = .turn forced usage messages → overBudget cfg usage = false) :
    TurnsWithin cfg (log ++ [e]) := by
  intro forced usage messages hm
  cases List.mem_append.1 hm with
  | inl hm => exact h forced usage messages hm
  | inr hm => exact he forced usage messages (List.mem_singleton.1 hm).symm

theorem count_keeps {s t : State} {e : Event} (h : CountInv cfg s) (hlog : t.log = s.log ++ [e])
    (he : e.isTurn = false) (howed : t.phase.owed = s.phase.owed)
    (hextra : t.phase.extra = s.phase.extra) (hit : t.iterations = s.iterations) :
    CountInv cfg t := by
  refine ⟨?_, hit.trans_le h.bound⟩
  rw [hlog, turns_concat, he, howed, hextra, hit]
  exact h.turns

theorem step_count {s : State} (h : CountInv cfg s) (ha : Allows w cfg s e) :
    CountInv cfg (s.record w e) := by
  have hturns := h.turns
  cases ha with
  | passed hphase hleft =>
    rw [hphase] at hturns
    refine ⟨?_, hleft⟩
    change turns (s.log ++ [.passed]) + 1 = s.iterations + 1
    rw [turns_concat]
    exact congrArg (· + 1) hturns
  | @turn forced hphase =>
    rw [hphase] at hturns
    refine ⟨?_, h.bound⟩
    change turns (s.log ++ [.turn forced s.usage s.messages]) + 0 = _
    rw [turns_concat]
    cases forced with
    | true => exact congrArg (· + 1) hturns
    | false => exact hturns
  | @answered forced m metered hphase =>
    apply count_keeps h rfl rfl
    · rw [answered_phase hphase, hphase]
      cases forced with
      | true => rfl
      | false => rfl
    · rw [answered_phase hphase, hphase]
      cases forced with
      | true => rfl
      | false => rfl
    · rfl
  | acted hphase => exact count_keeps h rfl rfl (by rw [hphase]; rfl) (by rw [hphase]; rfl) rfl
  | invoked hphase =>
    exact count_keeps h rfl rfl (congrArg Phase.owed (count_phase s _ _))
      (congrArg Phase.extra (count_phase s _ _)) (count_iterations s _ _)
  | replied hphase =>
    exact count_keeps h rfl rfl (by rw [replied_phase hphase, hphase]; rfl)
      (by rw [replied_phase hphase, hphase]; rfl) rfl
  | prompted hphase => exact count_keeps h rfl rfl (by rw [hphase]; rfl) (by rw [hphase]; rfl) rfl
  | _ => exact count_keeps h rfl rfl rfl rfl rfl

theorem step_turns {start : Usage} {s : State} (h : TurnInv cfg start s) (ha : Allows w cfg s e)
    (hc : Unchecked cfg start s.log e) : TurnInv cfg start (s.record w e) := by
  have husage := h.usage
  -- an event that is no turn and charges what it says
  have hkeeps : ∀ {t : State} {e : Event}, t.log = s.log ++ [e] → t.usage = spent s.usage e →
      e.isTurn = false → (t.phase = .cleared → overBudget cfg t.usage = false) →
      TurnInv cfg start t := by
    intro t e hlog hcharge hturn hcleared
    refine ⟨?_, hcleared, ?_⟩
    · rw [hlog, hcharge, husage, List.foldl_append]
      rfl
    · rw [hlog]
      apply within_concat h.within
      intro forced usage messages he
      rw [he] at hturn
      cases hturn
  cases ha with
  | passed _ _ hbudget => exact hkeeps rfl rfl rfl fun _ => hbudget
  | compacted hphase =>
    apply hkeeps rfl rfl rfl
    intro hcleared
    have hwithin := h.cleared hcleared
    rw [husage] at hwithin
    change overBudget cfg (State.charged s.usage _) = false
    rw [husage]
    exact hc hwithin
  | @turn forced hphase =>
    refine ⟨?_, ?_, ?_⟩
    · change s.usage = (s.log ++ [_]).foldl spent start
      rw [List.foldl_append]
      exact husage
    · intro hcleared
      cases hcleared
    · apply within_concat h.within
      intro forced' usage messages he
      cases he
      cases forced with
      | true => exact hc
      | false => exact h.cleared hphase
  | @answered forced m metered hphase =>
    apply hkeeps rfl rfl rfl
    intro hcleared
    rw [answered_phase hphase] at hcleared
    cases forced with
    | true => cases hcleared
    | false => cases hcleared
  | acted => exact hkeeps rfl rfl rfl fun h => by cases h
  | invoked hphase =>
    apply hkeeps rfl rfl rfl
    intro hcleared
    have hcleared := (count_phase s _ _).symm.trans hcleared
    rw [hphase] at hcleared
    cases hcleared
  | replied hphase =>
    apply hkeeps rfl rfl rfl
    intro hcleared
    rw [replied_phase hphase] at hcleared
    cases hcleared
  | prompted => exact hkeeps rfl rfl rfl fun h => by cases h
  | _ => exact hkeeps rfl rfl rfl h.cleared

/-- A run whose unchecked turns and summaries stay within the cap starts no turn over it, and a
run of `maxIterations` iterations takes one turn more at most. -/
theorem hardCap_stops (tools : List String) (messages : List LoopMessage) (usage : Usage)
    (hmax : 0 ≤ cfg.maxIterations)
    (hunchecked : AtEach (Unchecked cfg usage) (loopLog w cfg tools messages usage)) :
    TurnsWithin cfg (loopLog w cfg tools messages usage) ∧
      (turns (loopLog w cfg tools messages usage) : Int) ≤ cfg.maxIterations + 1 := by
  have hreached := reached_reactLoop w cfg tools messages usage
  have hturns := hreached.invariant (I := TurnInv cfg usage)
    ⟨rfl, (fun h => by cases h), fun _ _ _ h => by cases h⟩
    (fun _ _ hi ha hc => step_turns hi ha hc) hunchecked
  refine ⟨hturns.within, ?_⟩
  have hcount := hreached.always (I := CountInv cfg) ⟨rfl, Nat.zero_le _⟩
    fun _ _ hi ha => step_count hi ha
  have hextra : ∀ phase : Phase, phase.extra ≤ 1 := by
    intro phase
    cases phase with
    | asked forced =>
      cases forced with
      | true => exact le_refl 1
      | false => exact Nat.zero_le 1
    | ended => exact le_refl 1
    | _ => exact Nat.zero_le 1
  have hle := hextra (left (reactLoop w cfg tools messages usage)).phase
  have hbound := hcount.bound
  have heq := hcount.turns
  rw [loopLog]
  omega

def oneCall : Spend where
  usage := { calls := 1 }
  nonneg := by
    intro c
    cases c with
    | calls => exact zero_le_one
    | _ => exact le_refl 0

def oneCallGuard : BudgetGuard where
  budget := { maxCalls := 1 }

def oneIteration : Config where
  maxIterations := 1
  budgetGuard := some oneCallGuard

theorem oneCall_free : overBudget oneIteration {} = false := by
  rw [Bool.eq_false_iff]
  intro h
  obtain ⟨d, hpos, hle⟩ := BudgetGuard.hardExceeded_iff.1 h
  cases d with
  | calls => exact absurd hle (by decide)
  | _ => exact absurd hpos (by decide)

theorem oneCall_over : overBudget oneIteration (State.charged {} (some oneCall)) = true :=
  BudgetGuard.hardExceeded_iff.2 ⟨.calls, by decide, by decide⟩

theorem loopLog_oneIteration (w : Host) (tools : List String) :
    loopLog w oneIteration tools [] {} = (left (iteration w oneIteration
      (iterate w oneIteration 0) (start oneIteration tools [] {}))).log := by
  have hfirst := iterate_of_free (w := w) (s := start oneIteration tools [] {}) oneCall_free 0
  exact congrArg (fun result => (left result).log) hfirst

def answersWith (calls : List ToolCall) : Host where
  llm := fun _ _ => .ok ⟨"", calls⟩
  spend := fun _ => some oneCall
  tool := fun _ _ _ => .result ""
  isRateLimit := fun _ => false
  isPermanentError := fun _ => false

/-- A model that calls no tool takes the one turn that it may. -/
theorem hardCap_stops_once :
    TurnsWithin oneIteration (loopLog (answersWith []) oneIteration [] [] {}) ∧
      (turns (loopLog (answersWith []) oneIteration [] [] {}) : Int) ≤ 1 + 1 := by
  apply hardCap_stops [] [] {} zero_le_one
  have hlog : loopLog (answersWith []) oneIteration [] [] {} = [.passed, .turn false {} [],
      .attempt, .answered { LoopMessage.ai "" with ref := 1 } (some oneCall)] := by
    rw [loopLog_oneIteration]
    rfl
  rw [hlog]
  exact atEach_concat (atEach_concat (atEach_concat (atEach_concat atEach_nil trivial) trivial)
    trivial) trivial

/-- The final turn at the cap of the iterations starts with the budget used up. -/
theorem finalTurn_over_cap :
    ¬∀ (w : Host) (cfg : Config) (tools : List String) (messages : List LoopMessage)
      (usage : Usage), TurnsWithin cfg (loopLog w cfg tools messages usage) ∧
        (turns (loopLog w cfg tools messages usage) : Int) ≤ cfg.maxIterations + 1 := by
  intro h
  have hwithin := (h (answersWith [⟨some "c", "t", []⟩]) oneIteration ["t"] [] {}).1
  have hturn : ∃ messages, (loopLog (answersWith [⟨some "c", "t", []⟩]) oneIteration ["t"] []
      {})[9]? = some (.turn true (State.charged {} (some oneCall)) messages) := by
    rw [loopLog_oneIteration]
    exact ⟨_, rfl⟩
  obtain ⟨messages, hturn⟩ := hturn
  have hfree := hwithin true _ messages (List.mem_of_getElem? hturn)
  rw [oneCall_over] at hfree
  cases hfree

end Prismal.Agents.ReactLoop

namespace Prismal.Agents.ReactLoop
open Prismal.Budget Prismal.Lib Prismal.Security
set_option autoImplicit true

/-! Which calls of a tool the loop makes. -/

def learns (known : List String) : Event → List String
  | .bound names => known ++ names
  | _ => known

def known (tools : List String) (log : List Event) : List String := log.foldl learns tools

def fails (w : Host) (tool : String) (n : Nat) : Event → Nat
  | .invoked name _ (.result _) _ => if name = tool then 0 else n
  | .invoked name _ (.raised text) _ =>
    if name = tool ∧ w.isRateLimit text = false then n + 1 else n
  | _ => n

def failuresSince (w : Host) (tool : String) (log : List Event) : Nat := log.foldl (fails w tool) 0

def limits (w : Host) (tool : String) (limited : Bool) : Event → Bool
  | .acted _ => false
  | .invoked name _ (.raised text) _ => limited || (decide (name = tool) && w.isRateLimit text)
  | _ => limited

def limitedNow (w : Host) (tool : String) (log : List Event) : Bool :=
  log.foldl (limits w tool) false

/-- A call that may be made after what has happened. -/
structure Authorized (w : Host) (cfg : Config) (tools : List String) (log : List Event)
    (tool : String) (args : Args) : Prop where
  known : tool ∈ known tools log
  admitted : ∀ allowed, cfg.toolAllowSet = some allowed → tool ∈ allowed
  allowed : cfg.toolPolicy = true → log.getLast? = some (.checked tool args (some .allow))
  failures : failuresSince w tool log < maxToolFailures
  unlimited : limitedNow w tool log = false

variable {w : Host} {cfg : Config}

/-- The bookkeeping of the loop agrees with its log. -/
structure BookInv (w : Host) (tools : List String) (s : State) : Prop where
  known : s.toolMap = known tools s.log
  failures : ∀ tool, s.failures tool = failuresSince w tool s.log
  limited : ∀ tool, tool ∈ s.rateLimited ↔ limitedNow w tool s.log = true

def Admitted (w : Host) (cfg : Config) (tools : List String) (pre : List Event) : Event → Prop
  | .invoked tool args _ _ => Authorized w cfg tools pre tool args ↔
      ¬(cfg.toolPolicy = true ∧ pre.getLast? = some (.checked tool args none))
  | _ => True

theorem admitted_invoked {s : State} {tools : List String} (h : BookInv w tools s)
    (hcall : Callable cfg s call) (hpolicy : Consulted cfg s call) :
    Admitted w cfg tools s.log (.invoked call.name call.args outcome metered) := by
  constructor
  · intro hauth ⟨hwired, hlast⟩
    rw [hauth.allowed hwired] at hlast
    cases hlast
  · intro hraised
    refine ⟨?_, ?_, ?_, ?_, ?_⟩
    · rw [← h.known]
      exact hcall.mapped
    · intro allowed hallowed
      have hadmits := hcall.admitted
      rw [admits, hallowed] at hadmits
      exact of_decide_eq_true hadmits
    · intro hwired
      obtain ⟨effect, hlast, heffect⟩ := hpolicy hwired
      cases heffect with
      | inl heffect =>
        rw [heffect] at hlast
        exact absurd ⟨hwired, hlast⟩ hraised
      | inr heffect =>
        rw [heffect] at hlast
        exact hlast
    · rw [← h.failures]
      exact hcall.failures
    · rw [Bool.eq_false_iff, ne_eq, ← h.limited]
      exact hcall.unlimited

theorem count_failures (s : State) (name tool : String) (args : Args) (outcome : ToolOutcome)
    (metered : Option Spend) : (s.count w name outcome).failures tool =
      fails w tool (s.failures tool) (.invoked name args outcome metered) := by
  cases outcome with
  | result text =>
    rw [State.count, State.failures, Dict.get?_set, fails]
    split
    · rfl
    · rfl
  | raised text =>
    rw [State.count, fails]
    by_cases hlimit : w.isRateLimit text = true
    · rw [if_pos hlimit, if_neg fun h => Bool.eq_false_iff.1 h.2 hlimit]
      rfl
    · rw [if_neg hlimit, State.failures, Dict.get?_set]
      by_cases hname : name = tool
      · rw [if_pos hname, if_pos ⟨hname, Bool.eq_false_iff.2 hlimit⟩, hname]
        rfl
      · rw [if_neg hname, if_neg fun h => hname h.1]
        rfl

theorem count_limited (s : State) (name tool : String) (args : Args) (outcome : ToolOutcome)
    (metered : Option Spend) (h : tool ∈ s.rateLimited ↔ was = true) :
    tool ∈ (s.count w name outcome).rateLimited ↔
      limits w tool was (.invoked name args outcome metered) = true := by
  cases outcome with
  | result text => exact h
  | raised text =>
    rw [State.count, limits, Bool.or_eq_true, Bool.and_eq_true, decide_eq_true_eq, ← h]
    split
    next hlimit =>
      rw [List.mem_cons]
      constructor
      · intro hm
        cases hm with
        | inl hm => exact .inr ⟨hm.symm, hlimit⟩
        | inr hm => exact .inl hm
      · intro hm
        cases hm with
        | inl hm => exact .inr hm
        | inr hm => exact .inl hm.1.symm
    next hlimit =>
      exact ⟨.inl, fun hm => hm.elim id fun hm => absurd hm.2 hlimit⟩

theorem book_step {s t : State} {tools : List String} {e : Event} (h : BookInv w tools s)
    (hlog : t.log = s.log ++ [e]) (hknown : t.toolMap = learns s.toolMap e)
    (hfailures : ∀ tool, t.failures tool = fails w tool (s.failures tool) e)
    (hlimited : ∀ tool, tool ∈ t.rateLimited ↔ limits w tool (limitedNow w tool s.log) e = true) :
    BookInv w tools t := by
  refine ⟨?_, fun tool => ?_, fun tool => ?_⟩
  · rw [hknown, h.known, hlog, known, known, List.foldl_append]
    rfl
  · rw [hfailures, h.failures, hlog, failuresSince, failuresSince, List.foldl_append]
    rfl
  · rw [hlimited, hlog, limitedNow, limitedNow, List.foldl_append]
    exact Iff.rfl

theorem step_book {s : State} {tools : List String} (h : BookInv w tools s)
    (ha : Allows w cfg s e) : BookInv w tools (s.record w e) := by
  cases ha with
  | acted =>
    apply book_step h rfl rfl fun _ => rfl
    intro tool
    exact ⟨fun h => absurd h List.not_mem_nil, fun h => by cases h⟩
  | invoked =>
    exact book_step h rfl (count_toolMap s _ _) (fun _ => count_failures s _ _ _ _ _) fun tool =>
      count_limited s _ _ _ _ _ (h.limited tool)
  | _ => exact book_step h rfl rfl (fun _ => rfl) h.limited

/-- The loop makes a call only where it is authorized, unless the policy check for that very call
raised; then it makes it all the same. -/
theorem invocations_admitted (tools : List String) (messages : List LoopMessage) (usage : Usage) :
    AtEach (Admitted w cfg tools) (loopLog w cfg tools messages usage) := by
  have hreached := reached_reactLoop w cfg tools messages usage
  have hinv := hreached.always (I := fun s => BookInv w tools s ∧
    AtEach (Admitted w cfg tools) s.log) ?_ ?_
  · exact hinv.2
  · refine ⟨⟨rfl, fun _ => rfl, fun tool => ?_⟩, atEach_nil⟩
    exact ⟨fun h => absurd h List.not_mem_nil, fun h => by cases h⟩
  · intro s e ⟨hbook, hlog⟩ ha
    refine ⟨step_book hbook ha, atEach_concat hlog ?_⟩
    cases ha with
    | invoked _ hcall hpolicy => exact admitted_invoked hbook hcall hpolicy
    | _ => exact trivial

def brokenPolicy : Host where
  llm := fun _ _ => .ok ⟨"", [⟨some "c", "rm", []⟩]⟩
  tool := fun _ _ _ => .result ""
  isRateLimit := fun _ => false
  isPermanentError := fun _ => false

def policed : Config where
  maxIterations := 1
  toolPolicy := true

/-- The tool is called although the policy has not answered. -/
theorem invoked_unanswered :
    ¬∀ (w : Host) (cfg : Config) (tools : List String) (messages : List LoopMessage)
      (usage : Usage), AtEach (fun pre e => ∀ tool args outcome metered,
        e = .invoked tool args outcome metered → Authorized w cfg tools pre tool args)
        (loopLog w cfg tools messages usage) := by
  intro h
  have hat := h brokenPolicy policed ["rm"] [] {}
  have hlog : ∃ post, loopLog brokenPolicy policed ["rm"] [] {} =
      (loopLog brokenPolicy policed ["rm"] [] {}).take 6 ++
        .invoked "rm" [] (.result "") none :: post := ⟨_, rfl⟩
  obtain ⟨post, hlog⟩ := hlog
  have hauth := hat _ _ post hlog "rm" [] (.result "") none rfl
  have hallowed := hauth.allowed rfl
  cases hallowed

end Prismal.Agents.ReactLoop
