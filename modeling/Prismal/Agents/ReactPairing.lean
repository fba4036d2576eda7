import Prismal.Agents.ReactSteps
import Prismal.Lib.Pairing

namespace Prismal.Agents.ReactLoop
open Prismal.Budget Prismal.Lib
set_option autoImplicit true

/-! Which lists of messages the model gets to see. -/

def move (m : LoopMessage) : Move (Option String) Nat where
  reply := if m.type = .tool then some (some m.toolCallId) else none
  asks := m.toolCalls.map ToolCall.id
  name := m.ref

/-- Each message with tool calls occurs once, followed by one `ToolMessage` for each id. -/
def WellPaired (messages : List LoopMessage) : Prop := Paired (messages.map move)

/-- The answer that is acted upon names its calls, each by an id of its own, and the cap of the
iterations is not reached with calls in the last answer. -/
def Proper (_ : List Event) : Event → Prop
  | .acted m => (m.toolCalls.map ToolCall.id).Nodup ∧ none ∉ m.toolCalls.map ToolCall.id
  | .capped m => m.toolCalls = []
  | _ => True

variable {w : Host} {cfg : Config}

theorem maskInPlace_moves {st : CompactionSettings} {host : CompactionHost} {all : List Message}
    (ms : List LoopMessage) (tries : Nat) (remaining : Int) :
    (ContextCompactor.maskInPlace st host all ms tries remaining).map move = ms.map move :=
  ContextCompactor.maskInPlace_map move (fun _ _ => rfl) ms tries remaining

theorem compactList_moves (st : CompactionSettings) (host : CompactionHost) (used : Option Usage)
    (ms : List LoopMessage) :
    ∃ k, (ContextCompactor.compactList st host used ms).messages.map move = (ms.map move).drop k ∨
      ∃ m : Move (Option String) Nat, m.asks = [] ∧
        (ContextCompactor.compactList st host used ms).messages.map move =
          m :: (ms.map move).drop k := by
  rw [ContextCompactor.compactList]
  dsimp only
  split
  · exact ⟨0, .inl rfl⟩
  · split
    · refine ⟨0, .inl ?_⟩
      rw [List.map_append, maskInPlace_moves, ← List.map_append, List.take_append_drop]
      rfl
    · split
      · exact ⟨0, .inl rfl⟩
      · split
        · exact ⟨0, .inl rfl⟩
        · split
          · split
            · exact ⟨_, .inr ⟨_, rfl, congrArg (_ :: ·) (List.map_drop ..)⟩⟩
            · exact ⟨_, .inl (List.map_drop ..)⟩
          · exact ⟨_, .inl (List.map_drop ..)⟩

/-- The moves that ask have been named before `n`. -/
def Below (n : Nat) (moves : List (Move (Option String) Nat)) : Prop :=
  ∀ m ∈ moves, m.asks ≠ [] → m.name < n

theorem compactList_paired (st : CompactionSettings) (host : CompactionHost) (used : Option Usage)
    (h : WellPaired ms) (hn : Below n (ms.map move)) :
    WellPaired (ContextCompactor.compactList st host used ms).messages ∧
      Below n ((ContextCompactor.compactList st host used ms).messages.map move) := by
  have hdrop : ∀ k, Paired ((ms.map move).drop k) ∧ Below n ((ms.map move).drop k) := by
    intro k
    refine ⟨paired_of_append ((ms.map move).take k) ?_, ?_⟩
    · rw [List.take_append_drop]
      exact h
    · exact fun m hm => hn m (List.mem_of_mem_drop hm)
  obtain ⟨k, hk⟩ := compactList_moves st host used ms
  obtain ⟨hpaired, hbelow⟩ := hdrop k
  rw [WellPaired]
  cases hk with
  | inl hk =>
    rw [hk]
    exact ⟨hpaired, hbelow⟩
  | inr hk =>
    obtain ⟨m, hasks, hk⟩ := hk
    rw [hk]
    refine ⟨paired_cons_plain hasks hpaired, ?_⟩
    intro x hx hxasks
    cases List.mem_cons.1 hx with
    | inl hx =>
      rw [hx] at hxasks
      exact absurd hasks hxasks
    | inr hx => exact hbelow x hx hxasks

def Open (calls : List ToolCall) (moves : List (Move (Option String) Nat)) : Prop :=
  ∃ base m replies, moves = base ++ m :: replies ∧ Paired base ∧ m.reply = none ∧
    m.Fresh base ∧ (∀ r ∈ replies, r.reply.isSome = true ∧ r.asks = []) ∧ m.asks.Nodup ∧
    none ∉ m.asks ∧ replies.map Move.reply ++ calls.map (fun call => some call.id) =
      m.asks.map some

theorem Open.closed {moves : List (Move (Option String) Nat)} (h : Open [] moves) :
    Paired moves := by
  obtain ⟨base, m, replies, rfl, hbase, hreply, hfresh, hreplies, hnodup, _, hids⟩ := h
  rw [List.map_nil, List.append_nil] at hids
  exact paired_append_group hbase hreply hfresh hreplies (answered_of_replies hnodup hids)

theorem Open.reply {moves : List (Move (Option String) Nat)} (h : Open (call :: rest) moves)
    (htool : m.type = .tool) (hcalls : m.toolCalls = [])
    (hid : m.toolCallId = call.id.getD "None") : Open rest (moves ++ [move m]) := by
  obtain ⟨base, x, replies, rfl, hbase, hreply, hfresh, hreplies, hnodup, hnone, hids⟩ := h
  have hcall : call.id ∈ x.asks := by
    have hmem : some call.id ∈ x.asks.map some := by
      rw [← hids]
      exact List.mem_append_right _ List.mem_cons_self
    obtain ⟨i, hi, heq⟩ := List.mem_map.1 hmem
    cases heq
    exact hi
  have hmove : (move m).reply = some call.id := by
    rw [move, if_pos htool, hid]
    cases hc : call.id with
    | none =>
      rw [hc] at hcall
      exact absurd hcall hnone
    | some i => rfl
  refine ⟨base, x, replies ++ [move m], ?_, hbase, hreply, hfresh, ?_, hnodup, hnone, ?_⟩
  · rw [List.append_assoc, List.cons_append]
  · intro r hr
    cases List.mem_append.1 hr with
    | inl hr => exact hreplies r hr
    | inr hr =>
      rw [List.mem_singleton.1 hr]
      refine ⟨by rw [hmove]; rfl, ?_⟩
      rw [move, hcalls]
      rfl
  · rw [List.map_append, List.append_assoc, ← hids, List.map_cons, hmove]
    rfl

def Shaped (moves : List (Move (Option String) Nat)) : Phase → Prop
  | .acting (call :: rest) => Open (call :: rest) moves
  | _ => Paired moves

theorem shaped_acting {moves : List (Move (Option String) Nat)} (h : Open calls moves) :
    Shaped moves (.acting calls) := by
  cases calls with
  | nil => exact h.closed
  | cons call rest => exact h

structure PairInv (s : State) : Prop where
  below : Below s.next (s.messages.map move)
  responded : s.phase = .answered →
    s.response.ref < s.next ∧ Below s.response.ref (s.messages.map move)
  response : s.response.type = .ai
  shaped : Shaped (s.messages.map move) s.phase
  sent : ∀ forced usage messages, .turn forced usage messages ∈ s.log → WellPaired messages

theorem below_concat {moves : List (Move (Option String) Nat)} {m : Move (Option String) Nat}
    (h : Below n moves)
    (hm : m.asks ≠ [] → m.name < n) : Below n (moves ++ [m]) := by
  intro x hx
  cases List.mem_append.1 hx with
  | inl hx => exact h x hx
  | inr hx =>
    rw [List.mem_singleton.1 hx]
    exact hm

theorem Below.mono {moves : List (Move (Option String) Nat)} (h : Below n moves) (hn : n ≤ k) :
    Below k moves :=
  fun m hm hasks => (h m hm hasks).trans_le hn

theorem Below.fresh {moves : List (Move (Option String) Nat)} {m : Move (Option String) Nat}
    (h : Below n moves) (hm : m.name = n) : m.Fresh moves := by
  intro _ x hx hasks heq
  have hlt := h x hx hasks
  rw [heq, hm] at hlt
  exact lt_irrefl n hlt

theorem shaped_around {moves : List (Move (Option String) Nat)}
    (h : phase = .cleared ∨ phase = .closing) : Shaped moves phase ↔ Paired moves := by
  cases h with
  | inl h =>
    rw [h]
    exact Iff.rfl
  | inr h =>
    rw [h]
    exact Iff.rfl

theorem pair_keeps {s : State} (h : PairInv s)
    (he : ∀ forced usage messages, e ≠ .turn forced usage messages)
    (hnext : (s.record w e).next = s.next) (hresponse : (s.record w e).response = s.response)
    (hphase : (s.record w e).phase ≠ .answered)
    (hbelow : Below s.next ((s.record w e).messages.map move))
    (hshaped : Shaped ((s.record w e).messages.map move) (s.record w e).phase) :
    PairInv (s.record w e) := by
  refine ⟨?_, fun h => absurd h hphase, ?_, hshaped, ?_⟩
  · rw [hnext]
    exact hbelow
  · rw [hresponse]
    exact h.response
  · intro forced usage messages hm
    cases List.mem_append.1 hm with
    | inl hm => exact h.sent forced usage messages hm
    | inr hm => exact absurd (List.mem_singleton.1 hm).symm (he forced usage messages)

theorem pair_frame {s : State} (h : PairInv s)
    (he : ∀ forced usage messages, e ≠ .turn forced usage messages) (hphase : s.phase ≠ .answered)
    (hframe : (s.record w e).next = s.next ∧ (s.record w e).response = s.response ∧
      (s.record w e).phase = s.phase ∧ (s.record w e).messages = s.messages) :
    PairInv (s.record w e) := by
  obtain ⟨hnext, hresponse, hsame, hmessages⟩ := hframe
  apply pair_keeps h he hnext hresponse
  · rw [hsame]
    exact hphase
  · rw [hmessages]
    exact h.below
  · rw [hmessages, hsame]
    exact h.shaped

theorem step_pair {s : State} (h : PairInv s) (ha : Allows w cfg s e) (hc : Proper s.log e) :
    PairInv (s.record w e) := by
  have hshaped := h.shaped
  have hacting : ∀ {calls}, s.phase = .acting calls → s.phase ≠ .answered := by
    intro calls hphase heq
    rw [hphase] at heq
    cases heq
  -- a message at the end that neither asks nor replies
  have hplain : ∀ x : LoopMessage, x.type ≠ .tool → x.toolCalls = [] →
      Below s.next ((s.messages ++ [x]).map move) ∧ (Paired (s.messages.map move) →
        Paired ((s.messages ++ [x]).map move)) := by
    intro x htype hcalls
    have hasks : (move x).asks = [] := congrArg (List.map ToolCall.id) hcalls
    rw [List.map_append]
    refine ⟨below_concat h.below fun hne => absurd hasks hne, fun hp => ?_⟩
    exact paired_concat_plain hp (if_neg htype) hasks
  cases ha with
  | passed hphase =>
    rw [hphase] at hshaped
    exact pair_keeps h (fun _ _ _ h => by cases h) rfl rfl (fun h => by cases h) h.below hshaped
  | @compacted c list metered hphase _ hlist =>
    obtain ⟨used, rfl⟩ := hlist
    obtain ⟨hpaired, hbelow⟩ := compactList_paired c.settings (w.compaction s.time) used
      ((shaped_around hphase).1 hshaped) h.below
    refine pair_keeps h (fun _ _ _ h => by cases h) rfl rfl ?_ hbelow
      ((shaped_around hphase).2 hpaired)
    intro heq
    have heq : s.phase = .answered := heq
    rw [heq] at hphase
    exact hphase.elim (fun h => by cases h) fun h => by cases h
  | @turn forced hphase =>
    have hpaired : WellPaired s.messages := by
      rw [hphase] at hshaped
      cases forced with
      | true => exact hshaped
      | false => exact hshaped
    refine ⟨h.below, (fun h => by cases h), h.response, hpaired, ?_⟩
    intro forced usage messages hm
    cases List.mem_append.1 hm with
    | inl hm => exact h.sent forced usage messages hm
    | inr hm =>
      cases List.mem_singleton.1 hm
      exact hpaired
  | attempt hphase =>
    apply pair_frame h (fun _ _ _ h => by cases h) _ ⟨rfl, rfl, rfl, rfl⟩
    rw [hphase]
    exact fun h => by cases h
  | @answered forced m metered hphase hai href =>
    rw [hphase] at hshaped
    refine ⟨h.below.mono (Nat.le_succ _), ?_, hai, ?_, ?_⟩
    · intro _
      change m.ref < s.next + 1 ∧ Below m.ref _
      rw [href]
      exact ⟨Nat.lt_succ_self _, h.below⟩
    · rw [answered_phase hphase]
      cases forced with
      | true => exact hshaped
      | false => exact hshaped
    · intro forced usage messages hm
      cases List.mem_append.1 hm with
      | inl hm => exact h.sent forced usage messages hm
      | inr hm => cases List.mem_singleton.1 hm
  | acted hphase =>
    obtain ⟨hnext, hbelow⟩ := h.responded hphase
    rw [hphase] at hshaped
    have hreply : (move s.response).reply = none := by
      rw [move, h.response]
      rfl
    have hopen : Open s.response.toolCalls ((s.messages ++ [s.response]).map move) :=
      ⟨s.messages.map move, move s.response, [], List.map_append, hshaped, hreply,
        hbelow.fresh rfl, (fun r hr => by cases hr), hc.1, hc.2, List.map_map.symm⟩
    apply pair_keeps h (fun _ _ _ h => by cases h) rfl rfl (fun h => by cases h)
    · change Below s.next ((s.messages ++ [s.response]).map move)
      rw [List.map_append]
      exact below_concat h.below fun _ => hnext
    · exact shaped_acting hopen
  | checked hphase =>
    exact pair_frame h (fun _ _ _ h => by cases h) (hacting hphase) ⟨rfl, rfl, rfl, rfl⟩
  | invoked hphase =>
    exact pair_frame h (fun _ _ _ h => by cases h) (hacting hphase)
      ⟨count_next s _ _, count_response s _ _, count_phase s _ _, count_messages s _ _⟩
  | screened hphase =>
    exact pair_frame h (fun _ _ _ h => by cases h) (hacting hphase) ⟨rfl, rfl, rfl, rfl⟩
  | @replied call rest m masked hphase htool hcalls hid =>
    rw [hphase] at hshaped
    have hopen : Open rest ((s.messages ++ [m]).map move) := by
      rw [List.map_append]
      exact hshaped.reply htool hcalls hid
    apply pair_keeps h (fun _ _ _ h => by cases h) rfl rfl
    · rw [replied_phase hphase]
      exact fun h => by cases h
    · change Below s.next ((s.messages ++ [m]).map move)
      rw [List.map_append]
      exact below_concat h.below fun hasks =>
        absurd (congrArg (List.map ToolCall.id) hcalls) hasks
    · rw [replied_phase hphase]
      exact shaped_acting hopen
  | bound hphase =>
    exact pair_frame h (fun _ _ _ h => by cases h) (hacting hphase) ⟨rfl, rfl, rfl, rfl⟩
  | @prompted prompt hphase =>
    rw [hphase] at hshaped
    obtain ⟨hbelow, hpaired⟩ := hplain (.human prompt) (fun h => by cases h) rfl
    exact pair_keeps h (fun _ _ _ h => by cases h) rfl rfl (fun h => by cases h) hbelow
      (hpaired hshaped)
  | capped hphase =>
    have htype : s.response.type ≠ .tool := by
      rw [h.response]
      decide
    obtain ⟨hbelow, hpaired⟩ := hplain s.response htype hc
    refine pair_keeps h (fun _ _ _ h => by cases h) rfl rfl (hacting hphase) hbelow ?_
    change Shaped _ s.phase
    rw [hphase] at hshaped ⊢
    exact hpaired hshaped

theorem withAllowedToolsHint_moves (allowed : List String) (phase : Option String)
    (ms : List LoopMessage) :
    (withAllowedToolsHint allowed phase ms).map move = ms.map move := by
  rw [withAllowedToolsHint]
  split
  · rfl
  next tail htail =>
    split
    · obtain ⟨init, rfl⟩ := List.getLast?_eq_some_iff.1 htail
      rw [List.dropLast_concat, List.map_append, List.map_append]
      rfl
    · rfl

theorem start_moves (cfg : Config) (tools : List String) (messages : List LoopMessage)
    (usage : Usage) : (start cfg tools messages usage).messages.map move = messages.map move := by
  have hgiven : (messages.map fun m => { m with source := none }).map move =
      messages.map move := List.map_map
  rw [start]
  dsimp only
  split
  · exact hgiven
  · rw [withAllowedToolsHint_moves]
    exact hgiven

theorem below_start (messages : List LoopMessage) :
    Below ((messages.map LoopMessage.ref).foldr max 0 + 1) (messages.map move) := by
  induction messages with
  | nil => exact fun m hm => absurd hm List.not_mem_nil
  | cons x rest ih =>
    rw [List.map_cons, List.map_cons, List.foldr_cons]
    intro m hm hasks
    cases List.mem_cons.1 hm with
    | inl hm =>
      rw [hm]
      exact Nat.lt_succ_of_le (le_max_left _ _)
    | inr hm => exact (ih m hm hasks).trans_le (Nat.succ_le_succ (le_max_right _ _))

/-- A run whose answers name their calls apart, and that is done before the cap of the iterations,
only sends well-paired lists. -/
theorem sent_wellPaired (tools : List String) (messages : List LoopMessage) (usage : Usage)
    (hms : WellPaired messages)
    (hproper : AtEach Proper (loopLog w cfg tools messages usage)) :
    ∀ forced u sent, .turn forced u sent ∈ loopLog w cfg tools messages usage →
      WellPaired sent := by
  have hreached := reached_reactLoop w cfg tools messages usage
  have hinv := hreached.invariant (I := PairInv) ?_
    (fun _ _ hi ha hc => step_pair hi ha hc) hproper
  · exact hinv.sent
  · refine ⟨?_, (fun h => by cases h), rfl, ?_, fun _ _ _ h => by cases h⟩
    · rw [start_moves]
      exact below_start messages
    · rw [start_moves]
      exact hms

/-- A model that asks for a tool until the conversation has `n` messages. -/
def asksBelow (n : Nat) : Host where
  llm := fun _ messages => .ok ⟨"", if messages.length < n then [⟨some "c", "t", []⟩] else []⟩
  tool := fun _ _ _ => .result ""
  isRateLimit := fun _ => false
  isPermanentError := fun _ => false

def firstAnswer : LoopMessage :=
  { LoopMessage.ai "" with
    toolCalls := [⟨some "c", "t", []⟩]
    ref := 1 }

def secondTurn : List LoopMessage :=
  [.human "hi", firstAnswer, .tool "" "c" (some ⟨"", 6⟩)]

/-- The second list of a run that calls a tool once and then comes to its answer. -/
theorem sent_wellPaired_once : WellPaired secondTurn := by
  have hlog : loopLog (asksBelow 2) {} ["t"] [.human "hi"] {} = [.passed,
      .turn false {} [.human "hi"], .attempt, .answered firstAnswer none, .acted firstAnswer,
      .invoked "t" [] (.result "") none, .replied (.tool "" "c" (some ⟨"", 6⟩)) false, .passed,
      .turn false {} secondTurn, .attempt,
      .answered { LoopMessage.ai "" with ref := 2 } none] := rfl
  apply @sent_wellPaired (asksBelow 2) {} ["t"] [.human "hi"] {} _ _ false {}
  · rw [hlog]
    simp
  · exact ⟨Move.answered_of_plain rfl, Move.fresh_of_plain rfl, trivial⟩
  · rw [hlog]
    apply atEach_of_forall
    simp [Proper, firstAnswer]

/-- At the cap of the iterations the last answer is sent twice, the second time without replies. -/
theorem capped_unpaired :
    ¬∀ (w : Host) (cfg : Config) (tools : List String) (messages : List LoopMessage)
      (usage : Usage), WellPaired messages → ∀ forced u sent,
        .turn forced u sent ∈ loopLog w cfg tools messages usage → WellPaired sent := by
  intro h
  have hturn : (loopLog (asksBelow 2) { maxIterations := 1 } ["t"] [.human "hi"] {})[9]? =
      some (.turn true {} [.human "hi", firstAnswer, .tool "" "c" (some ⟨"", 6⟩), firstAnswer,
        .human iterationCapPrompt]) := rfl
  have hstart : WellPaired [.human "hi"] :=
    ⟨Move.answered_of_plain rfl, Move.fresh_of_plain rfl, trivial⟩
  have hsent := h (asksBelow 2) { maxIterations := 1 } ["t"] [.human "hi"] {} hstart true {} _
    (List.mem_of_getElem? hturn)
  obtain ⟨_, _, _, hfresh, _⟩ := hsent
  exact hfresh (by decide) (move firstAnswer) (by simp) (by decide) rfl

end Prismal.Agents.ReactLoop
