import Prismal.Events.Handlers

namespace Prismal.Events
open Prismal.Lib AgUiContext
set_option autoImplicit true

def Chunk.Fresh (ctx : AgUiContext) (chunk : Chunk) : Prop :=
  match chunk.streamed with
  | some (ns, msg, md) => msg.Fresh ctx (messageOwner ns md)
  | none => True

instance : Decidable (Chunk.Fresh ctx chunk) := by
  unfold Chunk.Fresh
  split <;> infer_instance

/-- The owner of a message while a chunk of `own` is translated. -/
def AgUiContext.ownerOf (ctx : AgUiContext) (own : Owner) (mid : String) : Owner :=
  (ctx.openMessages.get? mid).getD own

theorem agrees_ownerOf (ctx : AgUiContext) (own : Owner) : ctx.Agrees (ctx.ownerOf own) := by
  intro m o h
  rw [ownerOf, h]
  rfl

theorem ownerOf_new {ctx : AgUiContext} (own : Owner) (h : m ∉ ctx.openMessages) :
    ctx.ownerOf own m = own := by
  rw [ownerOf, Dict.get?_eq_none.2 h]
  rfl

theorem messages_data (h : messages ns (.data v) ctx = .ok r ctx') : r = none ∧ ctx' = ctx := by
  have hc : messages ns (.data v) = pure none ∨ ∃ md, messages ns (.data v) = (do
      let _ ← liftPy (langgraphNode md)
      return none) := by
    unfold messages
    split
    case h_1 md he | h_2 md he => exact .inr ⟨md, rfl⟩
    case h_3 => exact .inl rfl
    case h_4 he => cases he
  rcases hc with hc | ⟨md, hc⟩
  · exact pure_ok (hc ▸ h)
  · rw [hc] at h
    obtain ⟨node, c₁, h₁, h₂⟩ := bind_ok h
    obtain ⟨_, rfl⟩ := liftPy_ok h₁
    exact pure_ok h₂

theorem dispatch_none (h : dispatch ns mode payload ctx = .ok none ctx') : ctx' = ctx := by
  unfold dispatch at h
  split at h
  · cases payload with
    | data v => exact (messages_data h).2
    | message container msg md =>
      obtain ⟨node, c₁, _, h₁⟩ := bind_ok h
      cases msg with
      | input => cases (pure_ok h₁).1
      | _ =>
        obtain ⟨evs, c₂, _, h₂⟩ := bind_ok h₁
        cases (pure_ok h₂).1
  split at h
  · unfold updates at h
    split at h
    · obtain ⟨evs, c₁, _, h₁⟩ := bind_ok h
      cases (pure_ok h₁).1
    · cases h
    · exact (pure_ok h).2
  split at h
  · obtain ⟨evs, c₁, _, h₁⟩ := bind_ok h
    cases (pure_ok h₁).1
  · exact (pure_ok h).2

theorem streamed_eq (h : split chunk = .ok (ns, "messages", .message container msg md)) :
    chunk.streamed = some (ns, msg, md) := by
  rw [Chunk.streamed, h]
  rfl

theorem dispatch_sound (hs : split chunk = .ok (ns, mode, payload)) (hw : ctx.Wf)
    (hf : chunk.Fresh ctx) (h : dispatch ns mode payload ctx = .ok (some evs) ctx') :
    Sound (ctx.ownerOf chunk.owner) ctx evs ctx' := by
  have ha := agrees_ownerOf ctx chunk.owner
  unfold dispatch at h
  split at h
  next hm =>
    subst hm
    cases payload with
    | data v => cases (messages_data h).1
    | message container msg md =>
      have he := streamed_eq hs
      rw [Chunk.Fresh, he] at hf
      have ho : chunk.owner = messageOwner ns md := by rw [Chunk.owner, he]
      refine messages_sound hw ha hf (fun m hm => ?_) h
      rw [ownerOf_new _ hm, ho]
  split at h
  · exact updates_sound hw ha h
  split at h
  · obtain ⟨evs, c₁, h₁, h₂⟩ := bind_ok h
    obtain ⟨he, rfl⟩ := pure_ok h₂
    cases he
    exact custom_sound hw ha payload _ _ h₁
  · cases (pure_ok h).1

theorem translate_sound (hw : ctx.Wf) (hf : chunk.Fresh ctx) :
    SoundAt (ctx.ownerOf chunk.owner) ctx (translate chunk) := by
  have ha := agrees_ownerOf ctx chunk.owner
  intro evs ctx' h
  cases hs : split chunk with
  | error v =>
    rw [translate, hs] at h
    exact (raw_plain _ _ _).soundAt hw ha _ _ h
  | ok p =>
    obtain ⟨ns, mode, payload⟩ := p
    rw [translate, hs] at h
    obtain ⟨r, c₁, h₁, h₂⟩ := bind_ok h
    cases r with
    | none =>
      rw [dispatch_none h₁] at h₂
      exact (raw_plain _ _ _).soundAt hw ha _ _ h₂
    | some evs =>
      obtain ⟨rfl, rfl⟩ := pure_ok h₂
      exact dispatch_sound hs hw hf h₁

theorem fresh_of_streamed (h : ¬ chunk.Fresh ctx) : ∃ ns container id content tcs pos fin md,
    split chunk = .ok (ns, "messages", .message container (.aiChunk id content tcs pos fin) md) ∧
      ¬ FreshIds ctx (messageOwner ns md) id content tcs := by
  unfold Chunk.Fresh Chunk.streamed at h
  split at h
  next ns msg md he =>
    split at he
    next ns' mode container msg' md' hs =>
      split at he
      next hm =>
        cases he
        cases msg with
        | aiChunk id content tcs pos fin =>
          exact ⟨ns, container, id, content, tcs, pos, fin, md, hm ▸ hs, h⟩
        | _ => exact (h trivial).elim
      next => cases he
    next => cases he
  next => exact (h trivial).elim

theorem translate_collides (hw : ctx.Wf) (hf : ¬ chunk.Fresh ctx)
    (h : translate chunk ctx = .ok evs ctx') :
    Mark.run ctx.toolIds (evs.filterMap toolMark) = none := by
  obtain ⟨ns, container, id, content, tcs, pos, fin, md, hs, hn⟩ := fresh_of_streamed hf
  rw [translate, hs] at h
  obtain ⟨r, c₁, h₁, h₂⟩ := bind_ok h
  rw [dispatch, if_pos rfl] at h₁
  obtain ⟨node, c₂, h₃, h₄⟩ := bind_ok h₁
  obtain ⟨hnode, rfl⟩ := liftPy_ok h₃
  obtain ⟨evs', c₃, h₅, h₆⟩ := bind_ok h₄
  obtain ⟨rfl, rfl⟩ := pure_ok h₆
  obtain ⟨rfl, rfl⟩ := pure_ok h₂
  have ho : messageOwner ns md = owner ns node := by rw [messageOwner, hnode]
  rw [ho] at hn
  exact aiChunk_collides hw (agrees_ownerOf _ _) (fun m hm => ownerOf_new _ hm) hn h₅

/-! Closing the run. -/

theorem closeMessages_keys (ctx : AgUiContext) (m : String) :
    m ∉ (closeMessages ctx ctx.openMessages.keys).2.openMessages := by
  rw [← Dict.get?_eq_none, get?_closeMessages]
  by_cases h : m ∈ ctx.openMessages
  · rw [if_pos (Dict.mem_iff_keys.1 h)]
  · rw [if_neg (fun hk => h (Dict.mem_iff_keys.2 hk)), Dict.get?_eq_none.2 h]

theorem closeTools_brackets (ctx : AgUiContext) (τ : String → Owner) :
    Brackets τ ctx (ctx.openToolCalls.keys.map Event.toolCallEnd)
      { ctx with openToolCalls := ∅ } := by
  refine .ofTool (kind_toolEnds _) rfl rfl ?_
  rw [filterMap_toolEnds]
  exact Mark.run_drain ctx.openToolCalls.nodup

theorem closeSubagents_brackets (ctx : AgUiContext) (τ : String → Owner) :
    Brackets τ ctx (ctx.activeSubagents.keys.map incomplete)
      { ctx with activeSubagents := ∅ } := by
  refine .ofSubagent (fun e he => ?_) rfl rfl ?_
  · obtain ⟨s, _, rfl⟩ := List.mem_map.1 he
    rfl
  have hm : (ctx.activeSubagents.keys.map incomplete).filterMap subagentMark =
      ctx.activeSubagents.keys.map Mark.closes := by
    rw [List.filterMap_map]
    exact congrFun (List.filterMap_eq_map (f := Mark.closes)) _
  rw [hm]
  exact Mark.run_drain ctx.activeSubagents.nodup

structure AgUiContext.Idle (ctx : AgUiContext) : Prop where
  text : ctx.openText = ∅
  tools : ctx.toolIds = ∅
  subagents : ctx.subagentIds = ∅

theorem closeAll_idle (hw : ctx.Wf) : (closeAll ctx).2.Idle := by
  refine ⟨?_, rfl, rfl⟩
  have ha : ctx.Agrees (ctx.ownerOf none) := agrees_ownerOf ctx none
  rw [Finset.eq_empty_iff_forall_notMem]
  intro m hm
  exact closeMessages_keys ctx m
    ((closeMessages_sound hw ha ctx.openMessages.keys).wf.text_open m hm)

theorem closeAll_brackets (hw : ctx.Wf) (ha : ctx.Agrees τ) :
    Brackets τ ctx (closeAll ctx).1 (closeAll ctx).2 := by
  have hm := (closeMessages_sound hw ha ctx.openMessages.keys).brackets
  exact (hm.trans (closeTools_brackets _ τ)).trans (closeSubagents_brackets _ τ)

theorem usage_plain (ctx : AgUiContext) (summary : Option UsageWire) :
    ∀ e ∈ (usage ctx summary).1, e.kind = .plain := by
  unfold usage
  split
  · simp
  · split <;> simp [Event.kind]

inductive Ending where
  | finish (summary : Option UsageWire) (result : Option Py)
  | error (code message : String) (summary : Option UsageWire)

def Ending.events : Ending → Tr (List Event)
  | .finish summary result => finishRun summary result
  | .error code message summary => errorRun code message summary

theorem ending_ok (hw : ctx.Wf) (ha : ctx.Agrees τ) (h : Ending.events ending ctx = .ok evs ctx') :
    ∃ init last ctx₁, evs = init ++ [last] ∧ last.terminal = true ∧ Brackets τ ctx init ctx₁ ∧
      ctx₁.Idle := by
  have hb := closeAll_brackets hw ha
  have hu : ∀ summary, Brackets τ ctx ((closeAll ctx).1 ++ (usage (closeAll ctx).2 summary).1)
      (closeAll ctx).2 := fun summary =>
    hb.trans ((SameOpen.refl _).brackets (usage_plain _ summary))
  cases ending with
  | finish summary result =>
    obtain ⟨closed, c₁, hc, h₁⟩ := bind_ok h
    obtain ⟨rfl, rfl⟩ := emit_ok hc
    obtain ⟨c, c₂, hg, h₂⟩ := bind_ok h₁
    obtain ⟨rfl, rfl⟩ := get_ok hg
    obtain ⟨result', c₃, hr, h₃⟩ := bind_ok h₂
    obtain ⟨rfl, rfl⟩ := pure_ok h₃
    exact ⟨_, _, _, rfl, rfl, hu summary, closeAll_idle hw⟩
  | error code message summary =>
    obtain ⟨closed, c₁, hc, h₁⟩ := bind_ok h
    obtain ⟨rfl, rfl⟩ := emit_ok hc
    obtain ⟨c, c₂, hg, h₂⟩ := bind_ok h₁
    obtain ⟨rfl, rfl⟩ := get_ok hg
    obtain ⟨rfl, rfl⟩ := pure_ok h₂
    exact ⟨_, _, _, rfl, rfl, hu summary, closeAll_idle hw⟩

/-! Whole runs. -/

/-- An event a client receives, with the owner of the text message it is about. -/
structure Sent where
  event : Event
  owner : Owner

def Event.textId : Event → Option String
  | .textMessageStart m | .textMessageContent m _ | .textMessageEnd m => some m
  | _ => none

def AgUiContext.send (ctx : AgUiContext) (own : Owner) (e : Event) : Sent :=
  ⟨e, e.textId.bind (ctx.ownerOf own)⟩

def Sent.ownerMark (s : Sent) : Option (Mark Owner) := Events.ownerMark (fun _ => s.owner) s.event

def sending (own : Owner) (x : Tr (List Event)) : Tr (List Sent) := do
  let ctx ← get
  let evs ← x
  return evs.map (ctx.send own)

def stream : List Chunk → Tr (List Sent)
  | [] => pure []
  | chunk :: chunks => do
    let first ← sending chunk.owner (translate chunk)
    let rest ← stream chunks
    return first ++ rest

/-- `start_run`, then every chunk, then `finish_run` or `error_run`. -/
def aguiRun (initialState : Py) (input : Option Py) (chunks : List Chunk) (ending : Ending) :
    Tr (List Sent) := do
  let started ← sending none (startRun initialState input)
  let streamed ← stream chunks
  let ended ← sending none ending.events
  return started ++ streamed ++ ended

/-- The options a host creates the context of a run with. -/
structure Host where
  runId : String
  threadId : String
  includeStateDeltas : Bool := true
  includeUsage : Bool := true
  includeMetadata : Bool := true
  parentRunId : Option String := none
  stateKeys : List String := defaultStateKeys

def Host.context (host : Host) : AgUiContext :=
  { runId := host.runId
    threadId := host.threadId
    includeStateDeltas := host.includeStateDeltas
    includeUsage := host.includeUsage
    includeMetadata := host.includeMetadata
    parentRunId := host.parentRunId
    stateKeys := host.stateKeys }

/-- What a client may rely on in the events of a whole run. -/
structure WellBracketed (ss : List Sent) : Prop where
  text : Mark.Balanced (ss.filterMap fun s => textMark s.event)
  tool : Mark.Balanced (ss.filterMap fun s => toolMark s.event)
  subagent : Mark.Balanced (ss.filterMap fun s => subagentMark s.event)
  step : Mark.Nested (ss.filterMap fun s => stepMark s.event)
  owner : Mark.Balanced (ss.filterMap Sent.ownerMark)
  terminal : ∃ init last, ss = init ++ [last] ∧ last.event.terminal = true ∧
    ∀ s ∈ init, s.event.terminal = false

def FreshStream (ctx : AgUiContext) : List Chunk → Prop
  | [] => True
  | chunk :: chunks => chunk.Fresh ctx ∧ FreshStream (toAguiEvents chunk ctx).2 chunks

def AgUiContext.owners (ctx : AgUiContext) : Finset Owner := ctx.openText.image (ctx.ownerOf none)

theorem image_eq_owners {ctx : AgUiContext} (hw : ctx.Wf) (ha : ctx.Agrees τ) :
    ctx.openText.image τ = ctx.owners := by
  refine Finset.image_congr fun m hm => ?_
  obtain ⟨o, ho⟩ := Dict.mem_iff_get?.1 (hw.text_open m hm)
  rw [ha m o ho, agrees_ownerOf ctx none m o ho]

/-- What a stretch of sent events does to the brackets a client has open. -/
structure Trace (ctx : AgUiContext) (ss : List Sent) (ctx' : AgUiContext) : Prop where
  text : Mark.run ctx.openText (ss.filterMap fun s => textMark s.event) = some ctx'.openText
  tool : Mark.run ctx.toolIds (ss.filterMap fun s => toolMark s.event) = some ctx'.toolIds
  subagent : Mark.run ctx.subagentIds (ss.filterMap fun s => subagentMark s.event) =
    some ctx'.subagentIds
  step : Mark.nest [] (ss.filterMap fun s => stepMark s.event) = some []
  owner : Mark.run ctx.owners (ss.filterMap Sent.ownerMark) = some ctx'.owners
  live : ∀ s ∈ ss, s.event.terminal = false

theorem Trace.trans (h : Trace ctx xs ctx₁) (h' : Trace ctx₁ ys ctx₂) :
    Trace ctx (xs ++ ys) ctx₂ where
  text := by
    rw [List.filterMap_append]
    exact Mark.run_trans h.text h'.text
  tool := by
    rw [List.filterMap_append]
    exact Mark.run_trans h.tool h'.tool
  subagent := by
    rw [List.filterMap_append]
    exact Mark.run_trans h.subagent h'.subagent
  step := by
    rw [List.filterMap_append]
    exact Mark.nest_trans h.step h'.step
  owner := by
    rw [List.filterMap_append]
    exact Mark.run_trans h.owner h'.owner
  live := by
    intro s hs
    rcases List.mem_append.1 hs with hs | hs
    · exact h.live s hs
    · exact h'.live s hs

theorem filterMap_send {ctx : AgUiContext} (f : Event → Option (Mark κ)) (evs : List Event) :
    ((evs.map (ctx.send own)).filterMap fun s => f s.event) = evs.filterMap f := by
  rw [List.filterMap_map]
  rfl

theorem filterMap_send_owner {ctx : AgUiContext} (evs : List Event) :
    (evs.map (ctx.send own)).filterMap Sent.ownerMark =
      evs.filterMap (ownerMark (ctx.ownerOf own)) := by
  rw [List.filterMap_map]
  refine List.filterMap_congr fun e _ => ?_
  cases e <;> rfl

theorem Brackets.trace (h : Brackets (ctx.ownerOf own) ctx evs ctx') (hw : ctx.Wf)
    (hi : ctx'.openText.image (ctx.ownerOf own) = ctx'.owners) :
    Trace ctx (evs.map (ctx.send own)) ctx' where
  text := filterMap_send textMark evs ▸ h.text
  tool := filterMap_send toolMark evs ▸ h.tool
  subagent := filterMap_send subagentMark evs ▸ h.subagent
  step := filterMap_send stepMark evs ▸ h.step
  owner := by
    rw [filterMap_send_owner, ← hi, ← image_eq_owners hw (agrees_ownerOf ctx own)]
    exact h.owner
  live := by
    intro s hs
    obtain ⟨e, he, rfl⟩ := List.mem_map.1 hs
    exact h.live e he

theorem Sound.trace (h : Sound (ctx.ownerOf own) ctx evs ctx') (hw : ctx.Wf) :
    Trace ctx (evs.map (ctx.send own)) ctx' :=
  h.brackets.trace hw (image_eq_owners h.wf h.agrees)

theorem sending_ok (h : sending own x ctx = .ok ss ctx') :
    ∃ evs, x ctx = .ok evs ctx' ∧ ss = evs.map (ctx.send own) := by
  obtain ⟨c, c₁, h₁, h₂⟩ := bind_ok h
  obtain ⟨rfl, rfl⟩ := get_ok h₁
  obtain ⟨evs, c₂, h₃, h₄⟩ := bind_ok h₂
  obtain ⟨rfl, rfl⟩ := pure_ok h₄
  exact ⟨evs, h₃, rfl⟩

theorem swallow_ok (h : x ctx = .ok evs ctx') : swallow x ctx = (evs, ctx') := by
  rw [swallow, h]

theorem stream_trace (hw : ctx.Wf) (h : stream chunks ctx = .ok ss ctx') :
    (FreshStream ctx chunks → Trace ctx ss ctx' ∧ ctx'.Wf) ∧
      (¬ FreshStream ctx chunks →
        Mark.run ctx.toolIds (ss.filterMap fun s => toolMark s.event) = none) := by
  induction chunks generalizing ctx ss with
  | nil =>
    obtain ⟨rfl, rfl⟩ := pure_ok h
    exact ⟨fun _ => ⟨⟨rfl, rfl, rfl, rfl, rfl, by simp⟩, hw⟩, fun hf => (hf trivial).elim⟩
  | cons chunk chunks ih =>
    obtain ⟨first, c₁, h₁, h₂⟩ := bind_ok h
    obtain ⟨rest, c₂, h₃, h₄⟩ := bind_ok h₂
    obtain ⟨rfl, rfl⟩ := pure_ok h₄
    obtain ⟨evs, he, rfl⟩ := sending_ok h₁
    have hc : (toAguiEvents chunk ctx).2 = c₁ := congrArg Prod.snd (swallow_ok he)
    rw [FreshStream, hc]
    by_cases hf : chunk.Fresh ctx
    · have hs := translate_sound hw hf _ _ he
      have hi := ih hs.wf h₃
      refine ⟨fun hr => ?_, fun hr => ?_⟩
      · exact ⟨(hs.trace hw).trans (hi.1 hr.2).1, (hi.1 hr.2).2⟩
      · rw [List.filterMap_append]
        exact Mark.run_fail (hs.trace hw).tool (hi.2 fun hk => hr ⟨hf, hk⟩)
    · refine ⟨fun hr => (hf hr.1).elim, fun _ => ?_⟩
      rw [List.filterMap_append, filterMap_send]
      exact Mark.run_none_append (translate_collides hw hf he) _

theorem context_wf (host : Host) : host.context.Wf :=
  ⟨fun m hm => (Finset.notMem_empty m hm).elim, fun m n o hm => by cases hm⟩

theorem startRun_plain (initialState : Py) (input : Option Py) :
    Plain (startRun initialState input) := by
  intro ctx evs ctx' h
  obtain ⟨c, c₁, h₁, h₂⟩ := bind_ok h
  obtain ⟨rfl, rfl⟩ := get_ok h₁
  obtain ⟨input', c₂, h₃, h₄⟩ := bind_ok h₂
  obtain ⟨view, c₃, h₅, h₆⟩ := bind_ok h₄
  obtain ⟨_, rfl⟩ := liftPy_ok h₅
  obtain ⟨_, c₄, h₇, h₈⟩ := bind_ok h₆
  obtain ⟨_, c₅, h₉, h₁₀⟩ := bind_ok h₈
  obtain ⟨rfl, rfl⟩ := pure_ok h₁₀
  have hs := Quiet.safeOption input _ _ _ h₃
  have hm := rememberMetadata_quiet initialState _ _ _ h₉
  have hv : SameOpen c₃ c₄ := by
    rw [modify_ok h₇]
    exact ⟨rfl, rfl, rfl, rfl⟩
  refine ⟨hs.trans (hv.trans hm), ?_⟩
  split <;> simp [Event.kind]

theorem aguiRun_ok (h : aguiRun initialState input chunks ending ctx = .ok ss ctx') :
    ∃ started ctx₁ streamed ctx₂ ended, startRun initialState input ctx = .ok started ctx₁ ∧
      stream chunks ctx₁ = .ok streamed ctx₂ ∧ ending.events ctx₂ = .ok ended ctx' ∧
      ss = started.map (ctx.send none) ++ streamed ++ ended.map (ctx₂.send none) := by
  obtain ⟨s₁, ctx₁, h₁, h₂⟩ := bind_ok h
  obtain ⟨streamed, ctx₂, h₃, h₄⟩ := bind_ok h₂
  obtain ⟨s₂, ctx₃, h₅, h₆⟩ := bind_ok h₄
  obtain ⟨rfl, rfl⟩ := pure_ok h₆
  obtain ⟨started, hs, rfl⟩ := sending_ok h₁
  obtain ⟨ended, he, rfl⟩ := sending_ok h₅
  exact ⟨started, ctx₁, streamed, ctx₂, ended, hs, h₃, he, rfl⟩

def hostStream (ctx : AgUiContext) : List Chunk → List Event × AgUiContext
  | [] => ([], ctx)
  | chunk :: chunks =>
    let first := toAguiEvents chunk ctx
    let rest := hostStream first.2 chunks
    (first.1 ++ rest.1, rest.2)

def hostRun (initialState : Py) (input : Option Py) (chunks : List Chunk) (ending : Ending)
    (ctx : AgUiContext) : List Event :=
  let started := swallow (startRun initialState input) ctx
  let streamed := hostStream started.2 chunks
  started.1 ++ streamed.1 ++ (swallow ending.events streamed.2).1

theorem map_send (ctx : AgUiContext) (own : Owner) (evs : List Event) :
    (evs.map (ctx.send own)).map Sent.event = evs := by
  rw [List.map_map]
  exact List.map_id evs

theorem hostStream_eq (h : stream chunks ctx = .ok ss ctx') :
    hostStream ctx chunks = (ss.map Sent.event, ctx') := by
  induction chunks generalizing ctx ss with
  | nil =>
    obtain ⟨rfl, rfl⟩ := pure_ok h
    rfl
  | cons chunk chunks ih =>
    obtain ⟨first, c₁, h₁, h₂⟩ := bind_ok h
    obtain ⟨rest, c₂, h₃, h₄⟩ := bind_ok h₂
    obtain ⟨rfl, rfl⟩ := pure_ok h₄
    obtain ⟨evs, he, rfl⟩ := sending_ok h₁
    have hc : toAguiEvents chunk ctx = (evs, c₁) := swallow_ok he
    simp only [hostStream, hc, ih h₃, List.map_append, map_send]

theorem hostRun_eq (h : aguiRun initialState input chunks ending ctx = .ok ss ctx') :
    hostRun initialState input chunks ending ctx = ss.map Sent.event := by
  obtain ⟨started, ctx₁, streamed, ctx₂, ended, h₁, h₂, h₃, rfl⟩ := aguiRun_ok h
  simp only [hostRun, swallow_ok h₁, hostStream_eq h₂, swallow_ok h₃, List.map_append, map_send]

theorem filterMap_last {f : Sent → Option (Mark κ)} (hf : f last = none) (init : List Sent) :
    (init ++ [last]).filterMap f = init.filterMap f := by
  rw [List.filterMap_append, List.filterMap_cons_none hf, List.filterMap_nil, List.append_nil]

theorem Sent.ownerMark_terminal {s : Sent} (h : s.event.terminal = true) : s.ownerMark = none := by
  apply Events.ownerMark_none
  rw [terminal_iff_kind.1 h]
  decide

theorem Trace.wellBracketed (h : Trace ctx init ctx') (hi : ctx.Idle) (hi' : ctx'.Idle)
    (hl : last.event.terminal = true) : WellBracketed (init ++ [last]) := by
  have hk : ∀ k, k ≠ Kind.terminal → last.event.kind ≠ k := fun _ hk he =>
    hk (he.symm.trans (terminal_iff_kind.1 hl))
  refine ⟨?_, ?_, ?_, ?_, ?_, init, last, rfl, hl, h.live⟩
  · rw [filterMap_last (textMark_none (hk .text (by decide))), Mark.Balanced, ← hi.text]
    exact h.text.trans (congrArg some (hi'.text.trans hi.text.symm))
  · rw [filterMap_last (toolMark_none (hk .tool (by decide))), Mark.Balanced, ← hi.tools]
    exact h.tool.trans (congrArg some (hi'.tools.trans hi.tools.symm))
  · rw [filterMap_last (subagentMark_none (hk .subagent (by decide))), Mark.Balanced,
      ← hi.subagents]
    exact h.subagent.trans (congrArg some (hi'.subagents.trans hi.subagents.symm))
  · rw [filterMap_last (stepMark_none (hk .step (by decide)))]
    exact h.step
  · have ho : ∀ {c : AgUiContext}, c.Idle → c.owners = ∅ := fun hc => by
      rw [AgUiContext.owners, hc.text, Finset.image_empty]
    rw [filterMap_last (Sent.ownerMark_terminal hl), Mark.Balanced, ← ho hi]
    exact h.owner.trans (congrArg some ((ho hi').trans (ho hi).symm))

theorem context_idle (host : Host) : host.context.Idle := ⟨rfl, rfl, rfl⟩

theorem started_trace (h : startRun initialState input ctx = .ok evs ctx') (hw : ctx.Wf) :
    Trace ctx (evs.map (ctx.send none)) ctx' ∧ ctx'.Wf := by
  have hs := (startRun_plain initialState input).soundAt hw (agrees_ownerOf ctx none) _ _ h
  exact ⟨hs.trace hw, hs.wf⟩

/-- The events of a run that raises nothing are well bracketed exactly when no anonymous tool-call
chunk is given the id of an open tool call. -/
theorem aguiRun_wellBracketed (host : Host) (initialState : Py) (input : Option Py)
    (chunks : List Chunk) (ending : Ending)
    (h : aguiRun initialState input chunks ending host.context = .ok ss ctx') :
    WellBracketed ss ↔
      FreshStream (swallow (startRun initialState input) host.context).2 chunks := by
  obtain ⟨started, ctx₁, streamed, ctx₂, ended, h₁, h₂, h₃, rfl⟩ := aguiRun_ok h
  rw [swallow_ok h₁]
  obtain ⟨hs, hw⟩ := started_trace h₁ (context_wf host)
  obtain ⟨hfresh, hcollide⟩ := stream_trace hw h₂
  constructor
  · intro hb
    by_contra hf
    have hnone := Mark.run_fail hs.tool (hcollide hf)
    have htool := hb.tool
    rw [List.filterMap_append, List.filterMap_append, Mark.Balanced, ← (context_idle host).tools,
      Mark.run_none_append hnone] at htool
    cases htool
  · intro hf
    obtain ⟨ht, hw₂⟩ := hfresh hf
    obtain ⟨init, last, ctx₃, rfl, hl, hb, hi⟩ := ending_ok hw₂ (agrees_ownerOf ctx₂ none) h₃
    have hend : ctx₃.openText.image (ctx₂.ownerOf none) = ctx₃.owners := by
      rw [AgUiContext.owners, hi.text, Finset.image_empty, Finset.image_empty]
    rw [List.map_append, ← List.append_assoc]
    exact ((hs.trans ht).trans (hb.trace hw₂ hend)).wellBracketed (context_idle host) hi hl

def toolStream (cid : String) : Chunk :=
  .pair "messages" (.message "tuple"
    (.aiChunk (some "m") (.str "hi") [⟨some cid, some "search", some "[", some 0⟩,
      ⟨none, some "search", some "[]", some 1⟩] none .none) (.dict []))

theorem aguiRun_wellBracketed_toolStream : ∃ ss ctx',
    aguiRun (.dict []) none [toolStream "call-7"] (.finish none none)
      ({ runId := "r", threadId := "t" } : Host).context = .ok ss ctx' ∧ WellBracketed ss :=
  ⟨_, _, rfl, (aguiRun_wellBracketed { runId := "r", threadId := "t" } (.dict []) none
    [toolStream "call-7"] (.finish none none) rfl).2 ⟨by decide, trivial⟩⟩

/-- A provider id of the translator's own form is opened a second time. -/
theorem aguiRun_collision : ∃ ss ctx',
    aguiRun (.dict []) none [toolStream "r-tool-1"] (.finish none none)
      ({ runId := "r", threadId := "t" } : Host).context = .ok ss ctx' ∧ ¬ WellBracketed ss :=
  ⟨_, _, rfl, fun h => absurd h.tool (by decide)⟩

end Prismal.Events
