import Prismal.Events.Translator
import Prismal.Lib.Marks

namespace Prismal.Events
open Prismal.Lib
set_option autoImplicit true

def textMark : Event → Option (Mark String)
  | .textMessageStart m => some (.opens m)
  | .textMessageContent m _ => some (.uses m)
  | .textMessageEnd m => some (.closes m)
  | _ => none

def toolMark : Event → Option (Mark String)
  | .toolCallStart c _ _ => some (.opens c)
  | .toolCallArgs c _ => some (.uses c)
  | .toolCallEnd c => some (.closes c)
  | _ => none

def subagentMark : Event → Option (Mark String)
  | .subagentStarted s _ _ _ _ _ => some (.opens s)
  | .subagentFinished s _ => some (.closes s)
  | .subagentError s _ _ => some (.closes s)
  | _ => none

def stepMark : Event → Option (Mark String)
  | .stepStarted n => some (.opens n)
  | .stepFinished n => some (.closes n)
  | _ => none

def ownerMark (τ : String → Owner) : Event → Option (Mark Owner)
  | .textMessageStart m => some (.opens (τ m))
  | .textMessageContent m _ => some (.uses (τ m))
  | .textMessageEnd m => some (.closes (τ m))
  | _ => none

def Event.terminal : Event → Bool
  | .runFinished .. | .runError .. => true
  | _ => false

namespace AgUiContext

def toolIds (ctx : AgUiContext) : Finset String := ctx.openToolCalls.keys.toFinset

def subagentIds (ctx : AgUiContext) : Finset String := ctx.activeSubagents.keys.toFinset

theorem mem_toolIds {ctx : AgUiContext} : c ∈ ctx.toolIds ↔ c ∈ ctx.openToolCalls :=
  List.mem_toFinset

theorem mem_subagentIds {ctx : AgUiContext} : c ∈ ctx.subagentIds ↔ c ∈ ctx.activeSubagents :=
  List.mem_toFinset

/-- Open texts belong to open messages, and no owner has two open messages. -/
structure Wf (ctx : AgUiContext) : Prop where
  text_open : ∀ m ∈ ctx.openText, m ∈ ctx.openMessages
  owner_inj : ∀ m n o, ctx.openMessages.get? m = some o → ctx.openMessages.get? n = some o → m = n

/-- `τ` gives every open message the owner the context records for it. -/
def Agrees (τ : String → Owner) (ctx : AgUiContext) : Prop :=
  ∀ m o, ctx.openMessages.get? m = some o → τ m = o

theorem Wf.eq_of_owner {ctx : AgUiContext} (hw : ctx.Wf) (ha : ctx.Agrees τ)
    (hm : m ∈ ctx.openMessages) (hn : n ∈ ctx.openMessages) (h : τ m = τ n) : m = n := by
  obtain ⟨o, ho⟩ := Dict.mem_iff_get?.1 hm
  obtain ⟨p, hp⟩ := Dict.mem_iff_get?.1 hn
  have he : o = p := (ha m o ho).symm.trans (h.trans (ha n p hp))
  exact hw.owner_inj m n o ho (he ▸ hp)

theorem Wf.not_mem_owners {ctx : AgUiContext} (hw : ctx.Wf) (ha : ctx.Agrees τ)
    (hm : m ∈ ctx.openMessages) (ht : m ∉ ctx.openText) : τ m ∉ ctx.openText.image τ := by
  intro h
  obtain ⟨n, hn, he⟩ := Finset.mem_image.1 h
  exact ht (hw.eq_of_owner ha (hw.text_open n hn) hm he ▸ hn)

theorem Wf.image_erase {ctx : AgUiContext} (hw : ctx.Wf) (ha : ctx.Agrees τ)
    (ht : m ∈ ctx.openText) :
    (ctx.openText.image τ).erase (τ m) = (ctx.openText.erase m).image τ := by
  ext o
  simp only [Finset.mem_erase, Finset.mem_image]
  constructor
  · rintro ⟨ho, n, hn, rfl⟩
    exact ⟨n, ⟨fun he => ho (he ▸ rfl), hn⟩, rfl⟩
  · rintro ⟨n, ⟨hne, hn⟩, rfl⟩
    exact ⟨fun he => hne (hw.eq_of_owner ha (hw.text_open n hn) (hw.text_open m ht) he), n, hn, rfl⟩

end AgUiContext

open AgUiContext

/-- What a stretch of events does to the brackets a client has open. -/
structure Brackets (τ : String → Owner) (ctx : AgUiContext) (evs : List Event)
    (ctx' : AgUiContext) : Prop where
  text : Mark.run ctx.openText (evs.filterMap textMark) = some ctx'.openText
  tool : Mark.run ctx.toolIds (evs.filterMap toolMark) = some ctx'.toolIds
  subagent : Mark.run ctx.subagentIds (evs.filterMap subagentMark) = some ctx'.subagentIds
  step : Mark.nest [] (evs.filterMap stepMark) = some []
  owner : Mark.run (ctx.openText.image τ) (evs.filterMap (ownerMark τ)) =
    some (ctx'.openText.image τ)
  live : ∀ e ∈ evs, e.terminal = false

theorem Brackets.trans (h : Brackets τ ctx xs ctx₁) (h' : Brackets τ ctx₁ ys ctx₂) :
    Brackets τ ctx (xs ++ ys) ctx₂ where
  text := by
    rw [List.filterMap_append]
    exact Mark.run_trans h.text h'.text
  tool := by
    rw [List.filterMap_append]
    exact Mark.run_trans h.tool h'.tool
  subagent := by
    rw [List.filterMap_append]
    exact Mark.run_trans h.subagent h'.subagent
  step := by
    rw [List.filterMap_append]
    exact Mark.nest_trans h.step h'.step
  owner := by
    rw [List.filterMap_append]
    exact Mark.run_trans h.owner h'.owner
  live := by
    intro e he
    rcases List.mem_append.1 he with he | he
    · exact h.live e he
    · exact h'.live e he

/-- From a well-formed context, the events bracket correctly and the result is well formed. -/
structure Sound (τ : String → Owner) (ctx : AgUiContext) (evs : List Event)
    (ctx' : AgUiContext) : Prop where
  brackets : Brackets τ ctx evs ctx'
  wf : ctx'.Wf
  agrees : ctx'.Agrees τ

/-- The bracket state of two contexts is the same. -/
structure SameOpen (ctx ctx' : AgUiContext) : Prop where
  messages : ctx'.openMessages = ctx.openMessages
  text : ctx'.openText = ctx.openText
  tools : ctx'.openToolCalls = ctx.openToolCalls
  subagents : ctx'.activeSubagents = ctx.activeSubagents

theorem SameOpen.refl (ctx : AgUiContext) : SameOpen ctx ctx := ⟨rfl, rfl, rfl, rfl⟩

theorem SameOpen.trans (h : SameOpen c₀ c₁) (h' : SameOpen c₁ c₂) : SameOpen c₀ c₂ :=
  ⟨h'.messages.trans h.messages, h'.text.trans h.text, h'.tools.trans h.tools,
    h'.subagents.trans h.subagents⟩

theorem SameOpen.wf (h : SameOpen ctx ctx') (hw : ctx.Wf) : ctx'.Wf where
  text_open := by
    rw [h.text, h.messages]
    exact hw.text_open
  owner_inj := by
    rw [h.messages]
    exact hw.owner_inj

theorem SameOpen.agrees (h : SameOpen ctx ctx') (ha : ctx.Agrees τ) : ctx'.Agrees τ := by
  unfold AgUiContext.Agrees
  rw [h.messages]
  exact ha

inductive Kind where
  | text
  | tool
  | subagent
  | step
  | terminal
  | plain
  deriving DecidableEq

def Event.kind : Event → Kind
  | .textMessageStart .. | .textMessageContent .. | .textMessageEnd .. => .text
  | .toolCallStart .. | .toolCallArgs .. | .toolCallEnd .. => .tool
  | .subagentStarted .. | .subagentFinished .. | .subagentError .. => .subagent
  | .stepStarted .. | .stepFinished .. => .step
  | .runFinished .. | .runError .. => .terminal
  | _ => .plain

theorem textMark_none (h : e.kind ≠ .text) : textMark e = none := by
  cases e <;> first | rfl | exact (h rfl).elim

theorem toolMark_none (h : e.kind ≠ .tool) : toolMark e = none := by
  cases e <;> first | rfl | exact (h rfl).elim

theorem subagentMark_none (h : e.kind ≠ .subagent) : subagentMark e = none := by
  cases e <;> first | rfl | exact (h rfl).elim

theorem stepMark_none (h : e.kind ≠ .step) : stepMark e = none := by
  cases e <;> first | rfl | exact (h rfl).elim

theorem ownerMark_none (h : e.kind ≠ .text) : ownerMark τ e = none := by
  cases e <;> first | rfl | exact (h rfl).elim

theorem terminal_iff_kind {e : Event} : e.terminal = true ↔ e.kind = .terminal := by
  cases e <;> simp [Event.terminal, Event.kind]

theorem filterMap_other {f : Event → Option (Mark κ)} {evs : List Event} {k l : Kind}
    (hf : ∀ {e : Event}, e.kind ≠ k → f e = none) (he : ∀ e ∈ evs, e.kind = l) (hkl : l ≠ k) :
    evs.filterMap f = [] :=
  List.filterMap_eq_nil_iff.2 fun e hm => hf ((he e hm).trans_ne hkl)

theorem run_other {f : Event → Option (Mark κ)} [DecidableEq κ] {evs : List Event} {k l : Kind}
    (hf : ∀ {e : Event}, e.kind ≠ k → f e = none) (he : ∀ e ∈ evs, e.kind = l) (hkl : l ≠ k)
    (s : Finset κ) : Mark.run s (evs.filterMap f) = some s := by
  rw [filterMap_other hf he hkl, Mark.run_nil]

theorem nest_other {evs : List Event} (he : ∀ e ∈ evs, e.kind = l) (hl : l ≠ .step) :
    Mark.nest [] (evs.filterMap stepMark) = some [] := by
  rw [filterMap_other stepMark_none he hl]
  rfl

theorem live_of_kind {evs : List Event} (he : ∀ e ∈ evs, e.kind = l) (hl : l ≠ .terminal) :
    ∀ e ∈ evs, e.terminal = false := by
  intro e hm
  rw [Bool.eq_false_iff]
  intro ht
  exact hl ((he e hm).symm.trans (terminal_iff_kind.1 ht))

theorem SameOpen.brackets (h : SameOpen ctx ctx') (hp : ∀ e ∈ evs, e.kind = .plain) :
    Brackets τ ctx evs ctx' where
  text := h.text ▸ run_other textMark_none hp (by decide) _
  tool := by
    rw [toolIds, toolIds, h.tools]
    exact run_other toolMark_none hp (by decide) _
  subagent := by
    rw [subagentIds, subagentIds, h.subagents]
    exact run_other subagentMark_none hp (by decide) _
  step := nest_other hp (by decide)
  owner := h.text ▸ run_other ownerMark_none hp (by decide) _
  live := live_of_kind hp (by decide)

theorem Brackets.ofText (he : ∀ e ∈ evs, e.kind = .text)
    (hc : ctx'.openToolCalls = ctx.openToolCalls) (hs : ctx'.activeSubagents = ctx.activeSubagents)
    (ht : Mark.run ctx.openText (evs.filterMap textMark) = some ctx'.openText)
    (ho : Mark.run (ctx.openText.image τ) (evs.filterMap (ownerMark τ)) =
      some (ctx'.openText.image τ)) : Brackets τ ctx evs ctx' where
  text := ht
  tool := by
    rw [toolIds, toolIds, hc]
    exact run_other toolMark_none he (by decide) _
  subagent := by
    rw [subagentIds, subagentIds, hs]
    exact run_other subagentMark_none he (by decide) _
  step := nest_other he (by decide)
  owner := ho
  live := live_of_kind he (by decide)

theorem Brackets.ofTool (he : ∀ e ∈ evs, e.kind = .tool)
    (hx : ctx'.openText = ctx.openText) (hs : ctx'.activeSubagents = ctx.activeSubagents)
    (ht : Mark.run ctx.toolIds (evs.filterMap toolMark) = some ctx'.toolIds) :
    Brackets τ ctx evs ctx' where
  text := hx ▸ run_other textMark_none he (by decide) _
  tool := ht
  subagent := by
    rw [subagentIds, subagentIds, hs]
    exact run_other subagentMark_none he (by decide) _
  step := nest_other he (by decide)
  owner := hx ▸ run_other ownerMark_none he (by decide) _
  live := live_of_kind he (by decide)

theorem Brackets.ofSubagent (he : ∀ e ∈ evs, e.kind = .subagent)
    (hx : ctx'.openText = ctx.openText) (hc : ctx'.openToolCalls = ctx.openToolCalls)
    (ht : Mark.run ctx.subagentIds (evs.filterMap subagentMark) = some ctx'.subagentIds) :
    Brackets τ ctx evs ctx' where
  text := hx ▸ run_other textMark_none he (by decide) _
  tool := by
    rw [toolIds, toolIds, hc]
    exact run_other toolMark_none he (by decide) _
  subagent := ht
  step := nest_other he (by decide)
  owner := hx ▸ run_other ownerMark_none he (by decide) _
  live := live_of_kind he (by decide)

theorem SameOpen.sound (h : SameOpen ctx ctx') (hw : ctx.Wf) (ha : ctx.Agrees τ)
    (hp : ∀ e ∈ evs, e.kind = .plain) : Sound τ ctx evs ctx' :=
  ⟨h.brackets hp, h.wf hw, h.agrees ha⟩

theorem SameOpen.skip (h : SameOpen ctx ctx') (hw : ctx.Wf) (ha : ctx.Agrees τ) :
    Sound τ ctx [] ctx' :=
  h.sound hw ha fun _ he => (List.not_mem_nil he).elim

theorem Sound.trans (h : Sound τ ctx xs ctx₁)
    (h' : ctx₁.Wf → ctx₁.Agrees τ → Sound τ ctx₁ ys ctx₂) :
    Sound τ ctx (xs ++ ys) ctx₂ :=
  have hs := h' h.wf h.agrees
  ⟨h.brackets.trans hs.brackets, hs.wf, hs.agrees⟩

/-! Closing messages. -/

theorem mem_toolCallsOf {ctx : AgUiContext} :
    c ∈ ctx.toolCallsOf m ↔ ctx.openToolCalls.get? c = some m := by
  rw [toolCallsOf, ← Dict.mem_iff_keys, Dict.mem_filter]
  simp

theorem toolIds_closeMessage (ctx : AgUiContext) (m : String) :
    (closeMessage ctx m).2.toolIds = ctx.toolIds \ (ctx.toolCallsOf m).toFinset := by
  ext c
  have hc : (closeMessage ctx m).2.openToolCalls =
      ctx.openToolCalls.filter fun e => !decide (e.2 = m) := rfl
  rw [Finset.mem_sdiff, mem_toolIds, mem_toolIds, List.mem_toFinset, mem_toolCallsOf, hc,
    Dict.mem_filter, Dict.mem_iff_get?]
  grind

theorem closeMessage_wf (hw : ctx.Wf) (m : String) : (closeMessage ctx m).2.Wf where
  text_open := by
    intro n hn
    have hn' := Finset.mem_erase.1 hn
    exact (Dict.mem_erase _).2 ⟨hn'.1, hw.text_open n hn'.2⟩
  owner_inj := by
    intro n p o hn hp
    simp only [closeMessage, Dict.get?_erase] at hn hp
    exact hw.owner_inj n p o (by grind) (by grind)

theorem closeMessage_agrees (ha : ctx.Agrees τ) (m : String) : (closeMessage ctx m).2.Agrees τ := by
  intro n o hn
  simp only [closeMessage, Dict.get?_erase] at hn
  exact ha n o (by grind)

theorem textEnd_brackets (hw : ctx.Wf) (ha : ctx.Agrees τ) (m : String) :
    Brackets τ ctx (if m ∈ ctx.openText then [Event.textMessageEnd m] else [])
      { ctx with openText := ctx.openText.erase m } := by
  by_cases ht : m ∈ ctx.openText
  · rw [if_pos ht]
    refine .ofText (by simp [Event.kind]) rfl rfl (Mark.run_closes ht) ?_
    rw [← hw.image_erase ha ht]
    exact Mark.run_closes (Finset.mem_image_of_mem τ ht)
  · rw [if_neg ht, Finset.erase_eq_of_notMem ht]
    exact (SameOpen.refl ctx).brackets (by simp)

theorem filterMap_toolEnds (cids : List String) :
    (cids.map Event.toolCallEnd).filterMap toolMark = cids.map Mark.closes := by
  rw [List.filterMap_map]
  exact congrFun (List.filterMap_eq_map (f := Mark.closes)) cids

theorem kind_toolEnds (cids : List String) : ∀ e ∈ cids.map Event.toolCallEnd, e.kind = .tool := by
  intro e he
  obtain ⟨c, _, rfl⟩ := List.mem_map.1 he
  rfl

theorem closeMessage_sound (hw : ctx.Wf) (ha : ctx.Agrees τ) (m : String) :
    Sound τ ctx (closeMessage ctx m).1 (closeMessage ctx m).2 := by
  refine ⟨(textEnd_brackets hw ha m).trans ?_, closeMessage_wf hw m, closeMessage_agrees ha m⟩
  refine .ofTool (kind_toolEnds _) rfl rfl ?_
  rw [filterMap_toolEnds, toolIds_closeMessage]
  apply Mark.run_closeAll (Dict.filter ctx.openToolCalls _).nodup
  intro c hc
  exact mem_toolIds.2 (Dict.mem_of_get? (mem_toolCallsOf.1 hc))

theorem closeMessages_sound (hw : ctx.Wf) (ha : ctx.Agrees τ) (ms : List String) :
    Sound τ ctx (closeMessages ctx ms).1 (closeMessages ctx ms).2 := by
  induction ms generalizing ctx with
  | nil => exact (SameOpen.refl ctx).skip hw ha
  | cons m ms ih => exact (closeMessage_sound hw ha m).trans fun hw' ha' => ih hw' ha'

theorem get?_closeMessages (ctx : AgUiContext) (ms : List String) :
    (closeMessages ctx ms).2.openMessages.get? n =
      if n ∈ ms then none else ctx.openMessages.get? n := by
  induction ms generalizing ctx with
  | nil => simp [closeMessages]
  | cons m ms ih =>
    simp only [closeMessages, ih, closeMessage, Dict.get?_erase, List.mem_cons]
    grind

theorem mem_messagesOf {ctx : AgUiContext} :
    m ∈ ctx.messagesOf own none ↔ ctx.openMessages.get? m = some own := by
  rw [messagesOf, ← Dict.mem_iff_keys, Dict.mem_filter]
  simp

theorem get?_closeOwner (ctx : AgUiContext) (own : Owner) :
    (closeOwner ctx own).2.openMessages.get? n =
      if ctx.openMessages.get? n = some own then none else ctx.openMessages.get? n := by
  rw [closeOwner, get?_closeMessages]
  simp only [mem_messagesOf]

theorem closeOwner_sound (hw : ctx.Wf) (ha : ctx.Agrees τ) (own : Owner) :
    Sound τ ctx (closeOwner ctx own).1 (closeOwner ctx own).2 :=
  closeMessages_sound hw ha _

/-! Opening and streaming messages. -/

theorem openMessage_sound (hw : ctx.Wf) (ha : ctx.Agrees τ)
    (hτ : m ∉ ctx.openMessages → τ m = own) :
    Sound τ ctx (openMessage ctx m own).1 (openMessage ctx m own).2 := by
  by_cases hm : m ∈ ctx.openMessages
  · rw [openMessage, if_pos hm]
    exact (SameOpen.refl ctx).skip hw ha
  · rw [openMessage, if_neg hm]
    have hc := closeOwner_sound hw ha own
    refine ⟨⟨hc.brackets.text, hc.brackets.tool, hc.brackets.subagent, hc.brackets.step,
      hc.brackets.owner, hc.brackets.live⟩, ?_, ?_⟩
    · refine ⟨fun n hn => (Dict.mem_set _).2 (.inr (hc.wf.text_open n hn)), ?_⟩
      intro n p o hn hp
      have hi := hc.wf.owner_inj n p o
      simp only [Dict.get?_set, get?_closeOwner] at hn hp hi
      grind
    · intro n o hn
      have hi := hc.agrees n o
      simp only [Dict.get?_set] at hn
      grind

theorem mem_openMessage (ctx : AgUiContext) (m : String) (own : Owner) :
    m ∈ (openMessage ctx m own).2.openMessages := by
  by_cases hm : m ∈ ctx.openMessages
  · rwa [openMessage, if_pos hm]
  · rw [openMessage, if_neg hm]
    exact (Dict.mem_set _).2 (.inl rfl)

theorem textChunk_sound (hw : ctx.Wf) (ha : ctx.Agrees τ) (hm : m ∈ ctx.openMessages)
    (text : String) : Sound τ ctx (textChunk ctx m text).1 (textChunk ctx m text).2 := by
  unfold textChunk
  split
  · exact (SameOpen.refl ctx).skip hw ha
  split
  next ht =>
    refine ⟨.ofText (by simp [Event.kind]) rfl rfl (Mark.run_uses ht) ?_, hw, ha⟩
    exact Mark.run_uses (Finset.mem_image_of_mem τ ht)
  next ht =>
    refine ⟨.ofText (by simp [Event.kind]) rfl rfl ?_ ?_, ?_, ha⟩
    · exact Mark.run_opens_uses ht
    · rw [Finset.image_insert]
      exact Mark.run_opens_uses (hw.not_mem_owners ha hm ht)
    · refine ⟨fun n hn => ?_, hw.owner_inj⟩
      rcases Finset.mem_insert.1 hn with rfl | hn
      · exact hm
      · exact hw.text_open n hn

theorem textChunk_openMessages (ctx : AgUiContext) (m text : String) :
    (textChunk ctx m text).2.openMessages = ctx.openMessages := by
  unfold textChunk
  split
  · rfl
  · split <;> rfl

theorem fullText_sound (hw : ctx.Wf) (ha : ctx.Agrees τ) (hm : m ∈ ctx.openMessages)
    (text : String) : Sound τ ctx (fullText ctx m text).1 (fullText ctx m text).2 := by
  unfold fullText
  split
  next ht =>
    have hb := textEnd_brackets hw ha m
    rw [if_pos ht] at hb
    exact ⟨hb, ⟨fun n hn => hw.text_open n (Finset.mem_of_mem_erase hn), hw.owner_inj⟩, ha⟩
  split
  · exact (SameOpen.refl ctx).skip hw ha
  next ht _ =>
    exact ⟨.ofText (by simp [Event.kind]) rfl rfl (Mark.run_opens_uses_closes ht)
      (Mark.run_opens_uses_closes (hw.not_mem_owners ha hm ht)), hw, ha⟩

/-! Tool calls. -/

theorem startTool_sound (hw : ctx.Wf) (ha : ctx.Agrees τ) (hc : cid ∉ ctx.openToolCalls)
    (mid name args : String) :
    Sound τ ctx (startTool ctx mid cid name args).1 (startTool ctx mid cid name args).2 := by
  have hn : cid ∉ ctx.toolIds := fun h => hc (mem_toolIds.1 h)
  have hi : (startTool ctx mid cid name args).2.toolIds = insert cid ctx.toolIds := by
    ext c
    rw [Finset.mem_insert, mem_toolIds, mem_toolIds]
    exact Dict.mem_set _
  refine ⟨.ofTool ?_ rfl rfl ?_, ⟨hw.text_open, hw.owner_inj⟩, ha⟩
  · intro e he
    simp only [startTool, List.mem_cons] at he
    split at he <;> simp at he
    · rw [he, Event.kind]
    · rcases he with he | he <;> rw [he, Event.kind]
  · rw [hi]
    simp only [startTool]
    split
    · exact Mark.run_opens hn
    · exact Mark.run_opens_uses hn

theorem startTool_reopens {ctx : AgUiContext} (hc : cid ∈ ctx.openToolCalls) (c' : AgUiContext)
    (mid name args : String) :
    Mark.run ctx.toolIds ((startTool c' mid cid name args).1.filterMap toolMark) = none :=
  Mark.run_reopens (mem_toolIds.2 hc) _

def Collides (ctx : AgUiContext) (mid : String) (tc : ToolCallChunk) : Prop :=
  ((nonEmpty tc.id).orElse fun _ => ctx.toolIndex.get? (mid, tc.index)) = none ∧
    ctx.freshId "tool" ∈ ctx.openToolCalls

instance : Decidable (Collides ctx mid tc) := by unfold Collides; infer_instance

theorem toolChunk_sound (hw : ctx.Wf) (ha : ctx.Agrees τ) (hf : ¬ Collides ctx mid tc) :
    Sound τ ctx (toolChunk ctx mid tc).1 (toolChunk ctx mid tc).2 := by
  simp only [toolChunk]
  split
  next hn =>
    have hc : ctx.freshId "tool" ∉ ctx.openToolCalls := fun h => hf ⟨hn, h⟩
    have hs : SameOpen ctx { ctx with
        seq := ctx.seq + 1
        toolIndex := ctx.toolIndex.set (mid, tc.index) (ctx.freshId "tool") } :=
          ⟨rfl, rfl, rfl, rfl⟩
    exact (hs.skip hw ha).trans fun hw' ha' =>
      startTool_sound hw' ha' hc _ _ _
  next cid _ =>
    split
    next hc =>
      refine ⟨.ofTool ?_ rfl rfl ?_, hw, ha⟩
      · split <;> simp [Event.kind]
      · split
        · rfl
        · exact Mark.run_uses (mem_toolIds.2 hc)
    next hc =>
      have hs : SameOpen ctx { ctx with
          toolIndex := ctx.toolIndex.set (mid, tc.index) cid } := ⟨rfl, rfl, rfl, rfl⟩
      exact (hs.skip hw ha).trans fun hw' ha' =>
        startTool_sound hw' ha' hc _ _ _

theorem toolChunk_collides (h : Collides ctx mid tc) :
    Mark.run ctx.toolIds ((toolChunk ctx mid tc).1.filterMap toolMark) = none := by
  unfold toolChunk
  rw [h.1]
  exact startTool_reopens h.2 _ _ _ _

/-- No entry of `tool_call_chunks` collides when its turn comes. -/
def FreshToolIds (ctx : AgUiContext) (mid : String) : List ToolCallChunk → Prop
  | [] => True
  | tc :: tcs => ¬ Collides ctx mid tc ∧ FreshToolIds (toolChunk ctx mid tc).2 mid tcs

instance decidableFreshToolIds (ctx : AgUiContext) (mid : String) :
    (tcs : List ToolCallChunk) → Decidable (FreshToolIds ctx mid tcs)
  | [] => .isTrue trivial
  | tc :: tcs =>
    have := decidableFreshToolIds (toolChunk ctx mid tc).2 mid tcs
    inferInstanceAs (Decidable (_ ∧ _))

theorem toolChunks_sound (hw : ctx.Wf) (ha : ctx.Agrees τ) (hf : FreshToolIds ctx mid tcs) :
    Sound τ ctx (toolChunks ctx mid tcs).1 (toolChunks ctx mid tcs).2 := by
  induction tcs generalizing ctx with
  | nil => exact (SameOpen.refl ctx).skip hw ha
  | cons tc tcs ih => exact (toolChunk_sound hw ha hf.1).trans fun hw' ha' => ih hw' ha' hf.2

theorem toolChunks_collides (hw : ctx.Wf) (ha : ctx.Agrees τ) (hf : ¬ FreshToolIds ctx mid tcs) :
    Mark.run ctx.toolIds ((toolChunks ctx mid tcs).1.filterMap toolMark) = none := by
  induction tcs generalizing ctx with
  | nil => exact (hf trivial).elim
  | cons tc tcs ih =>
    rw [toolChunks, List.filterMap_append]
    by_cases hc : Collides ctx mid tc
    · exact Mark.run_none_append (toolChunk_collides hc) _
    · have hs := toolChunk_sound hw ha hc
      exact Mark.run_fail hs.brackets.tool (ih hs.wf hs.agrees fun hr => hf ⟨hc, hr⟩)

theorem fullTool_sound (hw : ctx.Wf) (ha : ctx.Agrees τ) (hc : cid ∉ ctx.openToolCalls)
    (mid name args : String) :
    Sound τ ctx (fullTool ctx mid cid name args).1 (fullTool ctx mid cid name args).2 := by
  refine (startTool_sound hw ha hc mid name args).trans fun hw' ha' => ?_
  refine ⟨.ofTool (by simp [Event.kind]) rfl rfl ?_, ⟨hw'.text_open, hw'.owner_inj⟩, ha'⟩
  have hm : cid ∈ (startTool ctx mid cid name args).2.toolIds :=
    mem_toolIds.2 ((Dict.mem_set _).2 (.inl rfl))
  refine (Mark.run_closes hm).trans (congrArg some ?_)
  ext c
  rw [Finset.mem_erase, mem_toolIds, mem_toolIds]
  exact (Dict.mem_erase _).symm

theorem closeTool_sound (hw : ctx.Wf) (ha : ctx.Agrees τ) (cid : String) :
    Sound τ ctx (closeTool ctx cid).1 (closeTool ctx cid).2 := by
  unfold closeTool
  split
  next hc =>
    refine ⟨.ofTool (by simp [Event.kind]) rfl rfl ?_, ⟨hw.text_open, hw.owner_inj⟩, ha⟩
    refine (Mark.run_closes (mem_toolIds.2 hc)).trans (congrArg some ?_)
    ext c
    rw [Finset.mem_erase, mem_toolIds, mem_toolIds]
    exact (Dict.mem_erase _).symm
  · exact (SameOpen.refl ctx).skip hw ha

end Prismal.Events
