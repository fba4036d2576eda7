import Prismal.Events.Bracketing
import Prismal.Lib.State

namespace Prismal.Events
open Prismal.Lib AgUiContext
set_option autoImplicit true

theorem liftPy_ok {x : Except PyError α} (h : liftPy x ctx = .ok a ctx') :
    x = .ok a ∧ ctx' = ctx := by
  unfold liftPy at h
  split at h
  · cases h
    exact ⟨rfl, rfl⟩
  · cases h

theorem emit_ok (h : emit f ctx = .ok evs ctx') : evs = (f ctx).1 ∧ ctx' = (f ctx).2 := by
  cases h
  exact ⟨rfl, rfl⟩

def Quiet (x : Tr α) : Prop := ∀ ctx a ctx', x ctx = .ok a ctx' → SameOpen ctx ctx'

theorem Quiet.pure (a : α) : Quiet (pure a : Tr α) := by
  intro ctx b ctx' h
  rw [(pure_ok h).2]
  exact .refl ctx

theorem Quiet.liftPy (x : Except PyError α) : Quiet (liftPy x) := by
  intro ctx b ctx' h
  rw [(liftPy_ok h).2]
  exact .refl ctx

theorem Quiet.bind {x : Tr α} {f : α → Tr β} (hx : Quiet x) (hf : ∀ a, Quiet (f a)) :
    Quiet (x >>= f) := by
  intro ctx b ctx' h
  obtain ⟨a, ctx₁, h₁, h₂⟩ := bind_ok h
  exact (hx _ _ _ h₁).trans (hf a _ _ _ h₂)

theorem Quiet.modify {f : AgUiContext → AgUiContext} (hf : ∀ ctx, SameOpen ctx (f ctx)) :
    Quiet (modify f : Tr PUnit) := by
  intro ctx b ctx' h
  rw [modify_ok h]
  exact hf ctx

theorem Quiet.nextId (kind : String) : Quiet (nextId kind) := by
  intro ctx b ctx' h
  cases h
  exact ⟨rfl, rfl, rfl, rfl⟩

theorem toolCallId_quiet (id : Option String) : Quiet (toolCallId id) := by
  unfold toolCallId
  split
  · exact .pure _
  · exact .nextId _

theorem resultId_quiet (id : Option String) : Quiet (resultId id) := by
  unfold resultId
  split
  · exact .pure _
  · exact .nextId _

theorem Quiet.safeOption (v : Option Py) : Quiet (safeOption v) := by
  cases v with
  | none => exact .pure _
  | some v => exact (Quiet.liftPy _).bind fun _ => .pure _

theorem recordInterrupt_quiet (item : Py) : Quiet (recordInterrupt item) := by
  have hk : ∀ iid value, Quiet (do
      let entry ← Events.liftPy (interruptOf iid value)
      modify fun ctx => { ctx with interrupts := ctx.interrupts ++ [entry] }) := fun _ _ =>
    (Quiet.liftPy _).bind fun _ => .modify fun _ => ⟨rfl, rfl, rfl, rfl⟩
  unfold recordInterrupt
  dsimp only
  split
  · exact (Quiet.pure _).bind fun _ => hk _ _
  · exact (Quiet.nextId _).bind fun _ => hk _ _

theorem recordInterrupts_quiet (items : List Py) : Quiet (recordInterrupts items) := by
  induction items with
  | nil => exact .pure _
  | cons item items ih => exact (recordInterrupt_quiet item).bind fun _ => ih

theorem rememberKeys_quiet (md : Py) (keys : List (String × String)) :
    Quiet (rememberKeys md keys) := by
  induction keys with
  | nil => exact .pure _
  | cons key keys ih =>
    refine (Quiet.liftPy _).bind fun v => ?_
    cases v with
    | none => exact ih
    | some v =>
      refine (Quiet.liftPy _).bind fun _ => Quiet.bind (.modify fun _ => ?_) fun _ => ih
      exact ⟨rfl, rfl, rfl, rfl⟩

theorem rememberMetadata_quiet (state : Py) : Quiet (rememberMetadata state) := by
  refine (Quiet.liftPy _).bind fun md => ?_
  cases md with
  | none => exact .pure _
  | some md =>
    dsimp only
    split
    · exact rememberKeys_quiet md _
    · exact .pure _

def Plain (x : Tr (List Event)) : Prop :=
  ∀ ctx evs ctx', x ctx = .ok evs ctx' → SameOpen ctx ctx' ∧ ∀ e ∈ evs, e.kind = .plain

theorem Plain.pure (h : ∀ e ∈ evs, Event.kind e = .plain) : Plain (pure evs) := by
  intro ctx b ctx' hx
  obtain ⟨rfl, rfl⟩ := pure_ok hx
  exact ⟨.refl _, h⟩

theorem Plain.bind {x : Tr α} {f : α → Tr (List Event)} (hx : Quiet x) (hf : ∀ a, Plain (f a)) :
    Plain (x >>= f) := by
  intro ctx b ctx' h
  obtain ⟨a, ctx₁, h₁, h₂⟩ := bind_ok h
  obtain ⟨hs, hp⟩ := hf a _ _ _ h₂
  exact ⟨(hx _ _ _ h₁).trans hs, hp⟩

theorem Plain.append {x y : Tr (List Event)} (hx : Plain x) (hy : Plain y) :
    Plain (do
      let xs ← x
      let ys ← y
      return xs ++ ys) := by
  intro ctx b ctx' h
  obtain ⟨xs, ctx₁, h₁, h₂⟩ := bind_ok h
  obtain ⟨ys, ctx₂, h₃, h₄⟩ := bind_ok h₂
  obtain ⟨rfl, rfl⟩ := pure_ok h₄
  obtain ⟨hs, hp⟩ := hx _ _ _ h₁
  obtain ⟨hs', hp'⟩ := hy _ _ _ h₃
  exact ⟨hs.trans hs', fun e he => (List.mem_append.1 he).elim (hp e) (hp' e)⟩

theorem raw_plain (mode : String) (payload : Payload) (source : String) :
    Plain (raw mode payload source) := by
  cases payload with
  | message => exact .pure (by simp [Event.kind])
  | data v =>
    unfold raw
    dsimp only
    split
    · exact .bind (.liftPy _) fun _ => .pure (by simp [Event.kind])
    · exact .pure (by simp [Event.kind])

theorem metadataKey_plain (md : Py) (key name : String) : Plain (metadataKey md key name) := by
  refine .bind (.liftPy _) fun v => ?_
  cases v with
  | none => exact .pure (by simp)
  | some v =>
    refine .bind (.liftPy _) fun value => ?_
    cases value with
    | none => exact .pure (by simp)
    | some value =>
      intro ctx evs ctx' h
      obtain ⟨c, ctx₁, h₁, h₂⟩ := bind_ok h
      obtain ⟨rfl, rfl⟩ := get_ok h₁
      split at h₂
      · obtain ⟨rfl, rfl⟩ := pure_ok h₂
        exact ⟨.refl _, by simp⟩
      · obtain ⟨_, ctx₂, h₃, h₄⟩ := bind_ok h₂
        rw [set_ok h₃] at h₄
        obtain ⟨rfl, rfl⟩ := pure_ok h₄
        refine ⟨⟨rfl, rfl, rfl, rfl⟩, ?_⟩
        split <;> simp [Event.kind]

theorem metadataKeys_plain (md : Py) (keys : List (String × String)) :
    Plain (metadataKeys md keys) := by
  induction keys with
  | nil => exact .pure (by simp)
  | cons key keys ih => exact (metadataKey_plain md key.1 key.2).append ih

theorem metadataCustoms_plain (update : Py) : Plain (metadataCustoms update) := by
  refine .bind (.liftPy _) fun md => ?_
  cases md with
  | none => exact .pure (by simp)
  | some md =>
    dsimp only
    split
    · exact metadataKeys_plain md _
    · exact .pure (by simp)

theorem stateDelta_plain (update : Py) : Plain (stateDelta update) := by
  intro ctx evs ctx' h
  obtain ⟨c, ctx₁, h₁, h₂⟩ := bind_ok h
  obtain ⟨rfl, rfl⟩ := get_ok h₁
  obtain ⟨part, ctx₂, h₃, h₄⟩ := bind_ok h₂
  rw [(liftPy_ok h₃).2] at h₄
  obtain ⟨_, ctx₃, h₅, h₆⟩ := bind_ok h₄
  rw [set_ok h₅] at h₆
  split at h₆
  · obtain ⟨rfl, rfl⟩ := pure_ok h₆
    refine ⟨⟨rfl, rfl, rfl, rfl⟩, ?_⟩
    split <;> simp [Event.kind]
  · obtain ⟨rfl, rfl⟩ := pure_ok h₆
    exact ⟨⟨rfl, rfl, rfl, rfl⟩, by simp⟩

/-! The chunk handlers. -/

def SoundAt (τ : String → Owner) (ctx : AgUiContext) (x : Tr (List Event)) : Prop :=
  ∀ evs ctx', x ctx = .ok evs ctx' → Sound τ ctx evs ctx'

theorem Plain.soundAt (h : Plain x) (hw : ctx.Wf) (ha : ctx.Agrees τ) : SoundAt τ ctx x := by
  intro evs ctx' hx
  obtain ⟨hs, hp⟩ := h _ _ _ hx
  exact hs.sound hw ha hp

variable {id : Option String}

theorem messageId_same (h : messageId id own ctx = .ok mid ctx') : SameOpen ctx ctx' := by
  unfold messageId at h
  split at h
  · cases h
    exact .refl ctx
  · split at h
    · cases h
      exact .refl ctx
    · cases h
      exact ⟨rfl, rfl, rfl, rfl⟩

def FreshIds (ctx : AgUiContext) (own : Owner) (id : Option String) (content : Py)
    (tcs : List ToolCallChunk) : Prop :=
  match messageId id own ctx with
  | .ok mid ctx' =>
    FreshToolIds (textChunk (openMessage ctx' mid own).2 mid (textOf content)).2 mid tcs
  | .error _ _ => True

instance : Decidable (FreshIds ctx own id content tcs) := by
  unfold FreshIds
  split <;> infer_instance

theorem aiChunk_ok (h : aiChunk own id content tcs pos fin ctx = .ok evs ctx') :
    ∃ mid ctx₁ last, messageId id own ctx = .ok mid ctx₁ ∧
      let opened := openMessage ctx₁ mid own
      let text := textChunk opened.2 mid (textOf content)
      let tools := toolChunks text.2 mid tcs
      let closed := if last = true then closeMessage tools.2 mid else ([], tools.2)
      evs = opened.1 ++ text.1 ++ tools.1 ++ closed.1 ∧ ctx' = closed.2 := by
  obtain ⟨mid, ctx₁, hm, h₁⟩ := bind_ok h
  obtain ⟨opened, c₂, ho, h₂⟩ := bind_ok h₁
  obtain ⟨text, c₃, ht, h₃⟩ := bind_ok h₂
  obtain ⟨tools, c₄, hc, h₄⟩ := bind_ok h₃
  obtain ⟨last, c₅, hl, h₅⟩ := bind_ok h₄
  obtain ⟨closed, c₆, hd, h₆⟩ := bind_ok h₅
  obtain ⟨rfl, rfl⟩ := emit_ok ho
  obtain ⟨rfl, rfl⟩ := emit_ok ht
  obtain ⟨rfl, rfl⟩ := emit_ok hc
  obtain ⟨_, rfl⟩ := liftPy_ok hl
  obtain ⟨rfl, rfl⟩ := emit_ok hd
  obtain ⟨rfl, rfl⟩ := pure_ok h₆
  exact ⟨mid, ctx₁, last, hm, rfl, rfl⟩

theorem opening_sound (hw : ctx.Wf) (ha : ctx.Agrees τ)
    (hτ : ∀ m, m ∉ ctx.openMessages → τ m = own) (hm : messageId id own ctx = .ok mid ctx₁)
    (text : String) :
    Sound τ ctx
      ((openMessage ctx₁ mid own).1 ++ (textChunk (openMessage ctx₁ mid own).2 mid text).1)
      (textChunk (openMessage ctx₁ mid own).2 mid text).2 := by
  have hs := messageId_same hm
  refine (hs.skip hw ha).trans fun hw' ha' => ?_
  refine (openMessage_sound hw' ha' fun h => hτ mid (hs.messages ▸ h)).trans fun hw₂ ha₂ => ?_
  exact textChunk_sound hw₂ ha₂ (mem_openMessage _ _ _) text

theorem aiChunk_sound (hw : ctx.Wf) (ha : ctx.Agrees τ)
    (hτ : ∀ m, m ∉ ctx.openMessages → τ m = own) (hf : FreshIds ctx own id content tcs) :
    SoundAt τ ctx (aiChunk own id content tcs pos fin) := by
  intro evs ctx' h
  obtain ⟨mid, ctx₁, last, hm, rfl, rfl⟩ := aiChunk_ok h
  rw [FreshIds, hm] at hf
  refine ((opening_sound hw ha hτ hm _).trans fun hw' ha' => toolChunks_sound hw' ha' hf).trans
    fun hw' ha' => ?_
  split
  · exact closeMessage_sound hw' ha' mid
  · exact (SameOpen.refl _).skip hw' ha'

theorem aiChunk_collides (hw : ctx.Wf) (ha : ctx.Agrees τ)
    (hτ : ∀ m, m ∉ ctx.openMessages → τ m = own) (hf : ¬ FreshIds ctx own id content tcs)
    (h : aiChunk own id content tcs pos fin ctx = .ok evs ctx') :
    Mark.run ctx.toolIds (evs.filterMap toolMark) = none := by
  obtain ⟨mid, ctx₁, last, hm, rfl, rfl⟩ := aiChunk_ok h
  rw [FreshIds, hm] at hf
  have hs := opening_sound hw ha hτ hm (textOf content)
  rw [List.filterMap_append, List.filterMap_append]
  apply Mark.run_none_append
  exact Mark.run_fail hs.brackets.tool (toolChunks_collides hs.wf hs.agrees hf)

theorem aiTools_sound (hw : ctx.Wf) (ha : ctx.Agrees τ) (mid : String) (tcs : List ToolCall) :
    SoundAt τ ctx (aiTools mid tcs) := by
  induction tcs generalizing ctx with
  | nil => exact (Plain.pure (by simp)).soundAt hw ha
  | cons tc tcs ih =>
    intro evs ctx' h
    obtain ⟨cid, ctx₁, hc, h₁⟩ := bind_ok h
    obtain ⟨c, ctx₂, hg, h₂⟩ := bind_ok h₁
    obtain ⟨rfl, rfl⟩ := get_ok hg
    have hs := toolCallId_quiet tc.id _ _ _ hc
    have hi := ih (hs.wf hw) (hs.agrees ha)
    split at h₂
    · exact (hs.skip hw ha).trans fun _ _ => hi _ _ h₂
    next hn =>
      obtain ⟨args, ctx₃, hj, h₃⟩ := bind_ok h₂
      obtain ⟨_, rfl⟩ := liftPy_ok hj
      obtain ⟨first, ctx₄, hf, h₄⟩ := bind_ok h₃
      obtain ⟨rfl, rfl⟩ := emit_ok hf
      obtain ⟨rest, ctx₅, hr, h₅⟩ := bind_ok h₄
      obtain ⟨rfl, rfl⟩ := pure_ok h₅
      refine (hs.skip hw ha).trans fun hw' ha' => ?_
      exact (fullTool_sound hw' ha' hn _ _ _).trans fun hw₂ ha₂ => ih hw₂ ha₂ _ _ hr

theorem aiMessage_sound (hw : ctx.Wf) (ha : ctx.Agrees τ)
    (hτ : ∀ m, m ∉ ctx.openMessages → τ m = own) :
    SoundAt τ ctx (aiMessage own id content tcs) := by
  intro evs ctx' h
  obtain ⟨mid, ctx₁, hm, h₁⟩ := bind_ok h
  obtain ⟨opened, c₂, ho, h₂⟩ := bind_ok h₁
  obtain ⟨text, c₃, ht, h₃⟩ := bind_ok h₂
  obtain ⟨tools, c₄, hc, h₄⟩ := bind_ok h₃
  obtain ⟨closed, c₅, hd, h₅⟩ := bind_ok h₄
  obtain ⟨rfl, rfl⟩ := emit_ok ho
  obtain ⟨rfl, rfl⟩ := emit_ok ht
  obtain ⟨rfl, rfl⟩ := emit_ok hd
  obtain ⟨rfl, rfl⟩ := pure_ok h₅
  have hs := messageId_same hm
  refine (hs.skip hw ha).trans fun hw₁ ha₁ => ?_
  have h₆ := openMessage_sound hw₁ ha₁ fun h => hτ mid (hs.messages ▸ h)
  have h₇ := h₆.trans fun hw₂ ha₂ => fullText_sound hw₂ ha₂ (mem_openMessage _ _ _) (textOf content)
  have h₈ := h₇.trans fun hw₃ ha₃ => aiTools_sound hw₃ ha₃ mid tcs _ _ hc
  exact h₈.trans fun hw₄ ha₄ => closeMessage_sound hw₄ ha₄ mid

theorem toolMessage_sound (hw : ctx.Wf) (ha : ctx.Agrees τ) (cid : String) (content : Py) :
    SoundAt τ ctx (toolMessage id cid content) := by
  intro evs ctx' h
  obtain ⟨closed, c₁, hc, h₁⟩ := bind_ok h
  obtain ⟨rfl, rfl⟩ := emit_ok hc
  obtain ⟨text, c₂, ht, h₂⟩ := bind_ok h₁
  obtain ⟨_, rfl⟩ := liftPy_ok ht
  obtain ⟨mid, c₃, hm, h₃⟩ := bind_ok h₂
  obtain ⟨rfl, rfl⟩ := pure_ok h₃
  have hs := resultId_quiet id _ _ _ hm
  exact (closeTool_sound hw ha cid).trans fun hw' ha' => hs.sound hw' ha' (by simp [Event.kind])

def messageOwner (ns : List String) (md : Py) : Owner :=
  match langgraphNode md with
  | .ok node => owner ns node
  | .error _ => none

def Chunk.streamed (chunk : Chunk) : Option (List String × Message × Py) :=
  match split chunk with
  | .ok (ns, mode, .message _ msg md) => if mode = "messages" then some (ns, msg, md) else none
  | _ => none

def Chunk.owner (chunk : Chunk) : Owner :=
  match chunk.streamed with
  | some (ns, _, md) => messageOwner ns md
  | none => none

def Message.Fresh (ctx : AgUiContext) (own : Owner) : Message → Prop
  | .aiChunk id content tcs _ _ => FreshIds ctx own id content tcs
  | _ => True

instance : Decidable (Message.Fresh ctx own msg) := by
  unfold Message.Fresh
  split <;> infer_instance

theorem messages_sound (hw : ctx.Wf) (ha : ctx.Agrees τ)
    (hf : msg.Fresh ctx (messageOwner ns md))
    (hτ : ∀ m, m ∉ ctx.openMessages → τ m = messageOwner ns md)
    (h : messages ns (.message container msg md) ctx = .ok (some evs) ctx') :
    Sound τ ctx evs ctx' := by
  obtain ⟨node, c₁, hn, h₁⟩ := bind_ok h
  obtain ⟨hnode, rfl⟩ := liftPy_ok hn
  have ho : messageOwner ns md = owner ns node := by rw [messageOwner, hnode]
  rw [ho] at hτ hf
  cases msg with
  | aiChunk id content tcs pos fin =>
    obtain ⟨evs, c₂, he, h₂⟩ := bind_ok h₁
    obtain ⟨hs, rfl⟩ := pure_ok h₂
    cases hs
    exact aiChunk_sound hw ha hτ hf _ _ he
  | ai id content tcs =>
    obtain ⟨evs, c₂, he, h₂⟩ := bind_ok h₁
    obtain ⟨hs, rfl⟩ := pure_ok h₂
    cases hs
    exact aiMessage_sound hw ha hτ _ _ he
  | tool id cid content =>
    obtain ⟨evs, c₂, he, h₂⟩ := bind_ok h₁
    obtain ⟨hs, rfl⟩ := pure_ok h₂
    cases hs
    exact toolMessage_sound hw ha cid content _ _ he
  | input =>
    obtain ⟨hs, rfl⟩ := pure_ok h₁
    cases hs
    exact (SameOpen.refl _).skip hw ha

theorem changes_plain (ns : List String) (update : Py) : Plain (changes ns update) := by
  unfold changes
  split
  · exact (stateDelta_plain update).append (metadataCustoms_plain update)
  · exact .pure (by simp)

theorem filterMap_step {f : Event → Option (Mark κ)} (hs : f (.stepStarted n) = none)
    (hf : f (.stepFinished n) = none) (evs : List Event) :
    ([Event.stepStarted n] ++ evs ++ [Event.stepFinished n]).filterMap f = evs.filterMap f := by
  rw [List.filterMap_append, List.filterMap_append, List.filterMap_cons_none hs,
    List.filterMap_cons_none hf, List.filterMap_nil, List.nil_append, List.append_nil]

theorem step_brackets (hs : SameOpen ctx ctx') (hp : ∀ e ∈ evs, e.kind = .plain) (name : String) :
    Brackets τ ctx ([.stepStarted name] ++ evs ++ [.stepFinished name]) ctx' := by
  have hb := hs.brackets (τ := τ) hp
  refine ⟨?_, ?_, ?_, ?_, ?_, ?_⟩
  · rw [filterMap_step rfl rfl]
    exact hb.text
  · rw [filterMap_step rfl rfl]
    exact hb.tool
  · rw [filterMap_step rfl rfl]
    exact hb.subagent
  · simp [stepMark, filterMap_other stepMark_none hp (by decide), Mark.nest]
  · rw [filterMap_step rfl rfl]
    exact hb.owner
  · intro e he
    simp only [List.singleton_append, List.mem_append, List.mem_cons, List.not_mem_nil, or_false] at he
    rcases he with (rfl | he) | rfl
    · rfl
    · exact hb.live e he
    · rfl

theorem updateNode_sound (hw : ctx.Wf) (ha : ctx.Agrees τ) (ns : List String) (node : Key)
    (update : Py) : SoundAt τ ctx (updateNode ns node update) := by
  intro evs ctx' h
  unfold updateNode at h
  split at h
  · obtain ⟨_, c₁, hr, h₁⟩ := bind_ok h
    obtain ⟨rfl, rfl⟩ := pure_ok h₁
    exact (recordInterrupts_quiet _ _ _ _ hr).sound hw ha (by simp)
  · obtain ⟨closed, c₁, hc, h₁⟩ := bind_ok h
    obtain ⟨rfl, rfl⟩ := emit_ok hc
    obtain ⟨changed, c₂, hd, h₂⟩ := bind_ok h₁
    obtain ⟨rfl, rfl⟩ := pure_ok h₂
    obtain ⟨hs, hp⟩ := changes_plain ns update _ _ _ hd
    have hclose := closeOwner_sound hw ha (owner ns node.name)
    have hstep := step_brackets (τ := τ) hs hp node.render
    simp only [List.append_assoc]
    rw [← List.append_assoc [_] changed]
    exact ⟨hclose.brackets.trans hstep, hs.wf hclose.wf, hs.agrees hclose.agrees⟩

theorem updateNodes_sound (hw : ctx.Wf) (ha : ctx.Agrees τ) (ns : List String)
    (es : List (Key × Py)) : SoundAt τ ctx (updateNodes ns es) := by
  induction es generalizing ctx with
  | nil => exact (Plain.pure (by simp)).soundAt hw ha
  | cons e es ih =>
    intro evs ctx' h
    obtain ⟨first, c₁, h₁, h₂⟩ := bind_ok h
    obtain ⟨rest, c₂, h₃, h₄⟩ := bind_ok h₂
    obtain ⟨rfl, rfl⟩ := pure_ok h₄
    exact (updateNode_sound hw ha ns e.1 e.2 _ _ h₁).trans fun hw' ha' => ih hw' ha' _ _ h₃

theorem updates_sound (hw : ctx.Wf) (ha : ctx.Agrees τ)
    (h : updates ns payload ctx = .ok (some evs) ctx') : Sound τ ctx evs ctx' := by
  unfold updates at h
  split at h
  · obtain ⟨evs, c₂, he, h₂⟩ := bind_ok h
    obtain ⟨hs, rfl⟩ := pure_ok h₂
    cases hs
    exact updateNodes_sound hw ha ns _ _ _ he
  · cases h
  · cases h

theorem subagentIds_set {ctx : AgUiContext} (sid name : String) :
    ({ ctx with activeSubagents := ctx.activeSubagents.set sid name } : AgUiContext).subagentIds =
      insert sid ctx.subagentIds := by
  ext s
  rw [Finset.mem_insert, mem_subagentIds, mem_subagentIds]
  exact Dict.mem_set _

theorem subagentIds_erase {ctx : AgUiContext} (sid : String) :
    ({ ctx with activeSubagents := ctx.activeSubagents.erase sid } : AgUiContext).subagentIds =
      ctx.subagentIds.erase sid := by
  ext s
  rw [Finset.mem_erase, mem_subagentIds, mem_subagentIds]
  exact Dict.mem_erase _

theorem subagent_sound (hw : ctx.Wf) (ha : ctx.Agrees τ) (he : e.kind = .subagent)
    (hs : Mark.run ctx.subagentIds ([e].filterMap subagentMark) =
      some ({ ctx with activeSubagents := subs } : AgUiContext).subagentIds)
    (hq : SameOpen { ctx with activeSubagents := subs } ctx') : Sound τ ctx [e] ctx' := by
  have hb : Brackets τ ctx [e] { ctx with activeSubagents := subs } :=
    .ofSubagent (by simpa using he) rfl rfl hs
  have hw' : ({ ctx with activeSubagents := subs } : AgUiContext).Wf := ⟨hw.text_open, hw.owner_inj⟩
  exact Sound.trans ⟨hb, hw', ha⟩ fun hw₁ ha₁ => hq.skip hw₁ ha₁

theorem subagentStart_sound (hw : ctx.Wf) (ha : ctx.Agrees τ) (hn : sid ∉ ctx.activeSubagents)
    (payload : Py) : SoundAt τ ctx (subagentStart payload sid) := by
  intro evs ctx' h
  obtain ⟨name, c₁, h₁, h₂⟩ := bind_ok h
  obtain ⟨_, rfl⟩ := liftPy_ok h₁
  obtain ⟨_, c₂, h₃, h₄⟩ := bind_ok h₂
  obtain ⟨description, c₃, h₅, h₆⟩ := bind_ok h₄
  obtain ⟨_, rfl⟩ := liftPy_ok h₅
  obtain ⟨parent, c₄, h₇, h₈⟩ := bind_ok h₆
  obtain ⟨_, rfl⟩ := liftPy_ok h₇
  obtain ⟨call, c₅, h₉, h₁₀⟩ := bind_ok h₈
  obtain ⟨_, rfl⟩ := liftPy_ok h₉
  obtain ⟨message, c₆, h₁₁, h₁₂⟩ := bind_ok h₁₀
  obtain ⟨_, rfl⟩ := liftPy_ok h₁₁
  obtain ⟨rfl, rfl⟩ := pure_ok h₁₂
  rw [modify_ok h₃]
  refine subagent_sound hw ha rfl ?_ (.refl _)
  rw [subagentIds_set]
  exact Mark.run_opens fun hm => hn (mem_subagentIds.1 hm)

theorem subagentEnd_sound (hw : ctx.Wf) (ha : ctx.Agrees τ) (hm : sid ∈ ctx.activeSubagents)
    (payload : Py) : SoundAt τ ctx (subagentEnd payload sid) := by
  intro evs ctx' h
  obtain ⟨_, c₁, h₁, h₂⟩ := bind_ok h
  obtain ⟨result, c₂, h₃, h₄⟩ := bind_ok h₂
  obtain ⟨_, rfl⟩ := liftPy_ok h₃
  obtain ⟨result', c₃, h₅, h₆⟩ := bind_ok h₄
  obtain ⟨rfl, rfl⟩ := pure_ok h₆
  have hq := Quiet.safeOption result _ _ _ h₅
  rw [modify_ok h₁] at hq
  refine subagent_sound hw ha rfl ?_ hq
  rw [subagentIds_erase]
  exact Mark.run_closes (mem_subagentIds.2 hm)

theorem subagentFail_sound (hw : ctx.Wf) (ha : ctx.Agrees τ) (hm : sid ∈ ctx.activeSubagents)
    (payload : Py) : SoundAt τ ctx (subagentFail payload sid) := by
  intro evs ctx' h
  obtain ⟨_, c₁, h₁, h₂⟩ := bind_ok h
  obtain ⟨message, c₂, h₃, h₄⟩ := bind_ok h₂
  obtain ⟨_, rfl⟩ := liftPy_ok h₃
  obtain ⟨code, c₃, h₅, h₆⟩ := bind_ok h₄
  obtain ⟨_, rfl⟩ := liftPy_ok h₅
  obtain ⟨rfl, rfl⟩ := pure_ok h₆
  rw [modify_ok h₁]
  refine subagent_sound hw ha rfl ?_ (.refl _)
  rw [subagentIds_erase]
  exact Mark.run_closes (mem_subagentIds.2 hm)

theorem custom_sound (hw : ctx.Wf) (ha : ctx.Agrees τ) (payload : Payload) :
    SoundAt τ ctx (custom payload) := by
  cases payload with
  | message container msg md =>
    exact (raw_plain "custom" (.message container msg md) "langgraph.custom").soundAt hw ha
  | data v =>
    intro evs ctx' h
    obtain ⟨phase, c₁, h₁, h₂⟩ := bind_ok h
    obtain ⟨_, rfl⟩ := liftPy_ok h₁
    cases phase with
    | none => exact (raw_plain _ _ _).soundAt hw ha _ _ h₂
    | some p =>
      obtain ⟨c, c₂, h₃, h₄⟩ := bind_ok h₂
      obtain ⟨rfl, rfl⟩ := get_ok h₃
      dsimp only at h₄
      split at h₄
      next hc => exact subagentStart_sound hw ha (by simpa using hc.2) v _ _ h₄
      split at h₄
      next hc => exact subagentEnd_sound hw ha (by simpa using hc.2) v _ _ h₄
      split at h₄
      next hc => exact subagentFail_sound hw ha (by simpa using hc.2) v _ _ h₄
      exact (raw_plain _ _ _).soundAt hw ha _ _ h₄

end Prismal.Events
