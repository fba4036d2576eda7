import Prismal.Events.Branches
import Prismal.Events.Noninterference

namespace Prismal.Events
open Prismal.Lib
set_option autoImplicit true

/-! Branches that stream at the same time do not disturb each other. -/

namespace Branch

variable {b : Branch}

def Brackets (b : Branch) (xs ys : List Event) : Prop :=
  xs.filter Event.bracket = ys.filter Event.bracket ∧
    ∀ e ∈ xs, e.bracket = true → b.mine e = true

theorem Brackets.append (h : b.Brackets xs xs') (h' : b.Brackets ys ys') :
    b.Brackets (xs ++ ys) (xs' ++ ys') := by
  refine ⟨by rw [List.filter_append, List.filter_append, h.1, h'.1], fun e he hb => ?_⟩
  rcases List.mem_append.1 he with he | he
  · exact h.2 e he hb
  · exact h'.2 e he hb

def Unbracketed (evs : List Event) : Prop := ∀ e ∈ evs, e.bracket = false

theorem Unbracketed.brackets (h : Unbracketed xs) (h' : Unbracketed ys) : b.Brackets xs ys := by
  have hnil : ∀ {evs}, Unbracketed evs → evs.filter Event.bracket = [] := fun h =>
    List.filter_eq_nil_iff.2 fun e he hb => by
      rw [h e he] at hb
      cases hb
  refine ⟨(hnil h).trans (hnil h').symm, fun e he hb => ?_⟩
  rw [h e he] at hb
  cases hb

abbrev Acts (b : Branch) (o : Part) (x : Tr (List Event)) : Prop :=
  Rel (b.Twin o) b.Brackets x x

theorem Local.acts {f : AgUiContext → List Event × AgUiContext}
    (hf : b.Local (fun _ => True) f) : b.Acts o (emit f) := by
  intro s t ht
  obtain ⟨-, he, hm, ht'⟩ := hf o s t ht trivial
  exact ⟨⟨congrArg _ he, fun e hin _ => hm e hin⟩, ht'⟩

theorem Inv.congr {s s' : AgUiContext} (h : b.Inv s) (hs : s'.whole = s.whole) : b.Inv s' := by
  obtain ⟨hm, -, ht, hi, -⟩ := Part.mk.inj hs
  refine h.mono (fun m o he => ?_) (fun c m he => ?_) fun k c he => ?_
  · rwa [hm] at he
  · rwa [ht] at he
  · rwa [hi] at he

theorem Twin.congr {s s' t t' : AgUiContext} (h : b.Twin o s t) (hs : s'.whole = s.whole)
    (ht : t'.whole = t.whole) : b.Twin o s' t' := by
  refine ⟨h.inv.congr hs, h.inv'.congr ht, ?_, ?_⟩
  · rw [Branch.inside, Branch.inside, hs, ht]
    exact h.inside
  · rw [Branch.outside, hs]
    exact h.outside

theorem unbracketed_nil : Unbracketed [] := fun _ he => absurd he List.not_mem_nil

theorem unbracketed_single (h : e.bracket = false) : Unbracketed [e] := by
  intro e' he
  rw [List.mem_singleton.1 he]
  exact h

theorem acts_pure (h : Unbracketed evs) : b.Acts o (pure evs) := Rel.pure (h.brackets h)

theorem acts_append {x y : Tr (List Event)} (hx : b.Acts o x) (hy : b.Acts o y) :
    b.Acts o (do
      let xs ← x
      let ys ← y
      return xs ++ ys) :=
  Rel.bind hx fun _ _ h => Rel.bind hy fun _ _ h' => Rel.pure (h.append h')

theorem rel_nextId (kind : String) :
    Rel (b.Twin o) (fun _ _ => True) (nextId kind) (nextId kind) :=
  fun _ _ h => ⟨trivial, h.congr rfl rfl⟩

/-! The chunks of a branch. -/

end Branch

def Message.In (b : Branch) : Message → Prop
  | .aiChunk id _ tcs _ _ =>
    (∃ m, nonEmpty id = some m ∧ b.messages m = true) ∧ ∀ tc ∈ tcs, b.Tools tc
  | .ai id _ tcs =>
    (∃ m, nonEmpty id = some m ∧ b.messages m = true) ∧
      ∀ tc ∈ tcs, ∃ c, nonEmpty tc.id = some c ∧ b.tools c = true
  | .tool id c _ => (∃ m, nonEmpty id = some m) ∧ b.tools c = true
  | .input => True

/-- The messages and node updates of the chunk are those of the branch, and have ids. -/
structure Chunk.In (b : Branch) (chunk : Chunk) : Prop where
  message : ∀ ns container msg md, split chunk = .ok (ns, "messages", .message container msg md) →
    (∀ node, langgraphNode md = .ok node → Events.owner ns node = b.owner) ∧ msg.In b
  nodes : ∀ ns es, split chunk = .ok (ns, "updates", .data (.dict es)) →
    ∀ e ∈ es, e.1 = .str "__interrupt__" ∨ Events.owner ns e.1.name = b.owner

def chunkBody (ctx : AgUiContext) (m text : String) (own : Owner) (tcs : List ToolCallChunk) :
    List Event × AgUiContext :=
  let opened := openMessage ctx m own
  let texts := textChunk opened.2 m text
  let tools := toolChunks texts.2 m tcs
  (opened.1 ++ texts.1 ++ tools.1, tools.2)

def Message.Given (ctx : AgUiContext) (own : Owner) : Message → Prop
  | .aiChunk id content tcs _ _ => ∀ m, nonEmpty id = some m →
    Branch.ToolsGiven (textChunk (openMessage ctx m own).2 m (textOf content)).2 m tcs
  | _ => True

def Chunk.Given (chunk : Chunk) (ctx : AgUiContext) : Prop :=
  ∀ ns container msg md node, split chunk = .ok (ns, "messages", .message container msg md) →
    langgraphNode md = .ok node → msg.Given ctx (Events.owner ns node)

theorem messageId_given {id : Option String} (hm : nonEmpty id = some m) (own : Owner) :
    messageId id own = pure m := by
  funext ctx
  rw [messageId, hm]
  rfl

theorem aiChunk_given {id : Option String} (hm : nonEmpty id = some m) (own : Owner) (content : Py)
    (tcs : List ToolCallChunk) (pos : Option String) (fin : Py) :
    aiChunk own id content tcs pos fin = (do
      let body ← emit fun ctx => chunkBody ctx m (textOf content) own tcs
      let last ← liftPy (finished pos fin)
      let closed ← emit fun ctx => if last then closeMessage ctx m else ([], ctx)
      return body ++ closed) := by
  rw [aiChunk, messageId_given hm]
  rfl

namespace Branch

variable {b : Branch}

theorem chunkBody_local (hm : b.messages m = true) (htcs : ∀ tc ∈ tcs, b.Tools tc)
    (text : String) : b.Local
      (fun ctx => ToolsGiven (textChunk (openMessage ctx m b.owner).2 m text).2 m tcs)
      fun ctx => chunkBody ctx m text b.owner tcs := by
  have h := ((openMessage_local hm).comp (textChunk_local hm text)).comp (toolChunks_local hm htcs)
  intro o s t ht hgiven
  obtain ⟨hpre, hrest⟩ := h o s t ht ⟨⟨trivial, trivial⟩, hgiven⟩
  exact ⟨hpre.2, hrest⟩

theorem aiChunk_acts {id : Option String} (h : (Message.aiChunk id content tcs pos fin).In b)
    (ht : b.Twin o s t) (hg : (Message.aiChunk id content tcs pos fin).Given t b.owner) :
    Beside (b.Twin o) b.Brackets (aiChunk b.owner id content tcs pos fin s)
      (aiChunk b.owner id content tcs pos fin t) := by
  obtain ⟨⟨m, hid, hm⟩, htcs⟩ := h
  rw [aiChunk_given hid]
  obtain ⟨-, he, hmine, ht'⟩ := chunkBody_local hm htcs _ o s t ht (hg m hid)
  have hbody : Beside (b.Twin o) b.Brackets
      (emit (fun ctx => chunkBody ctx m (textOf content) b.owner tcs) s)
      (emit (fun ctx => chunkBody ctx m (textOf content) b.owner tcs) t) :=
    ⟨⟨congrArg _ he, fun e hin _ => hmine e hin⟩, ht'⟩
  refine hbody.bind fun body body' hbrackets => ?_
  refine Rel.bind (rel_liftPy_self _) fun last last' hlast => ?_
  subst hlast
  refine Rel.bind (Local.acts ?_) fun closed closed' h' => Rel.pure (hbrackets.append h')
  cases last with
  | true => exact closeMessage_local hm
  | false => exact local_nothing

theorem aiTools_acts (hm : b.messages m = true)
    (htcs : ∀ tc ∈ tcs, ∃ c, nonEmpty tc.id = some c ∧ b.tools c = true) :
    b.Acts o (aiTools m tcs) := by
  induction tcs with
  | nil => exact acts_pure unbracketed_nil
  | cons tc tcs ih =>
    obtain ⟨c, hid, hc⟩ := htcs tc List.mem_cons_self
    have hrest := ih fun tc' h => htcs tc' (List.mem_cons_of_mem _ h)
    have hgiven : toolCallId tc.id = pure c := by
      rw [toolCallId, hid]
    rw [aiTools, hgiven, pure_bind]
    refine Rel.bind Rel.get fun s t ht => ?_
    have hiff := ht.mem_tool hc
    by_cases h : c ∈ s.openToolCalls
    · rw [if_pos h, if_pos (hiff.1 h)]
      exact hrest
    · rw [if_neg h, if_neg fun h' => h (hiff.2 h')]
      refine Rel.bind (rel_liftPy_self _) fun args args' hargs => ?_
      subst hargs
      exact acts_append (fullTool_local hm hc _ _).acts hrest

theorem aiMessage_acts {id : Option String} (h : (Message.ai id content tcs).In b) :
    b.Acts o (aiMessage b.owner id content tcs) := by
  obtain ⟨⟨m, hid, hm⟩, htcs⟩ := h
  rw [aiMessage, messageId_given hid, pure_bind]
  refine Rel.bind (openMessage_local hm).acts fun _ _ h₁ => ?_
  refine Rel.bind (fullText_local hm _).acts fun _ _ h₂ => ?_
  refine Rel.bind (aiTools_acts hm htcs) fun _ _ h₃ => ?_
  exact Rel.bind (closeMessage_local hm).acts fun _ _ h₄ =>
    Rel.pure (((h₁.append h₂).append h₃).append h₄)

theorem toolMessage_acts {id : Option String} (h : (Message.tool id c content).In b) :
    b.Acts o (toolMessage id c content) := by
  obtain ⟨⟨m, hid⟩, hc⟩ := h
  have hgiven : resultId id = pure m := by rw [resultId, hid]
  rw [toolMessage, hgiven]
  refine Rel.bind (closeTool_local hc).acts fun _ _ h₁ => ?_
  refine Rel.bind (rel_liftPy_self _) fun text text' htext => ?_
  subst htext
  refine Rel.pure (h₁.append ⟨rfl, fun e he _ => ?_⟩)
  rw [List.mem_singleton.1 he]
  exact hc

/-! Updates of the nodes of a branch. -/

theorem recordInterrupt_twin (item : Py) :
    Rel (b.Twin o) (fun _ _ => True) (recordInterrupt item) (recordInterrupt item) := by
  have hk : ∀ iid iid' value, Rel (b.Twin o) (fun _ _ => True)
      (do
        let entry ← liftPy (interruptOf iid value)
        modify fun ctx => { ctx with interrupts := ctx.interrupts ++ [entry] } : Tr PUnit)
      (do
        let entry ← liftPy (interruptOf iid' value)
        modify fun ctx => { ctx with interrupts := ctx.interrupts ++ [entry] }) :=
    fun iid iid' value => Rel.bind (rel_liftPy (both_interruptOf iid iid' value)) fun _ _ _ =>
      Rel.modify fun _ _ h => h.congr rfl rfl
  unfold recordInterrupt
  dsimp only
  split
  · exact hk _ _ _
  · exact Rel.bind (rel_nextId _) fun _ _ _ => hk _ _ _

theorem recordInterrupts_twin (items : List Py) :
    Rel (b.Twin o) (fun _ _ => True) (recordInterrupts items) (recordInterrupts items) := by
  induction items with
  | nil => exact Rel.pure trivial
  | cons item items ih => exact Rel.bind (recordInterrupt_twin item) fun _ _ _ => ih

theorem customStep_unbracketed (key name : String) (r : Option (Option Py)) (ctx : AgUiContext) :
    Unbracketed (customStep key name r ctx).1 ∧ (customStep key name r ctx).2.whole = ctx.whole := by
  rw [customStep.eq_def]
  split
  · split
    · exact ⟨unbracketed_nil, rfl⟩
    · refine ⟨?_, rfl⟩
      split
      · exact unbracketed_single rfl
      · exact unbracketed_nil
  · exact ⟨unbracketed_nil, rfl⟩

theorem customs_acts (read : String → Except PyError (Option (Option Py)))
    (names : List (String × String)) : b.Acts o (customs read names) := by
  induction names with
  | nil => exact acts_pure unbracketed_nil
  | cons e names ih =>
    refine Rel.bind (rel_liftPy_self _) fun r r' hr => ?_
    subst hr
    refine acts_append (fun s t ht => ?_) ih
    obtain ⟨hu, hw⟩ := customStep_unbracketed e.1 e.2 r s
    obtain ⟨hu', hw'⟩ := customStep_unbracketed e.1 e.2 r t
    exact ⟨hu.brackets hu', ht.congr hw hw'⟩

theorem stateDelta_acts (v : Py) : b.Acts o (stateDelta v) := by
  refine Rel.bind Rel.get fun s t ht => ?_
  have hkeys : t.stateKeys = s.stateKeys := congrArg Part.stateKeys ht.inside.symm
  have hview : Both Eq (stateView v s.stateKeys) (stateView v t.stateKeys) := by
    rw [hkeys]
    exact Both.refl (fun _ => rfl) _
  refine Rel.bind (rel_liftPy hview) fun part part' h => ?_
  refine Rel.bind (Rel.set (ht.congr rfl rfl)) fun _ _ _ => ?_
  have hpatch : ∀ (on : Bool) (patch : List PatchOp), ∃ evs, Unbracketed evs ∧
      (if on = true then pure (if patch.isEmpty = true then [] else [Event.stateDelta patch])
        else pure [] : Tr (List Event)) = pure evs := by
    intro on patch
    split
    · refine ⟨_, ?_, rfl⟩
      split
      · exact unbracketed_nil
      · exact unbracketed_single rfl
    · exact ⟨_, unbracketed_nil, rfl⟩
  dsimp only
  obtain ⟨xs, hx, hxs⟩ := hpatch s.includeStateDeltas _
  obtain ⟨ys, hy, hys⟩ := hpatch t.includeStateDeltas _
  rw [hxs, hys]
  exact Rel.pure (hx.brackets hy)

theorem changes_acts (ns : List String) (v : Py) : b.Acts o (changes ns v) := by
  rw [changes]
  split
  · rw [metadataCustoms_eq]
    exact acts_append (stateDelta_acts v) (customs_acts _ _)
  · exact acts_pure unbracketed_nil

theorem updateNode_acts (h : node = .str "__interrupt__" ∨ Events.owner ns node.name = b.owner)
    (v : Py) : b.Acts o (updateNode ns node v) := by
  rw [updateNode]
  split
  · exact Rel.bind (recordInterrupts_twin _) fun _ _ _ =>
      acts_pure unbracketed_nil
  next hnode =>
    have hown : Events.owner ns node.name = b.owner := h.resolve_left hnode
    rw [hown]
    refine Rel.bind closeOwner_local.acts fun _ _ h₁ => ?_
    refine Rel.bind (changes_acts ns v) fun _ _ h₂ => Rel.pure ?_
    have hstep : ∀ e : Event, e.bracket = false → b.Brackets [e] [e] := fun e he =>
      (unbracketed_single he).brackets (unbracketed_single he)
    exact ((h₁.append (hstep _ rfl)).append h₂).append (hstep _ rfl)

theorem updateNodes_acts {es : List (Key × Py)}
    (h : ∀ e ∈ es, e.1 = .str "__interrupt__" ∨ Events.owner ns e.1.name = b.owner) :
    b.Acts o (updateNodes ns es) := by
  induction es with
  | nil => exact acts_pure unbracketed_nil
  | cons e es ih =>
    exact acts_append (updateNode_acts (h e List.mem_cons_self) _)
      (ih fun e' he => h e' (List.mem_cons_of_mem _ he))

/-! Chunks that have nothing to do with messages and tool calls. -/

abbrev Aside (P : α → Prop) (x : Tr α) : Prop :=
  ∀ w, Spec (fun ctx => ctx.whole = w) x (fun a ctx => P a ∧ ctx.whole = w)
    fun _ ctx => ctx.whole = w

theorem aside_pure {P : α → Prop} (h : P a) : Aside P (pure a : Tr α) :=
  fun _ => Spec.pure fun _ hw => ⟨h, hw⟩

theorem aside_throw {P : α → Prop} (e : PyError) : Aside P (throw e : Tr α) :=
  fun _ => Spec.throw fun _ hw => hw

theorem aside_bind {P : α → Prop} {Q : β → Prop} {x : Tr α} {f : α → Tr β} (hx : Aside P x)
    (hf : ∀ a, P a → Aside Q (f a)) : Aside Q (x >>= f) :=
  fun w => Spec.bind (hx w) fun a ctx h => hf a h.1 w ctx h.2

theorem aside_get : Aside (fun _ => True) (get : Tr AgUiContext) :=
  fun _ => Spec.get fun _ hw => ⟨trivial, hw⟩

theorem aside_modify {f : AgUiContext → AgUiContext} (hf : ∀ ctx, (f ctx).whole = ctx.whole) :
    Aside (fun _ => True) (modify f : Tr PUnit) :=
  fun _ => Spec.modify fun ctx hw => ⟨trivial, (hf ctx).trans hw⟩

theorem aside_liftPy (x : Except PyError α) : Aside (fun _ => True) (liftPy x) := by
  intro w ctx hw
  cases x with
  | ok a => exact ⟨trivial, hw⟩
  | error e => exact hw

theorem aside_safeOption (v : Option Py) : Aside (fun _ => True) (safeOption v) := by
  cases v with
  | none => exact aside_pure trivial
  | some v => exact aside_bind (aside_liftPy _) fun _ _ => aside_pure trivial

theorem aside_raw (mode : String) (payload : Payload) (source : String) :
    Aside Unbracketed (raw mode payload source) := by
  cases payload with
  | message container msg md => exact aside_pure (unbracketed_single rfl)
  | data v =>
    unfold raw
    dsimp only
    split
    · exact aside_bind (aside_liftPy _) fun _ _ => aside_pure (unbracketed_single rfl)
    · exact aside_pure (unbracketed_single rfl)

theorem aside_subagentStart (payload : Py) (sid : String) :
    Aside Unbracketed (subagentStart payload sid) := by
  refine aside_bind (aside_liftPy _) fun _ _ => ?_
  refine aside_bind (aside_modify fun _ => rfl) fun _ _ => ?_
  refine aside_bind (aside_liftPy _) fun _ _ => ?_
  refine aside_bind (aside_liftPy _) fun _ _ => ?_
  refine aside_bind (aside_liftPy _) fun _ _ => ?_
  exact aside_bind (aside_liftPy _) fun _ _ => aside_pure (unbracketed_single rfl)

theorem aside_subagentEnd (payload : Py) (sid : String) :
    Aside Unbracketed (subagentEnd payload sid) := by
  refine aside_bind (aside_modify fun _ => rfl) fun _ _ => ?_
  refine aside_bind (aside_liftPy _) fun _ _ => ?_
  exact aside_bind (aside_safeOption _) fun _ _ => aside_pure (unbracketed_single rfl)

theorem aside_subagentFail (payload : Py) (sid : String) :
    Aside Unbracketed (subagentFail payload sid) := by
  refine aside_bind (aside_modify fun _ => rfl) fun _ _ => ?_
  refine aside_bind (aside_liftPy _) fun _ _ => ?_
  exact aside_bind (aside_liftPy _) fun _ _ => aside_pure (unbracketed_single rfl)

theorem aside_custom (payload : Payload) : Aside Unbracketed (custom payload) := by
  unfold custom
  cases payload with
  | message container msg md => exact aside_raw _ _ _
  | data v =>
    refine aside_bind (aside_liftPy _) fun phase _ => ?_
    cases phase with
    | none => exact aside_raw _ _ _
    | some p =>
      refine aside_bind aside_get fun ctx _ => ?_
      dsimp only
      split
      · exact aside_subagentStart _ _
      · split
        · exact aside_subagentEnd _ _
        · split
          · exact aside_subagentFail _ _
          · exact aside_raw _ _ _

theorem aside_answer {x : Tr (Option (List Event))}
    (hx : Aside (fun result => ∀ evs, result = some evs → Unbracketed evs) x)
    {k : Tr (List Event)} (hk : Aside Unbracketed k) :
    Aside Unbracketed (x >>= fun (result : Option (List Event)) =>
      match result with
      | some evs => pure evs
      | none => k) := by
  refine aside_bind hx fun result h => ?_
  cases result with
  | some evs => exact aside_pure (h evs rfl)
  | none => exact hk

def Handled (mode : String) (payload : Payload) : Prop :=
  (mode = "messages" ∧ ∃ container msg md, payload = .message container msg md) ∨
    (mode = "updates" ∧ ∃ es, payload = .data (.dict es))

theorem aside_messages (v : Py) :
    Aside (fun result => ∀ evs, result = some evs → Unbracketed evs)
      (Events.messages ns (.data v)) := by
  have hnone : ∀ evs : List Event, none = some evs → Unbracketed evs := fun _ h => by cases h
  rw [Events.messages.eq_def]
  split
  · exact aside_bind (aside_liftPy _) fun _ _ => aside_pure hnone
  · exact aside_bind (aside_liftPy _) fun _ _ => aside_pure hnone
  · exact aside_pure hnone
  next h => cases h

theorem aside_dispatch (h : ¬ Handled mode payload) (ns : List String) :
    Aside (fun result => ∀ evs, result = some evs → Unbracketed evs)
      (dispatch ns mode payload) := by
  have hnone : ∀ evs : List Event, none = some evs → Unbracketed evs := fun _ h => by cases h
  rw [dispatch]
  split
  next hm =>
    cases payload with
    | data v => exact aside_messages v
    | message container msg md => exact absurd (.inl ⟨hm, container, msg, md, rfl⟩) h
  · split
    next hm =>
      rw [updates.eq_def]
      split
      next es => exact absurd (.inr ⟨hm, es, rfl⟩) h
      · exact aside_throw _
      · exact aside_pure hnone
    · split
      · refine aside_bind (aside_custom payload) fun evs hevs => aside_pure fun xs he => ?_
        cases he
        exact hevs
      · exact aside_pure hnone

theorem Aside.swallow {x : Tr (List Event)} (hx : Aside Unbracketed x) (ctx : AgUiContext) :
    Unbracketed (swallow x ctx).1 ∧ (swallow x ctx).2.whole = ctx.whole := by
  have h := hx ctx.whole ctx rfl
  rw [Events.swallow]
  cases hs : x ctx with
  | ok evs c =>
    rw [hs] at h
    exact h
  | error e c =>
    rw [hs] at h
    exact ⟨unbracketed_nil, h⟩

theorem aside_chunk (h : ∀ ns mode payload, split chunk = .ok (ns, mode, payload) →
    ¬ Handled mode payload) : Aside Unbracketed (translate chunk) := by
  rw [translate]
  split
  · exact aside_raw _ _ _
  next ns mode payload hs => exact aside_answer (aside_dispatch (h _ _ _ hs) ns) (aside_raw _ _ _)

/-! One chunk. -/

theorem answer_some (x k : Tr (List Event)) :
    ((do return some (← x)) >>= fun (result : Option (List Event)) =>
      match result with
      | some evs => pure evs
      | none => k) = x := by
  rw [bind_assoc]
  exact bind_pure x

def handler (own : Owner) : Message → Tr (List Event)
  | .aiChunk id content tcs pos fin => aiChunk own id content tcs pos fin
  | .ai id content tcs => aiMessage own id content tcs
  | .tool id c content => toolMessage id c content
  | .input => pure []

theorem translate_message
    (hs : split chunk = .ok (ns, "messages", .message container msg md))
    (hn : langgraphNode md = .ok node) : translate chunk = handler (Events.owner ns node) msg := by
  rw [translate, hs]
  dsimp only
  rw [dispatch, if_pos rfl, Events.messages, hn]
  cases msg with
  | aiChunk id content tcs pos fin => exact answer_some _ _
  | ai id content tcs => exact answer_some _ _
  | tool id c content => exact answer_some _ _
  | input => rfl

theorem translate_unread
    (hs : split chunk = .ok (ns, "messages", .message container msg md))
    (hn : langgraphNode md = .error e) : translate chunk = throw e := by
  rw [translate, hs]
  dsimp only
  rw [dispatch, if_pos rfl, Events.messages, hn]
  rfl

theorem handler_acts (h : msg.In b) (ht : b.Twin o s t) (hg : msg.Given t b.owner) :
    Beside (b.Twin o) b.Brackets (handler b.owner msg s) (handler b.owner msg t) := by
  cases msg with
  | aiChunk id content tcs pos fin => exact aiChunk_acts h ht hg
  | ai id content tcs => exact aiMessage_acts h s t ht
  | tool id c content => exact toolMessage_acts h s t ht
  | input => exact acts_pure unbracketed_nil s t ht

theorem chunk_acts (hb : chunk.In b) (ht : b.Twin o s t) (hg : chunk.Given t) :
    b.Brackets (toAguiEvents chunk s).1 (toAguiEvents chunk t).1 ∧
      b.Twin o (toAguiEvents chunk s).2 (toAguiEvents chunk t).2 := by
  by_cases hh : ∃ ns mode payload, split chunk = .ok (ns, mode, payload) ∧ Handled mode payload
  · obtain ⟨ns, mode, payload, hs, ⟨rfl, container, msg, md, rfl⟩ | ⟨rfl, es, rfl⟩⟩ := hh
    · obtain ⟨hown, hin⟩ := hb.message ns container msg md hs
      rw [toAguiEvents]
      cases hn : langgraphNode md with
      | error e =>
        rw [translate_unread hs hn]
        exact ⟨unbracketed_nil.brackets unbracketed_nil, ht⟩
      | ok node =>
        rw [translate_message hs hn, hown node hn]
        have hg' := hg ns container msg md node hs hn
        rw [hown node hn] at hg'
        exact beside_swallow (handler_acts hin ht hg') (unbracketed_nil.brackets unbracketed_nil)
    · have hx : translate chunk = updateNodes ns es := by
        rw [translate, hs]
        exact answer_some _ _
      rw [toAguiEvents, hx]
      exact beside_swallow (updateNodes_acts (hb.nodes ns es hs) s t ht)
        (unbracketed_nil.brackets unbracketed_nil)
  · have haside := aside_chunk fun ns mode payload hs h => hh ⟨ns, mode, payload, hs, h⟩
    obtain ⟨hu, hw⟩ := Aside.swallow haside s
    obtain ⟨hu', hw'⟩ := Aside.swallow haside t
    exact ⟨hu.brackets hu', ht.congr hw hw'⟩

theorem Twin.given {chunk : Chunk} (ht : b.Twin o s t) (hb : chunk.In b) (hg : chunk.Given t) :
    chunk.Given s := by
  intro ns container msg md node hs hn
  obtain ⟨hown, hin⟩ := hb.message ns container msg md hs
  have hg' := hg ns container msg md node hs hn
  rw [hown node hn] at hg' ⊢
  cases msg with
  | aiChunk id content tcs pos fin =>
    intro m hm
    obtain ⟨⟨m', hm', hmine⟩, htcs⟩ := hin
    have hself : m = m' := Option.some.inj (hm.symm.trans hm')
    rw [← hself] at hmine
    exact (chunkBody_local hmine htcs _ o s t ht (hg' m hm)).1
  | _ => trivial

end Branch

end Prismal.Events
