import Prismal.Events.Replica
import Prismal.Events.Runs

namespace Prismal.Events
open Prismal.Lib
set_option autoImplicit true

/-! Two runs whose states differ only in what the client may not see. -/

/-- The part of a context that depends on the state of the graph, and the options that say what
is sent of it. -/
structure Tracked where
  lastState : Option (Dict String Py)
  lastMetadata : Dict String (Option Py)
  stateKeys : List String
  includeMetadata : Bool

def AgUiContext.tracked (ctx : AgUiContext) : Tracked :=
  ⟨ctx.lastState, ctx.lastMetadata, ctx.stateKeys, ctx.includeMetadata⟩

def AgUiContext.put (ctx : AgUiContext) (t : Tracked) : AgUiContext :=
  { ctx with
    lastState := t.lastState
    lastMetadata := t.lastMetadata
    stateKeys := t.stateKeys
    includeMetadata := t.includeMetadata }

/-- What two runs track looks alike to the client. -/
structure Tracked.Alike (keys : List String) (on : Bool) (t t' : Tracked) : Prop where
  last : ∀ key, (t.lastState.getD ∅).get? key = (t'.lastState.getD ∅).get? key
  metadata : on = true → t.lastMetadata = t'.lastMetadata
  allowed : t.stateKeys = keys
  allowed' : t'.stateKeys = keys
  flag : t.includeMetadata = on
  flag' : t'.includeMetadata = on

structure Twin (keys : List String) (on : Bool) (ctx ctx' : AgUiContext) : Prop where
  rest : ctx' = ctx.put ctx'.tracked
  alike : ctx.tracked.Alike keys on ctx'.tracked

def Blind (f : AgUiContext → α × AgUiContext) : Prop :=
  ∀ ctx t, f (ctx.put t) = ((f ctx).1, (f ctx).2.put t)

theorem Blind.twin {f : AgUiContext → α × AgUiContext} (hf : Blind f) (h : Twin keys on ctx ctx') :
    (f ctx).1 = (f ctx').1 ∧ Twin keys on (f ctx).2 (f ctx').2 := by
  have hself : f ctx = ((f ctx).1, (f ctx).2.put ctx.tracked) := hf ctx ctx.tracked
  have hother : f ctx' = ((f ctx).1, (f ctx).2.put ctx'.tracked) := by
    rw [h.rest]
    exact hf ctx _
  have hctx : (f ctx).2.tracked = ctx.tracked :=
    (congrArg (fun p => p.2.tracked) hself).trans rfl
  have hctx' : (f ctx').2 = (f ctx).2.put ctx'.tracked := congrArg Prod.snd hother
  refine ⟨(congrArg Prod.fst hother).symm, ?_, ?_⟩
  · rw [hctx']
    rfl
  · rw [hctx', hctx]
    exact h.alike

theorem Blind.comp {f : AgUiContext → List Event × AgUiContext}
    {g : AgUiContext → List Event × AgUiContext} (hf : Blind f) (hg : Blind g) :
    Blind fun ctx => ((f ctx).1 ++ (g (f ctx).2).1, (g (f ctx).2).2) := by
  intro ctx t
  dsimp only
  rw [hf, hg]

theorem blind_closeMessage (mid : String) : Blind fun ctx => closeMessage ctx mid :=
  fun _ _ => rfl

theorem blind_closeMessages (mids : List String) : Blind fun ctx => closeMessages ctx mids := by
  induction mids with
  | nil => exact fun _ _ => rfl
  | cons mid mids ih => exact (blind_closeMessage mid).comp ih

theorem blind_closeOwner (own : Owner) : Blind fun ctx => closeOwner ctx own :=
  fun ctx t => blind_closeMessages (ctx.messagesOf own none) ctx t

theorem blind_openMessage (mid : String) (own : Owner) :
    Blind fun ctx => openMessage ctx mid own := by
  intro ctx t
  dsimp only
  rw [openMessage, openMessage]
  by_cases h : mid ∈ ctx.openMessages
  · rw [if_pos h]
    exact if_pos h
  · rw [if_neg h]
    refine (if_neg h).trans ?_
    have hclose :
      closeOwner (ctx.put t) own = ((closeOwner ctx own).1, (closeOwner ctx own).2.put t) :=
      blind_closeOwner own ctx t
    dsimp only
    rw [hclose]
    rfl

theorem blind_textChunk (mid text : String) : Blind fun ctx => textChunk ctx mid text := by
  intro ctx t
  dsimp only
  rw [textChunk, textChunk]
  by_cases h : text = ""
  · rw [if_pos h, if_pos h]
  · rw [if_neg h, if_neg h]
    by_cases hm : mid ∈ ctx.openText
    · rw [if_pos hm]
      exact if_pos hm
    · rw [if_neg hm]
      exact if_neg hm

theorem blind_toolChunk (mid : String) (tc : ToolCallChunk) :
    Blind fun ctx => toolChunk ctx mid tc := by
  intro ctx t
  dsimp only
  rw [toolChunk, toolChunk]
  dsimp only
  have hindex : (ctx.put t).toolIndex = ctx.toolIndex := rfl
  rw [hindex]
  cases (nonEmpty tc.id).orElse fun _ => ctx.toolIndex.get? (mid, tc.index) with
  | none => rfl
  | some cid =>
    dsimp only
    by_cases hc : cid ∈ ctx.openToolCalls
    · rw [if_pos hc]
      exact if_pos hc
    · rw [if_neg hc]
      exact if_neg hc

theorem blind_toolChunks (mid : String) (tcs : List ToolCallChunk) :
    Blind fun ctx => toolChunks ctx mid tcs := by
  induction tcs with
  | nil => exact fun _ _ => rfl
  | cons tc tcs ih => exact (blind_toolChunk mid tc).comp ih

theorem blind_fullText (mid text : String) : Blind fun ctx => fullText ctx mid text := by
  intro ctx t
  dsimp only
  rw [fullText, fullText]
  by_cases hm : mid ∈ ctx.openText
  · rw [if_pos hm]
    exact if_pos hm
  · rw [if_neg hm]
    refine (if_neg hm).trans ?_
    split <;> rfl

theorem blind_fullTool (mid cid name args : String) :
    Blind fun ctx => fullTool ctx mid cid name args := fun _ _ => rfl

theorem blind_closeTool (cid : String) : Blind fun ctx => closeTool ctx cid := by
  intro ctx t
  dsimp only
  rw [closeTool, closeTool]
  by_cases hc : cid ∈ ctx.openToolCalls
  · rw [if_pos hc]
    exact if_pos hc
  · rw [if_neg hc]
    exact if_neg hc

theorem blind_closeAll : Blind closeAll := by
  intro ctx t
  have hclose : closeMessages (ctx.put t) ctx.openMessages.keys = _ :=
    blind_closeMessages ctx.openMessages.keys ctx t
  have hkeys : (ctx.put t).openMessages = ctx.openMessages := rfl
  simp only [closeAll, hkeys, hclose]
  rfl

abbrev Oblivious (keys : List String) (on : Bool) (x : Tr α) : Prop := Rel (Twin keys on) Eq x x

theorem oblivious_emit {f : AgUiContext → List Event × AgUiContext} (hf : Blind f) :
    Oblivious keys on (emit f) :=
  fun _ _ h => hf.twin h

/-- Both values are in `Q`, or both raise. -/
def Both (Q : α → β → Prop) : Except PyError α → Except PyError β → Prop
  | .ok a, .ok b => Q a b
  | .error _, .error _ => True
  | _, _ => False

theorem Both.refl {Q : α → α → Prop} (hq : ∀ a, Q a a) : ∀ x : Except PyError α, Both Q x x
  | .ok a => hq a
  | .error _ => trivial

theorem Both.bind {Q : α → β → Prop} {P : γ → δ → Prop} {x : Except PyError α}
    {y : Except PyError β} {f : α → Except PyError γ} {g : β → Except PyError δ}
    (h : Both Q x y) (hf : ∀ a b, Q a b → Both P (f a) (g b)) : Both P (x >>= f) (y >>= g) := by
  cases x with
  | ok a =>
    cases y with
    | ok b => exact hf a b h
    | error e => exact h.elim
  | error e =>
    cases y with
    | ok b => exact h.elim
    | error e' => trivial

theorem both_interruptOf (iid iid' : String) (v : Py) :
    Both (fun _ _ => True) (interruptOf iid v) (interruptOf iid' v) := by
  refine Both.bind (Both.refl (fun _ => rfl) (jsonSafe v)) fun v' v'' h => ?_
  subst h
  have hsame : ∀ {α : Type} (x : Except PyError α), Both Eq x x := fun x =>
    Both.refl (fun _ => rfl) x
  split
  · trivial
  · split
    · refine Both.bind (hsame _) fun reason _ _ => ?_
      refine Both.bind (hsame _) fun message message' h₁ => ?_
      refine Both.bind (hsame _) fun question question' h₂ => ?_
      subst h₁ h₂
      refine Both.bind (hsame _) fun _ _ _ => ?_
      exact Both.bind (hsame _) fun _ _ _ => trivial
    · trivial

theorem rel_liftPy {R : AgUiContext → AgUiContext → Prop} {Q : α → β → Prop}
    {x : Except PyError α} {y : Except PyError β} (h : Both Q x y) :
    Rel R Q (liftPy x) (liftPy y) := by
  intro ctx ctx' hr
  cases x with
  | ok a =>
    cases y with
    | ok b => exact ⟨h, hr⟩
    | error e => exact h.elim
  | error e =>
    cases y with
    | ok b => exact h.elim
    | error e' => exact hr

theorem rel_liftPy_self {R : AgUiContext → AgUiContext → Prop} (x : Except PyError α) :
    Rel R Eq (liftPy x) (liftPy x) :=
  rel_liftPy (Both.refl (fun _ => rfl) x)

theorem oblivious_liftPy (x : Except PyError α) : Oblivious keys on (liftPy x) := rel_liftPy_self x

theorem oblivious_nextId (kind : String) : Oblivious keys on (nextId kind) := by
  have hf : Blind fun ctx => (ctx.freshId kind, { ctx with seq := ctx.seq + 1 }) := fun _ _ => rfl
  exact fun _ _ h => hf.twin h

theorem oblivious_messageId (id : Option String) (own : Owner) :
    Oblivious keys on (messageId id own) := by
  intro ctx ctx' h
  rw [messageId, messageId]
  cases nonEmpty id with
  | some mid => exact ⟨rfl, h⟩
  | none =>
    have hanon : ctx'.anonIds = ctx.anonIds := by
      rw [h.rest]
      rfl
    dsimp only
    rw [hanon]
    cases ctx.anonIds.get? own with
    | some mid => exact ⟨rfl, h⟩
    | none =>
      have hf : Blind fun c => (c.freshId "msg", { c with
          seq := c.seq + 1, anonIds := c.anonIds.set own (c.freshId "msg") }) := fun _ _ => rfl
      have htwin := hf.twin h
      rw [← hanon]
      rw [← hanon] at htwin
      exact htwin

theorem rel_append {R : AgUiContext → AgUiContext → Prop} {x x' y y' : Tr (List Event)}
    (hx : Rel R Eq x x') (hy : Rel R Eq y y') :
    Rel R Eq (do
      let xs ← x
      let ys ← y
      return xs ++ ys) (do
      let xs ← x'
      let ys ← y'
      return xs ++ ys) := by
  refine Rel.bind hx fun xs xs' h => Rel.bind hy fun ys ys' h' => Rel.pure ?_
  rw [h, h']

theorem rel_safeOption {R : AgUiContext → AgUiContext → Prop} (v : Option Py) :
    Rel R Eq (safeOption v) (safeOption v) := by
  cases v with
  | none => exact Rel.pure rfl
  | some v =>
    refine Rel.bind (rel_liftPy_self _) fun a b h => Rel.pure ?_
    rw [h]

theorem oblivious_safeOption (v : Option Py) : Oblivious keys on (safeOption v) := rel_safeOption v

theorem oblivious_raw (mode : String) (payload : Payload) (source : String) :
    Oblivious keys on (raw mode payload source) := by
  cases payload with
  | message container msg md => exact Rel.pure rfl
  | data v =>
    unfold raw
    dsimp only
    split
    · refine Rel.bind (oblivious_liftPy _) fun a b h => Rel.pure ?_
      rw [h]
    · exact Rel.pure rfl

theorem oblivious_aiChunk (own : Owner) (id : Option String) (content : Py)
    (tcs : List ToolCallChunk) (pos : Option String) (fin : Py) :
    Oblivious keys on (aiChunk own id content tcs pos fin) := by
  refine Rel.bind (oblivious_messageId id own) fun mid mid' hmid => ?_
  subst hmid
  refine Rel.bind (oblivious_emit (blind_openMessage mid own)) fun opened opened' h₁ => ?_
  refine Rel.bind (oblivious_emit (blind_textChunk mid _)) fun text text' h₂ => ?_
  refine Rel.bind (oblivious_emit (blind_toolChunks mid tcs)) fun tools tools' h₃ => ?_
  refine Rel.bind (oblivious_liftPy _) fun last last' hlast => ?_
  subst hlast
  refine Rel.bind (oblivious_emit ?_) fun closed closed' h₄ => Rel.pure ?_
  · cases last with
    | true => exact blind_closeMessage mid
    | false => exact fun _ _ => rfl
  · rw [h₁, h₂, h₃, h₄]

theorem oblivious_toolCallId (id : Option String) : Oblivious keys on (toolCallId id) := by
  unfold toolCallId
  split
  · exact Rel.pure rfl
  · exact oblivious_nextId _

theorem oblivious_resultId (id : Option String) : Oblivious keys on (resultId id) := by
  unfold resultId
  split
  · exact Rel.pure rfl
  · exact oblivious_nextId _

theorem oblivious_aiTools (mid : String) (tcs : List ToolCall) :
    Oblivious keys on (aiTools mid tcs) := by
  induction tcs with
  | nil => exact Rel.pure rfl
  | cons tc tcs ih =>
    refine Rel.bind (oblivious_toolCallId tc.id) fun cid cid' hcid => ?_
    subst hcid
    refine Rel.bind Rel.get fun ctx ctx' h => ?_
    have hopen : ctx'.openToolCalls = ctx.openToolCalls := by
      rw [h.rest]
      rfl
    rw [hopen]
    split
    · exact ih
    · refine Rel.bind (oblivious_liftPy _) fun args args' hargs => ?_
      subst hargs
      exact rel_append (oblivious_emit (blind_fullTool _ _ _ _)) ih

theorem oblivious_aiMessage (own : Owner) (id : Option String) (content : Py)
    (tcs : List ToolCall) : Oblivious keys on (aiMessage own id content tcs) := by
  refine Rel.bind (oblivious_messageId id own) fun mid mid' hmid => ?_
  subst hmid
  refine Rel.bind (oblivious_emit (blind_openMessage mid own)) fun opened opened' h₁ => ?_
  refine Rel.bind (oblivious_emit (blind_fullText mid _)) fun text text' h₂ => ?_
  refine Rel.bind (oblivious_aiTools mid tcs) fun tools tools' h₃ => ?_
  refine Rel.bind (oblivious_emit (blind_closeMessage mid)) fun closed closed' h₄ => Rel.pure ?_
  rw [h₁, h₂, h₃, h₄]

theorem oblivious_toolMessage (id : Option String) (cid : String) (content : Py) :
    Oblivious keys on (toolMessage id cid content) := by
  refine Rel.bind (oblivious_emit (blind_closeTool cid)) fun closed closed' h₁ => ?_
  refine Rel.bind (oblivious_liftPy _) fun text text' h₂ => ?_
  refine Rel.bind (oblivious_resultId id) fun mid mid' h₃ => Rel.pure ?_
  rw [h₁, h₂, h₃]

theorem oblivious_some {x : Tr (List Event)} (hx : Oblivious keys on x) :
    Oblivious keys on (do return some (← x)) := by
  refine Rel.bind hx fun evs evs' h => Rel.pure ?_
  rw [h]

theorem oblivious_messages (ns : List String) (payload : Payload) :
    Oblivious keys on (messages ns payload) := by
  unfold messages
  split
  · exact Rel.bind (oblivious_liftPy _) fun _ _ _ => Rel.pure rfl
  · exact Rel.bind (oblivious_liftPy _) fun _ _ _ => Rel.pure rfl
  · exact Rel.pure rfl
  · refine Rel.bind (oblivious_liftPy _) fun node node' hnode => ?_
    subst hnode
    dsimp only
    split
    · exact oblivious_some (oblivious_aiChunk _ _ _ _ _ _)
    · exact oblivious_some (oblivious_aiMessage _ _ _ _)
    · exact oblivious_some (oblivious_toolMessage _ _ _)
    · exact Rel.pure rfl

theorem oblivious_modify {f : AgUiContext → AgUiContext}
    (hf : ∀ ctx t, f (ctx.put t) = (f ctx).put t) : Oblivious keys on (modify f : Tr PUnit) := by
  have hb : Blind fun ctx => (PUnit.unit, f ctx) := fun ctx t => by
    dsimp only
    rw [hf]
  exact fun _ _ h => hb.twin h

theorem oblivious_subagentStart (payload : Py) (sid : String) :
    Oblivious keys on (subagentStart payload sid) := by
  refine Rel.bind (oblivious_liftPy _) fun name name' hname => ?_
  subst hname
  refine Rel.bind (oblivious_modify fun _ _ => rfl) fun _ _ _ => ?_
  refine Rel.bind (oblivious_liftPy _) fun _ _ h₁ => ?_
  refine Rel.bind (oblivious_liftPy _) fun _ _ h₂ => ?_
  refine Rel.bind (oblivious_liftPy _) fun _ _ h₃ => ?_
  refine Rel.bind (oblivious_liftPy _) fun _ _ h₄ => Rel.pure ?_
  rw [h₁, h₂, h₃, h₄]

theorem oblivious_subagentEnd (payload : Py) (sid : String) :
    Oblivious keys on (subagentEnd payload sid) := by
  refine Rel.bind (oblivious_modify fun _ _ => rfl) fun _ _ _ => ?_
  refine Rel.bind (oblivious_liftPy _) fun result result' hr => ?_
  subst hr
  refine Rel.bind (oblivious_safeOption _) fun _ _ h => Rel.pure ?_
  rw [h]

theorem oblivious_subagentFail (payload : Py) (sid : String) :
    Oblivious keys on (subagentFail payload sid) := by
  refine Rel.bind (oblivious_modify fun _ _ => rfl) fun _ _ _ => ?_
  refine Rel.bind (oblivious_liftPy _) fun _ _ h₁ => ?_
  refine Rel.bind (oblivious_liftPy _) fun _ _ h₂ => Rel.pure ?_
  rw [h₁, h₂]

theorem oblivious_custom (payload : Payload) : Oblivious keys on (custom payload) := by
  unfold custom
  cases payload with
  | message container msg md => exact oblivious_raw _ _ _
  | data v =>
    refine Rel.bind (oblivious_liftPy _) fun phase phase' hphase => ?_
    subst hphase
    cases phase with
    | none => exact oblivious_raw _ _ _
    | some p =>
      refine Rel.bind Rel.get fun ctx ctx' h => ?_
      have hactive : ctx'.activeSubagents = ctx.activeSubagents := by
        rw [h.rest]
        rfl
      dsimp only
      rw [hactive]
      split
      · exact oblivious_subagentStart _ _
      · split
        · exact oblivious_subagentEnd _ _
        · split
          · exact oblivious_subagentFail _ _
          · exact oblivious_raw _ _ _

theorem oblivious_recordInterrupt (item : Py) : Oblivious keys on (recordInterrupt item) := by
  have hk : ∀ iid value, Oblivious keys on (do
      let entry ← liftPy (interruptOf iid value)
      modify fun ctx => { ctx with interrupts := ctx.interrupts ++ [entry] }) := by
    intro iid value
    refine Rel.bind (oblivious_liftPy _) fun entry entry' h => ?_
    subst h
    exact oblivious_modify fun _ _ => rfl
  unfold recordInterrupt
  dsimp only
  split
  · exact Rel.bind (Rel.pure rfl) fun iid iid' h => by
      subst h
      exact hk _ _
  · refine Rel.bind (oblivious_nextId _) fun iid iid' h => ?_
    subst h
    exact hk _ _

theorem oblivious_recordInterrupts (items : List Py) :
    Oblivious keys on (recordInterrupts items) := by
  induction items with
  | nil => exact Rel.pure rfl
  | cons item items ih => exact Rel.bind (oblivious_recordInterrupt item) fun _ _ _ => ih

end Prismal.Events
