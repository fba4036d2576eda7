import Prismal.Events.Diff
import Prismal.Events.Handlers
import Prismal.Events.View

namespace Prismal.Events
open Prismal.Lib
open Py (Same JsonDict isJson_dict eq_dict_iff lookup_mem)
set_option autoImplicit true

/-! A client that starts from the snapshot of a run and applies its deltas. -/

def Event.stateEvent : Event → Option Event
  | .stateSnapshot snapshot => some (.stateSnapshot snapshot)
  | .stateDelta delta => some (.stateDelta delta)
  | _ => none

def AgUiContext.tracking (ctx : AgUiContext) : Option (Dict String Py) × List String × Bool :=
  (ctx.lastState, ctx.stateKeys, ctx.includeStateDeltas)

def NoState (evs : List Event) : Prop := evs.filterMap Event.stateEvent = []

theorem NoState.append (h : NoState xs) (h' : NoState ys) : NoState (xs ++ ys) := by
  rw [NoState, List.filterMap_append, h, h', List.append_nil]

abbrev Silent (x : Tr (List Event)) : Prop := Keeps AgUiContext.tracking NoState x

abbrev Still (x : Tr α) : Prop := Keeps AgUiContext.tracking (fun _ => True) x

theorem still_pure (a : α) : Still (pure a : Tr α) := .pure trivial

theorem still_liftPy (x : Except PyError α) : Still (liftPy x) := by
  intro ctx a ctx' h
  rw [(liftPy_ok h).2]
  exact ⟨rfl, trivial⟩

theorem silent_emit {f : AgUiContext → List Event × AgUiContext}
    (hf : ∀ ctx, (f ctx).2.tracking = ctx.tracking ∧ NoState (f ctx).1) : Silent (emit f) := by
  intro ctx evs ctx' h
  obtain ⟨rfl, rfl⟩ := emit_ok h
  exact hf ctx

theorem still_nextId (kind : String) : Still (nextId kind) := by
  intro ctx a ctx' h
  cases h
  exact ⟨rfl, trivial⟩

theorem silent_append {x y : Tr (List Event)} (hx : Silent x) (hy : Silent y) :
    Silent (do
      let xs ← x
      let ys ← y
      return xs ++ ys) :=
  Keeps.bind hx fun _ h => Keeps.bind hy fun _ h' => .pure (h.append h')

theorem silent_raw (mode : String) (payload : Payload) (source : String) :
    Silent (raw mode payload source) := by
  cases payload with
  | message container msg md => exact .pure rfl
  | data v =>
    unfold raw
    dsimp only
    split
    · exact Keeps.bind (still_liftPy _) fun _ _ => .pure rfl
    · exact .pure rfl

theorem closeMessage_tracking (ctx : AgUiContext) (mid : String) :
    (closeMessage ctx mid).2.tracking = ctx.tracking ∧ NoState (closeMessage ctx mid).1 := by
  refine ⟨rfl, ?_⟩
  rw [NoState, closeMessage, List.filterMap_append, List.filterMap_map]
  have htools : (ctx.toolCallsOf mid).filterMap (Event.stateEvent ∘ Event.toolCallEnd) = [] :=
    List.filterMap_eq_nil_iff.2 fun _ _ => rfl
  rw [htools, List.append_nil]
  split <;> rfl

theorem closeMessages_tracking (ctx : AgUiContext) (mids : List String) :
    (closeMessages ctx mids).2.tracking = ctx.tracking ∧ NoState (closeMessages ctx mids).1 := by
  induction mids generalizing ctx with
  | nil => exact ⟨rfl, rfl⟩
  | cons mid mids ih =>
    obtain ⟨ht, hn⟩ := closeMessage_tracking ctx mid
    obtain ⟨ht', hn'⟩ := ih (closeMessage ctx mid).2
    exact ⟨ht'.trans ht, hn.append hn'⟩

theorem openMessage_tracking (ctx : AgUiContext) (mid : String) (own : Owner) :
    (openMessage ctx mid own).2.tracking = ctx.tracking ∧ NoState (openMessage ctx mid own).1 := by
  rw [openMessage]
  split
  · exact ⟨rfl, rfl⟩
  · exact closeMessages_tracking ctx _

theorem textChunk_tracking (ctx : AgUiContext) (mid text : String) :
    (textChunk ctx mid text).2.tracking = ctx.tracking ∧ NoState (textChunk ctx mid text).1 := by
  rw [textChunk]
  split
  · exact ⟨rfl, rfl⟩
  · split <;> exact ⟨rfl, rfl⟩

theorem startTool_tracking (ctx : AgUiContext) (mid cid name args : String) :
    (startTool ctx mid cid name args).2.tracking = ctx.tracking ∧
      NoState (startTool ctx mid cid name args).1 := by
  refine ⟨rfl, ?_⟩
  rw [NoState, startTool]
  split <;> rfl

theorem toolChunk_tracking (ctx : AgUiContext) (mid : String) (tc : ToolCallChunk) :
    (toolChunk ctx mid tc).2.tracking = ctx.tracking ∧ NoState (toolChunk ctx mid tc).1 := by
  rw [toolChunk]
  dsimp only
  split
  · exact startTool_tracking _ _ _ _ _
  · split
    · refine ⟨rfl, ?_⟩
      rw [NoState]
      split <;> rfl
    · exact startTool_tracking _ _ _ _ _

theorem toolChunks_tracking (ctx : AgUiContext) (mid : String) (tcs : List ToolCallChunk) :
    (toolChunks ctx mid tcs).2.tracking = ctx.tracking ∧ NoState (toolChunks ctx mid tcs).1 := by
  induction tcs generalizing ctx with
  | nil => exact ⟨rfl, rfl⟩
  | cons tc tcs ih =>
    obtain ⟨ht, hn⟩ := toolChunk_tracking ctx mid tc
    obtain ⟨ht', hn'⟩ := ih (toolChunk ctx mid tc).2
    exact ⟨ht'.trans ht, hn.append hn'⟩

theorem fullText_tracking (ctx : AgUiContext) (mid text : String) :
    (fullText ctx mid text).2.tracking = ctx.tracking ∧ NoState (fullText ctx mid text).1 := by
  rw [fullText]
  split
  · exact ⟨rfl, rfl⟩
  · split <;> exact ⟨rfl, rfl⟩

theorem fullTool_tracking (ctx : AgUiContext) (mid cid name args : String) :
    (fullTool ctx mid cid name args).2.tracking = ctx.tracking ∧
      NoState (fullTool ctx mid cid name args).1 :=
  ⟨rfl, (startTool_tracking ctx mid cid name args).2.append rfl⟩

theorem closeTool_tracking (ctx : AgUiContext) (cid : String) :
    (closeTool ctx cid).2.tracking = ctx.tracking ∧ NoState (closeTool ctx cid).1 := by
  rw [closeTool]
  split <;> exact ⟨rfl, rfl⟩

theorem still_messageId (id : Option String) (own : Owner) : Still (messageId id own) := by
  intro ctx mid ctx' h
  rw [messageId] at h
  split at h
  · cases h
    exact ⟨rfl, trivial⟩
  · split at h
    · cases h
      exact ⟨rfl, trivial⟩
    · cases h
      exact ⟨rfl, trivial⟩

theorem still_toolCallId (id : Option String) : Still (toolCallId id) := by
  unfold toolCallId
  split
  · exact .pure trivial
  · exact still_nextId _

theorem still_resultId (id : Option String) : Still (resultId id) := by
  unfold resultId
  split
  · exact .pure trivial
  · exact still_nextId _

theorem silent_aiChunk (own : Owner) (id : Option String) (content : Py) (tcs : List ToolCallChunk)
    (pos : Option String) (fin : Py) : Silent (aiChunk own id content tcs pos fin) := by
  refine Keeps.bind (still_messageId id own) fun mid _ => ?_
  refine Keeps.bind (silent_emit fun ctx => openMessage_tracking ctx mid own) fun _ h₁ => ?_
  refine Keeps.bind (silent_emit fun ctx => textChunk_tracking ctx mid _) fun _ h₂ => ?_
  refine Keeps.bind (silent_emit fun ctx => toolChunks_tracking ctx mid tcs) fun _ h₃ => ?_
  refine Keeps.bind (still_liftPy _) fun last _ => ?_
  refine Keeps.bind (silent_emit fun ctx => ?_) fun _ h₄ =>
    .pure (((h₁.append h₂).append h₃).append h₄)
  split
  · exact closeMessage_tracking ctx mid
  · exact ⟨rfl, rfl⟩

theorem silent_aiTools (mid : String) (tcs : List ToolCall) : Silent (aiTools mid tcs) := by
  induction tcs with
  | nil => exact .pure rfl
  | cons tc tcs ih =>
    refine Keeps.bind (still_toolCallId tc.id) fun cid _ => ?_
    refine Keeps.bind Keeps.get fun ctx _ => ?_
    split
    · exact ih
    · refine Keeps.bind (still_liftPy _) fun args _ => ?_
      exact silent_append (silent_emit fun ctx => fullTool_tracking ctx _ _ _ _) ih

theorem silent_aiMessage (own : Owner) (id : Option String) (content : Py) (tcs : List ToolCall) :
    Silent (aiMessage own id content tcs) := by
  refine Keeps.bind (still_messageId id own) fun mid _ => ?_
  refine Keeps.bind (silent_emit fun ctx => openMessage_tracking ctx mid own) fun _ h₁ => ?_
  refine Keeps.bind (silent_emit fun ctx => fullText_tracking ctx mid _) fun _ h₂ => ?_
  refine Keeps.bind (silent_aiTools mid tcs) fun _ h₃ => ?_
  exact Keeps.bind (silent_emit fun ctx => closeMessage_tracking ctx mid) fun _ h₄ =>
    .pure (((h₁.append h₂).append h₃).append h₄)

theorem silent_toolMessage (id : Option String) (cid : String) (content : Py) :
    Silent (toolMessage id cid content) := by
  refine Keeps.bind (silent_emit fun ctx => closeTool_tracking ctx cid) fun _ h => ?_
  refine Keeps.bind (still_liftPy _) fun text _ => ?_
  exact Keeps.bind (still_resultId id) fun mid _ => .pure (h.append rfl)

/-- A handler that may leave a payload to `RAW`. -/
abbrev SilentOpt (x : Tr (Option (List Event))) : Prop :=
  Keeps AgUiContext.tracking (fun evs => ∀ xs, evs = some xs → NoState xs) x

theorem silent_some {x : Tr (List Event)} (hx : Silent x) : SilentOpt (do return some (← x)) :=
  Keeps.bind hx fun _ h => .pure fun _ he => Option.some.inj he ▸ h

theorem silent_messages (ns : List String) (payload : Payload) :
    SilentOpt (messages ns payload) := by
  unfold messages
  split
  · exact Keeps.bind (still_liftPy _) fun _ _ => .pure fun _ he => by cases he
  · exact Keeps.bind (still_liftPy _) fun _ _ => .pure fun _ he => by cases he
  · exact .pure fun _ he => by cases he
  · refine Keeps.bind (still_liftPy _) fun node _ => ?_
    dsimp only
    split
    · exact silent_some (silent_aiChunk _ _ _ _ _ _)
    · exact silent_some (silent_aiMessage _ _ _ _)
    · exact silent_some (silent_toolMessage _ _ _)
    · exact .pure fun xs he => by
        cases he
        rfl

theorem still_modify {f : AgUiContext → AgUiContext} (hf : ∀ ctx, (f ctx).tracking = ctx.tracking) :
    Still (modify f : Tr PUnit) := Keeps.modify hf

theorem still_safeOption (v : Option Py) : Still (safeOption v) := by
  cases v with
  | none => exact .pure trivial
  | some v => exact Keeps.bind (still_liftPy _) fun _ _ => .pure trivial

theorem silent_subagentStart (payload : Py) (sid : String) :
    Silent (subagentStart payload sid) := by
  refine Keeps.bind (still_liftPy _) fun _ _ => ?_
  refine Keeps.bind (still_modify fun _ => rfl) fun _ _ => ?_
  refine Keeps.bind (still_liftPy _) fun _ _ => ?_
  refine Keeps.bind (still_liftPy _) fun _ _ => ?_
  refine Keeps.bind (still_liftPy _) fun _ _ => ?_
  exact Keeps.bind (still_liftPy _) fun _ _ => .pure rfl

theorem silent_subagentEnd (payload : Py) (sid : String) : Silent (subagentEnd payload sid) := by
  refine Keeps.bind (still_modify fun _ => rfl) fun _ _ => ?_
  refine Keeps.bind (still_liftPy _) fun _ _ => ?_
  exact Keeps.bind (still_safeOption _) fun _ _ => .pure rfl

theorem silent_subagentFail (payload : Py) (sid : String) : Silent (subagentFail payload sid) := by
  refine Keeps.bind (still_modify fun _ => rfl) fun _ _ => ?_
  refine Keeps.bind (still_liftPy _) fun _ _ => ?_
  exact Keeps.bind (still_liftPy _) fun _ _ => .pure rfl

theorem silent_custom (payload : Payload) : Silent (custom payload) := by
  unfold custom
  cases payload with
  | message container msg md => exact silent_raw _ _ _
  | data v =>
    refine Keeps.bind (still_liftPy _) fun phase _ => ?_
    cases phase with
    | none => exact silent_raw _ _ _
    | some p =>
      refine Keeps.bind Keeps.get fun ctx _ => ?_
      dsimp only
      split
      · exact silent_subagentStart _ _
      · split
        · exact silent_subagentEnd _ _
        · split
          · exact silent_subagentFail _ _
          · exact silent_raw _ _ _

theorem still_recordInterrupt (item : Py) : Still (recordInterrupt item) := by
  have hk : ∀ iid value, Still (do
      let entry ← liftPy (interruptOf iid value)
      modify fun ctx => { ctx with interrupts := ctx.interrupts ++ [entry] }) := fun _ _ =>
    Keeps.bind (still_liftPy _) fun _ _ => still_modify fun _ => rfl
  unfold recordInterrupt
  dsimp only
  split
  · exact Keeps.bind (still_pure _) fun _ _ => hk _ _
  · exact Keeps.bind (still_nextId _) fun _ _ => hk _ _

theorem still_recordInterrupts (items : List Py) : Still (recordInterrupts items) := by
  induction items with
  | nil => exact .pure trivial
  | cons item items ih => exact Keeps.bind (still_recordInterrupt item) fun _ _ => ih

theorem silent_metadataKey (md : Py) (key name : String) : Silent (metadataKey md key name) := by
  intro ctx evs ctx' h
  obtain ⟨v, c₁, h₁, h₂⟩ := bind_ok h
  obtain ⟨-, rfl⟩ := liftPy_ok h₁
  cases v with
  | none =>
    obtain ⟨rfl, rfl⟩ := pure_ok h₂
    exact ⟨rfl, rfl⟩
  | some v =>
    obtain ⟨value, c₂, h₃, h₄⟩ := bind_ok h₂
    obtain ⟨-, rfl⟩ := liftPy_ok h₃
    cases value with
    | none =>
      obtain ⟨rfl, rfl⟩ := pure_ok h₄
      exact ⟨rfl, rfl⟩
    | some value =>
      obtain ⟨c, c₃, h₅, h₆⟩ := bind_ok h₄
      obtain ⟨rfl, rfl⟩ := get_ok h₅
      split at h₆
      · obtain ⟨rfl, rfl⟩ := pure_ok h₆
        exact ⟨rfl, rfl⟩
      · obtain ⟨_, c₄, h₇, h₈⟩ := bind_ok h₆
        obtain ⟨rfl, rfl⟩ := pure_ok h₈
        rw [set_ok h₇]
        refine ⟨rfl, ?_⟩
        split <;> rfl

theorem silent_metadataKeys (md : Py) (keys : List (String × String)) :
    Silent (metadataKeys md keys) := by
  induction keys with
  | nil => exact .pure rfl
  | cons key keys ih => exact silent_append (silent_metadataKey md _ _) ih

theorem silent_metadataCustoms (update : Py) : Silent (metadataCustoms update) := by
  refine Keeps.bind (still_liftPy _) fun md _ => ?_
  cases md with
  | none => exact .pure rfl
  | some md =>
    dsimp only
    split
    · exact silent_metadataKeys md _
    · exact .pure rfl

theorem closeOwner_tracking (ctx : AgUiContext) (own : Owner) :
    (closeOwner ctx own).2.tracking = ctx.tracking ∧ NoState (closeOwner ctx own).1 :=
  closeMessages_tracking ctx _

/-- Apply the deltas of a run to its snapshot; `none`: an operation has no target. -/
def replay : List (List PatchOp) → Py → Option Py
  | [], doc => some doc
  | delta :: deltas, doc =>
    match applyPatch 0 delta (some doc) with
    | some (some doc') => replay deltas doc'
    | _ => none

theorem replay_append (xs ys : List (List PatchOp)) (doc : Py) :
    replay (xs ++ ys) doc = (replay xs doc).bind (replay ys) := by
  induction xs generalizing doc with
  | nil => rfl
  | cons delta xs ih =>
    rw [List.cons_append, replay, replay]
    split
    · exact ih _
    · rfl

/-- The client's copy, the tracked state and the state of the graph agree. -/
structure InStep (ctx : AgUiContext) (state : List (Key × Py)) (replica : Py) : Prop where
  deltas : ctx.includeStateDeltas = true
  nodup : (state.map Prod.fst).Nodup
  json : replica.isJson = true
  tracked : ∃ last view, ctx.lastState = some last ∧
    (∀ key v, last.get? key = some v → v.isJson = true) ∧ replica.eq (asPy last) = true ∧
    viewEntries ctx.stateKeys state = .ok view ∧ ∀ key, last.get? key = view.get? key

theorem InStep.congr (h : InStep ctx state replica) (ht : ctx'.tracking = ctx.tracking) :
    InStep ctx' state replica := by
  obtain ⟨h₁, h₂, h₃⟩ : ctx'.lastState = ctx.lastState ∧ ctx'.stateKeys = ctx.stateKeys ∧
      ctx'.includeStateDeltas = ctx.includeStateDeltas := by
    simpa [AgUiContext.tracking] using ht
  refine ⟨h₃.trans h.deltas, h.nodup, h.json, ?_⟩
  rw [h₁, h₂]
  exact h.tracked

def Follows (replica : Py) (evs : List Event) (ctx ctx' : AgUiContext)
    (state' : List (Key × Py)) : Prop :=
  ∃ deltas replica', evs.filterMap Event.stateEvent = deltas.map Event.stateDelta ∧
    replay deltas replica = some replica' ∧ InStep ctx' state' replica' ∧
    ctx'.stateKeys = ctx.stateKeys

theorem InStep.silent (hs : InStep ctx state replica) (ht : ctx'.tracking = ctx.tracking)
    (hn : NoState evs) : Follows replica evs ctx ctx' state := by
  have hkeys : ctx'.stateKeys = ctx.stateKeys := congrArg (fun t => t.2.1) ht
  exact ⟨[], replica, hn, rfl, hs.congr ht, hkeys⟩

theorem Follows.trans (h : Follows replica xs ctx ctx₁ state₁)
    (h' : ∀ replica₁, InStep ctx₁ state₁ replica₁ → Follows replica₁ ys ctx₁ ctx₂ state₂) :
    Follows replica (xs ++ ys) ctx ctx₂ state₂ := by
  obtain ⟨deltas, replica₁, he, hr, hs, hk⟩ := h
  obtain ⟨deltas', replica₂, he', hr', hs', hk'⟩ := h' replica₁ hs
  refine ⟨deltas ++ deltas', replica₂, ?_, ?_, hs', hk'.trans hk⟩
  · rw [List.filterMap_append, List.map_append, he, he']
  · rw [replay_append, hr]
    exact hr'

theorem view_overlaid {update : List (Key × Py)} (hs : (state.map Prod.fst).Nodup)
    (hu : (update.map Prod.fst).Nodup) (hv : viewEntries keys state = .ok view)
    (hp : viewEntries keys update = .ok part) (hl : ∀ key, last.get? key = view.get? key) :
    ∃ view', viewEntries keys (overlaid state update) = .ok view' ∧
      ∀ key, (overlay keys part update last).get? key = view'.get? key := by
  have hn := nodup_overlaid update hs
  have hok : ∃ view', viewEntries keys (overlaid state update) = .ok view' := by
    apply viewEntries_ok
    intro key v hmem hvis
    have hlook := (Dict.lookup_eq_some hn).2 hmem
    rw [lookup_overlaid hu, Option.or_eq_some_iff] at hlook
    rcases hlook with h | ⟨-, h⟩
    · have hpart := get?_viewEntries hu hp key
      rw [if_pos hvis, h] at hpart
      exact ⟨_, hpart⟩
    · have hview := get?_viewEntries hs hv key
      rw [if_pos hvis, h] at hview
      exact ⟨_, hview⟩
  obtain ⟨view', hv'⟩ := hok
  refine ⟨view', hv', fun key => ?_⟩
  have hnew := get?_viewEntries hn hv' key
  have hpart := get?_viewEntries hu hp key
  have hview := get?_viewEntries hs hv key
  rw [get?_overlay, hl]
  by_cases hvis : Visible keys key
  · rw [if_pos hvis] at hnew hpart hview
    rw [lookup_overlaid hu] at hnew
    cases hlook : Dict.lookup (.str key) update with
    | some v =>
      rw [hlook] at hpart
      rw [hlook, Option.some_or] at hnew
      have hmem : Key.str key ∈ update.map Prod.fst :=
        List.mem_map.2 ⟨_, lookup_mem hlook, rfl⟩
      rw [if_pos ⟨hmem, hvis.1⟩]
      exact Except.ok.inj (hpart.symm.trans hnew)
    | none =>
      have hmem := Dict.lookup_eq_none.1 hlook
      rw [hlook, Option.none_or] at hnew
      rw [if_neg fun h => hmem h.1]
      cases hstate : Dict.lookup (.str key) state with
      | none =>
        rw [hstate] at hnew hview
        exact hview.trans hnew.symm
      | some v =>
        rw [hstate] at hnew hview
        exact Except.ok.inj (hview.symm.trans hnew)
  · rw [if_neg hvis] at hnew hpart hview
    rw [hpart, hview, hnew, ite_self]

/-- The tracked state after an update whose view is `part`. -/
def AgUiContext.nextState (ctx : AgUiContext) (update : Py) (part : Dict String Py) :
    Dict String Py :=
  overlay ctx.stateKeys part (entriesOf update) (ctx.lastState.getD ∅)

def deltaEvents (old new : Dict String Py) : List Event :=
  if (jsonPatchDiff old new).isEmpty then [] else [.stateDelta (jsonPatchDiff old new)]

theorem stateDelta_ok (h : stateDelta update ctx = .ok evs ctx') :
    ∃ part, stateView update ctx.stateKeys = .ok part ∧
      ctx' = { ctx with lastState := some (ctx.nextState update part) } ∧
      evs = if ctx.includeStateDeltas then
        deltaEvents (ctx.lastState.getD ∅) (ctx.nextState update part) else [] := by
  obtain ⟨c, c₁, h₁, h₂⟩ := bind_ok h
  obtain ⟨rfl, rfl⟩ := get_ok h₁
  obtain ⟨part, c₂, h₃, h₄⟩ := bind_ok h₂
  obtain ⟨hpart, rfl⟩ := liftPy_ok h₃
  obtain ⟨_, c₃, h₅, h₆⟩ := bind_ok h₄
  have hc := set_ok h₅
  refine ⟨part, hpart, ?_⟩
  split at h₆
  next hd =>
    obtain ⟨rfl, rfl⟩ := pure_ok h₆
    exact ⟨hc, by rw [if_pos hd]; rfl⟩
  next hd =>
    obtain ⟨rfl, rfl⟩ := pure_ok h₆
    exact ⟨hc, by rw [if_neg hd]⟩

theorem replay_jsonPatchDiff {old new : Dict String Py} {replica : Py}
    (ho : ∀ key v, old.get? key = some v → v.isJson = true)
    (hn : ∀ key v, new.get? key = some v → v.isJson = true) (hr : replica.isJson = true)
    (heq : replica.eq (asPy old) = true) : ∃ replica',
      applyPatch 0 (jsonPatchDiff old new) (some replica) = some (some replica') ∧
        replica'.eq (asPy new) = true ∧ replica'.isJson = true := by
  obtain ⟨-, copy', happ, heq', hcopy⟩ := diffs (asPy old) (asPy new) replica [] ""
    (isJson_dict.2 (jsonDict_asPy ho)) (isJson_dict.2 (jsonDict_asPy hn)) hr heq
    Pointer.parse_empty
  cases copy' with
  | none => cases heq'
  | some replica' => exact ⟨replica', happ, heq', hcopy _ rfl⟩

theorem view_json (hd : (Py.dict es).distinct = true) (hv : viewEntries keys es = .ok view) :
    ∀ key v, view.get? key = some v → v.isJson = true := by
  obtain ⟨hn, hvalues⟩ := Py.distinct_dict.1 hd
  intro key v h
  have hk := get?_viewEntries hn hv key
  split at hk
  · split at hk
    · rw [hk] at h
      cases h
    next w hw =>
      rw [h] at hk
      exact isJson_viewEntry (hvalues _ (lookup_mem hw)) hk
  · rw [hk] at h
    cases h

theorem stateDelta_inStep {update : List (Key × Py)} (hs : InStep ctx state replica)
    (hd : (Py.dict update).distinct = true) (h : stateDelta (.dict update) ctx = .ok evs ctx') :
    Follows replica evs ctx ctx' (overlaid state update) := by
  obtain ⟨last, view, hlast, hjson, heq, hview, hsame⟩ := hs.tracked
  have hn := (Py.distinct_dict.1 hd).1
  obtain ⟨part, hpart, rfl, rfl⟩ := stateDelta_ok h
  rw [if_pos hs.deltas]
  change viewEntries _ update = .ok part at hpart
  have hnext : ctx.nextState (.dict update) part = overlay ctx.stateKeys part update last := by
    rw [AgUiContext.nextState, hlast]
    rfl
  rw [hnext, hlast, Option.getD_some, deltaEvents]
  have hnjson : ∀ key v, (overlay ctx.stateKeys part update last).get? key = some v →
      v.isJson = true := by
    intro key v hv
    rw [get?_overlay] at hv
    split at hv
    · exact view_json hd hpart key v hv
    · exact hjson key v hv
  obtain ⟨view', hview', hsame'⟩ := view_overlaid hs.nodup hn hview hpart hsame
  obtain ⟨replica', happ, heq', hr⟩ := replay_jsonPatchDiff hjson hnjson hs.json heq
  have hin : InStep { ctx with lastState := some (overlay ctx.stateKeys part update last) }
      (overlaid state update) replica' :=
    ⟨hs.deltas, nodup_overlaid update hs.nodup, hr, _, view', rfl, hnjson, heq', hview', hsame'⟩
  split
  next hempty =>
    rw [List.isEmpty_iff.1 hempty] at happ
    cases happ
    exact ⟨[], replica, rfl, rfl, hin, rfl⟩
  · refine ⟨[_], replica', rfl, ?_, hin, rfl⟩
    rw [replay, happ]
    rfl

def writtenBy (ns : List String) : Py → List (List (Key × Py))
  | .dict update => if ns.isEmpty then [update] else []
  | _ => []

def nodeUpdate (ns : List String) (e : Key × Py) : List (List (Key × Py)) :=
  if e.1 = .str "__interrupt__" then [] else writtenBy ns e.2

def payloadUpdates (ns : List String) (mode : String) : Payload → List (List (Key × Py))
  | .data (.dict nodes) => if mode = "updates" then nodes.flatMap (nodeUpdate ns) else []
  | _ => []

def rootUpdates (chunk : Chunk) : List (List (Key × Py)) :=
  match split chunk with
  | .ok (ns, mode, payload) => payloadUpdates ns mode payload
  | .error _ => []

def overlayAll (state : List (Key × Py)) (updates : List (List (Key × Py))) : List (Key × Py) :=
  updates.foldl overlaid state

def Chunk.Distinct (chunk : Chunk) : Prop :=
  ∀ update ∈ rootUpdates chunk, (Py.dict update).distinct = true

theorem changes_follows (hs : InStep ctx state replica)
    (hd : ∀ update ∈ writtenBy ns v, (Py.dict update).distinct = true)
    (h : changes ns v ctx = .ok evs ctx') :
    Follows replica evs ctx ctx' (overlayAll state (writtenBy ns v)) := by
  rw [changes] at h
  split at h
  next hc =>
    obtain ⟨delta, ctx₁, h₁, h₂⟩ := bind_ok h
    obtain ⟨customs, ctx₂, h₃, h₄⟩ := bind_ok h₂
    obtain ⟨rfl, rfl⟩ := pure_ok h₄
    cases v with
    | dict update =>
      have hw : writtenBy ns (.dict update) = [update] := if_pos hc.2
      rw [hw] at hd ⊢
      apply (stateDelta_inStep hs (hd update List.mem_cons_self) h₁).trans
      intro replica₁ hs₁
      obtain ⟨ht, hn⟩ := silent_metadataCustoms _ _ _ _ h₃
      exact hs₁.silent ht hn
    | rogue name =>
      obtain ⟨part, hpart, -⟩ := stateDelta_ok h₁
      cases hpart
    | _ => cases hc.1
  next hc =>
    obtain ⟨rfl, rfl⟩ := pure_ok h
    have hnone : writtenBy ns v = [] := by
      cases v with
      | dict update => exact if_neg fun he => hc ⟨rfl, he⟩
      | _ => rfl
    rw [hnone]
    exact hs.silent rfl rfl

theorem updateNode_follows (hs : InStep ctx state replica)
    (hd : ∀ update ∈ nodeUpdate ns (node, v), (Py.dict update).distinct = true)
    (h : updateNode ns node v ctx = .ok evs ctx') :
    Follows replica evs ctx ctx' (overlayAll state (nodeUpdate ns (node, v))) := by
  rw [updateNode] at h
  split at h
  next hnode =>
    obtain ⟨_, ctx₁, h₁, h₂⟩ := bind_ok h
    obtain ⟨rfl, rfl⟩ := pure_ok h₂
    obtain ⟨ht, -⟩ := still_recordInterrupts _ _ _ _ h₁
    have hnone : nodeUpdate ns (node, v) = [] := if_pos hnode
    rw [hnone]
    exact hs.silent ht rfl
  next hnode =>
    obtain ⟨closed, ctx₁, h₁, h₂⟩ := bind_ok h
    obtain ⟨rfl, rfl⟩ := emit_ok h₁
    obtain ⟨changed, ctx₂, h₃, h₄⟩ := bind_ok h₂
    obtain ⟨rfl, rfl⟩ := pure_ok h₄
    obtain ⟨ht, hn⟩ := closeOwner_tracking ctx (owner ns node.name)
    have hwritten : nodeUpdate ns (node, v) = writtenBy ns v := if_neg hnode
    rw [hwritten] at hd ⊢
    rw [List.append_assoc, List.append_assoc]
    apply (hs.silent ht hn).trans
    intro replica₁ hs₁
    have hstart : Follows replica₁ [.stepStarted node.render] (closeOwner ctx
        (owner ns node.name)).2 (closeOwner ctx (owner ns node.name)).2 state := hs₁.silent rfl rfl
    apply hstart.trans
    intro replica₂ hs₂
    apply (changes_follows hs₂ hd h₃).trans
    intro replica₃ hs₃
    exact hs₃.silent rfl rfl

theorem updateNodes_follows {nodes : List (Key × Py)} (hs : InStep ctx state replica)
    (hd : ∀ update ∈ nodes.flatMap (nodeUpdate ns), (Py.dict update).distinct = true)
    (h : updateNodes ns nodes ctx = .ok evs ctx') :
    Follows replica evs ctx ctx' (overlayAll state (nodes.flatMap (nodeUpdate ns))) := by
  induction nodes generalizing ctx state replica evs with
  | nil =>
    obtain ⟨rfl, rfl⟩ := pure_ok h
    exact hs.silent rfl rfl
  | cons e nodes ih =>
    obtain ⟨node, v⟩ := e
    obtain ⟨first, ctx₁, h₁, h₂⟩ := bind_ok h
    obtain ⟨rest, ctx₂, h₃, h₄⟩ := bind_ok h₂
    obtain ⟨rfl, rfl⟩ := pure_ok h₄
    rw [List.flatMap_cons] at hd ⊢
    rw [overlayAll, List.foldl_append]
    apply (updateNode_follows hs (fun u hu => hd u (List.mem_append_left _ hu)) h₁).trans
    intro replica₁ hs₁
    exact ih hs₁ (fun u hu => hd u (List.mem_append_right _ hu)) h₃

theorem payloadUpdates_other (hm : mode ≠ "updates") (payload : Payload) :
    payloadUpdates ns mode payload = [] := by
  rw [payloadUpdates.eq_def]
  split
  · exact if_neg hm
  · rfl

theorem translate_ok (hs : split chunk = .ok (ns, mode, payload))
    (h : translate chunk ctx = .ok evs ctx') :
    ∃ result ctx₁, dispatch ns mode payload ctx = .ok result ctx₁ ∧
      ((result = some evs ∧ ctx' = ctx₁) ∨
        (result = none ∧ raw mode payload (sourceOf mode) ctx₁ = .ok evs ctx')) := by
  rw [translate, hs] at h
  obtain ⟨result, ctx₁, h₁, h₂⟩ := bind_ok h
  refine ⟨result, ctx₁, h₁, ?_⟩
  cases result with
  | some ys =>
    obtain ⟨rfl, rfl⟩ := pure_ok h₂
    exact .inl ⟨rfl, rfl⟩
  | none => exact .inr ⟨rfl, h₂⟩

theorem silent_dispatch (hm : mode ≠ "updates") (ns : List String) (payload : Payload) :
    SilentOpt (dispatch ns mode payload) := by
  unfold dispatch
  split
  · exact silent_messages ns payload
  · split
    · exact silent_some (silent_custom payload)
    · exact .pure fun _ he => by cases he

theorem InStep.answer (hs : InStep ctx state replica) (ht : ctx₁.tracking = ctx.tracking)
    (hn : ∀ xs, result = some xs → NoState xs)
    (h : (result = some evs ∧ ctx' = ctx₁) ∨
      (result = none ∧ raw mode payload (sourceOf mode) ctx₁ = .ok evs ctx')) :
    Follows replica evs ctx ctx' state := by
  rcases h with ⟨he, rfl⟩ | ⟨-, hr⟩
  · exact hs.silent ht (hn evs he)
  · obtain ⟨ht', hn'⟩ := silent_raw _ _ _ _ _ _ hr
    exact hs.silent (ht'.trans ht) hn'

theorem updates_follows (hs : InStep ctx state replica)
    (hd : ∀ update ∈ payloadUpdates ns "updates" payload, (Py.dict update).distinct = true)
    (h : updates ns payload ctx = .ok result ctx₁)
    (hr : (result = some evs ∧ ctx' = ctx₁) ∨
      (result = none ∧ raw "updates" payload (sourceOf "updates") ctx₁ = .ok evs ctx')) :
    Follows replica evs ctx ctx' (overlayAll state (payloadUpdates ns "updates" payload)) := by
  rw [updates.eq_def] at h
  split at h
  next nodes =>
    obtain ⟨ys, ctx₂, h₁, h₂⟩ := bind_ok h
    obtain ⟨rfl, rfl⟩ := pure_ok h₂
    rcases hr with ⟨he, rfl⟩ | ⟨he, -⟩
    · cases he
      exact updateNodes_follows hs hd h₁
    · cases he
  · cases h
  next =>
    obtain ⟨rfl, rfl⟩ := pure_ok h
    have hnil : payloadUpdates ns "updates" payload = [] := by
      rw [payloadUpdates.eq_def]
      split
      next nodes hdict _ => exact (hdict nodes rfl).elim
      · rfl
    rw [hnil]
    exact hs.answer rfl (fun _ he => by cases he) hr

theorem translate_follows (hs : InStep ctx state replica) (hd : chunk.Distinct)
    (h : translate chunk ctx = .ok evs ctx') :
    Follows replica evs ctx ctx' (overlayAll state (rootUpdates chunk)) := by
  rw [Chunk.Distinct] at hd
  rw [rootUpdates] at hd ⊢
  cases hsplit : split chunk with
  | error v =>
    rw [translate, hsplit] at h
    obtain ⟨ht, hn⟩ := silent_raw _ _ _ _ _ _ h
    exact hs.silent ht hn
  | ok parts =>
    obtain ⟨ns, mode, payload⟩ := parts
    rw [hsplit] at hd
    obtain ⟨result, ctx₁, h₁, h₂⟩ := translate_ok hsplit h
    by_cases hm : mode = "updates"
    · subst hm
      exact updates_follows hs hd h₁ h₂
    · obtain ⟨ht, hn⟩ := silent_dispatch hm ns payload _ _ _ h₁
      dsimp only
      rw [payloadUpdates_other hm]
      exact hs.answer ht hn h₂

def translateAll : List Chunk → Tr (List Event)
  | [] => pure []
  | chunk :: chunks => do
    let first ← translate chunk
    let rest ← translateAll chunks
    return first ++ rest

theorem translateAll_follows {chunks : List Chunk} (hs : InStep ctx state replica)
    (hd : ∀ chunk ∈ chunks, chunk.Distinct) (h : translateAll chunks ctx = .ok evs ctx') :
    Follows replica evs ctx ctx' (overlayAll state (chunks.flatMap rootUpdates)) := by
  induction chunks generalizing ctx state replica evs with
  | nil =>
    obtain ⟨rfl, rfl⟩ := pure_ok h
    exact hs.silent rfl rfl
  | cons chunk chunks ih =>
    obtain ⟨first, ctx₁, h₁, h₂⟩ := bind_ok h
    obtain ⟨rest, ctx₂, h₃, h₄⟩ := bind_ok h₂
    obtain ⟨rfl, rfl⟩ := pure_ok h₄
    rw [List.flatMap_cons, overlayAll, List.foldl_append]
    apply (translate_follows hs (hd chunk List.mem_cons_self) h₁).trans
    intro replica₁ hs₁
    exact ih hs₁ (fun c hc => hd c (List.mem_cons_of_mem _ hc)) h₃

/-- `start_run` and then every chunk. -/
def clientRun (initialState : Py) (input : Option Py) (chunks : List Chunk) : Tr (List Event) := do
  let started ← startRun initialState input
  let streamed ← translateAll chunks
  return started ++ streamed

theorem still_rememberKeys (md : Py) (keys : List (String × String)) :
    Still (rememberKeys md keys) := by
  induction keys with
  | nil => exact .pure trivial
  | cons key keys ih =>
    refine Keeps.bind (still_liftPy _) fun v _ => ?_
    cases v with
    | none => exact ih
    | some v =>
      refine Keeps.bind (still_liftPy _) fun _ _ => ?_
      exact Keeps.bind (still_modify fun _ => rfl) fun _ _ => ih

theorem still_rememberMetadata (state : Py) : Still (rememberMetadata state) := by
  refine Keeps.bind (still_liftPy _) fun md _ => ?_
  cases md with
  | none => exact .pure trivial
  | some md =>
    dsimp only
    split
    · exact still_rememberKeys md _
    · exact .pure trivial

theorem startRun_inStep (hdeltas : ctx.includeStateDeltas = true)
    (hd : initialState.distinct = true) (h : startRun initialState input ctx = .ok evs ctx') :
    ∃ snapshot, evs.filterMap Event.stateEvent = [.stateSnapshot snapshot] ∧
      InStep ctx' (entriesOf initialState) (asPy snapshot) ∧ ctx'.stateKeys = ctx.stateKeys := by
  obtain ⟨c, c₁, h₁, h₂⟩ := bind_ok h
  obtain ⟨rfl, rfl⟩ := get_ok h₁
  obtain ⟨input', c₂, h₃, h₄⟩ := bind_ok h₂
  obtain ⟨view, c₃, h₅, h₆⟩ := bind_ok h₄
  obtain ⟨hview, rfl⟩ := liftPy_ok h₅
  obtain ⟨_, c₄, h₇, h₈⟩ := bind_ok h₆
  obtain ⟨_, c₅, h₉, h₁₀⟩ := bind_ok h₈
  obtain ⟨rfl, rfl⟩ := pure_ok h₁₀
  obtain ⟨ht, -⟩ := still_safeOption _ _ _ _ h₃
  obtain ⟨ht', -⟩ := still_rememberMetadata _ _ _ _ h₉
  have hmod := modify_ok h₇
  have hentries : viewEntries c₁.stateKeys (entriesOf initialState) = .ok view ∧
      (Py.dict (entriesOf initialState)).distinct = true := by
    cases initialState with
    | dict es => exact ⟨hview, hd⟩
    | rogue name => cases hview
    | _ => exact ⟨hview, rfl⟩
  obtain ⟨hv, hdist⟩ := hentries
  have hjson := view_json hdist hv
  have hobj := isJson_dict.2 (jsonDict_asPy hjson)
  have htrack : ctx'.tracking = (some view, c₁.stateKeys, c₁.includeStateDeltas) := by
    rw [ht', hmod]
    have h' := congrArg (fun t => (some view, t.2)) ht
    exact h'
  obtain ⟨hlast, hkeys, hinc⟩ : ctx'.lastState = some view ∧ ctx'.stateKeys = c₁.stateKeys ∧
      ctx'.includeStateDeltas = c₁.includeStateDeltas := by
    simpa [AgUiContext.tracking] using htrack
  refine ⟨view, ?_, ⟨hinc.trans hdeltas, (Py.distinct_dict.1 hdist).1, hobj,
    view, view, hlast, hjson, Py.eq_refl _ hobj, hkeys ▸ hv, fun _ => rfl⟩, hkeys⟩
  rw [if_pos hdeltas]
  rfl

/-- The client's copy equals the view of the graph's state after every run that raises nothing. -/
theorem replica_in_step (ctx : AgUiContext) (initialState : Py) (input : Option Py)
    (chunks : List Chunk) (hdeltas : ctx.includeStateDeltas = true)
    (hstate : initialState.distinct = true) (hchunks : ∀ chunk ∈ chunks, chunk.Distinct)
    (h : clientRun initialState input chunks ctx = .ok evs ctx') :
    ∃ snapshot deltas replica view,
      evs.filterMap Event.stateEvent = .stateSnapshot snapshot :: deltas.map .stateDelta ∧
      replay deltas (asPy snapshot) = some replica ∧
      stateView (.dict (overlayAll (entriesOf initialState) (chunks.flatMap rootUpdates)))
        ctx.stateKeys = .ok view ∧
      replica.eq (asPy view) = true := by
  obtain ⟨started, ctx₁, h₁, h₂⟩ := bind_ok h
  obtain ⟨streamed, ctx₂, h₃, h₄⟩ := bind_ok h₂
  obtain ⟨rfl, rfl⟩ := pure_ok h₄
  obtain ⟨snapshot, hsnap, hs, hk⟩ := startRun_inStep hdeltas hstate h₁
  obtain ⟨deltas, replica, he, hr, hs', hk'⟩ := translateAll_follows hs hchunks h₃
  obtain ⟨last, view, -, hjson, heq, hview, hsame⟩ := hs'.tracked
  rw [hk', hk] at hview
  refine ⟨snapshot, deltas, replica, view, ?_, hr, hview, ?_⟩
  · rw [List.filterMap_append, hsnap, he]
    rfl
  · -- the tracked state and the view hold the same values
    have hviewjson : ∀ key v, view.get? key = some v → v.isJson = true := fun key v hv =>
      hjson key v (hsame key ▸ hv)
    apply Py.eq_trans _ _ _ heq
    rw [asPy, asPy, eq_dict_iff (jsonDict_asPy hjson) (jsonDict_asPy hviewjson)]
    intro k
    cases k with
    | str key =>
      rw [lookup_asPy, lookup_asPy]
      have hkey : Dict.lookup key last.entries = Dict.lookup key view.entries := hsame key
      rw [hkey]
      cases hl : Dict.lookup key view.entries with
      | none => trivial
      | some v => exact Py.eq_refl v (hviewjson key v hl)
    | other r =>
      rw [lookup_asPy_other, lookup_asPy_other]
      trivial

def planState : Py := .dict [(.str "current_agent", .str "planner"),
  (.str "task_plan", .dict [(.str "a/b", .int 1)]), (.str "secret", .object "Session")]

def planUpdate : Chunk := .pair "updates" (.data (.dict [(.str "worker",
  .dict [(.str "task_plan", .dict [(.str "a/b", .int 2), (.str "c", .list [])]),
    (.str "current_agent", .object "Agent")])]))

theorem replica_in_step_plan : ∃ evs ctx' snapshot deltas replica view,
    clientRun planState none [planUpdate] { runId := "r", threadId := "t" } = .ok evs ctx' ∧
    evs.filterMap Event.stateEvent = .stateSnapshot snapshot :: deltas.map .stateDelta ∧
    replay deltas (asPy snapshot) = some replica ∧
    stateView (.dict (overlayAll (entriesOf planState) ([planUpdate].flatMap rootUpdates)))
      defaultStateKeys = .ok view ∧ replica.eq (asPy view) = true := by
  have hok : raises (clientRun planState none [planUpdate] { runId := "r", threadId := "t" }) =
      false := by decide +kernel
  cases h : clientRun planState none [planUpdate] { runId := "r", threadId := "t" } with
  | error e ctx' =>
    rw [h] at hok
    cases hok
  | ok evs ctx' =>
    obtain ⟨snapshot, deltas, replica, view, h'⟩ := replica_in_step _ planState none [planUpdate]
      rfl (by decide) (by unfold Chunk.Distinct; decide) h
    exact ⟨evs, ctx', snapshot, deltas, replica, view, rfl, h'⟩

end Prismal.Events
