import Prismal.Events.Runs

namespace Prismal.Events
open Prismal.Lib
set_option autoImplicit true

/-! The part of a context that belongs to one branch of a run. -/

/-- A branch: its owner, its message ids and its tool-call ids. -/
structure Branch where
  owner : Owner
  messages : String → Bool
  tools : String → Bool

/-- The message and tool brackets of a context, and the keys its updates are viewed with. -/
structure Part where
  openMessages : Dict String Owner
  openText : Finset String
  openToolCalls : Dict String String
  toolIndex : Dict (String × Option Int) String
  stateKeys : List String

def AgUiContext.whole (ctx : AgUiContext) : Part :=
  ⟨ctx.openMessages, ctx.openText, ctx.openToolCalls, ctx.toolIndex, ctx.stateKeys⟩

def Part.under (part : Part) (p q : String → Bool) : Part where
  openMessages := part.openMessages.restrict p
  openText := part.openText.filter fun m => p m = true
  openToolCalls := part.openToolCalls.restrict q
  toolIndex := part.toolIndex.restrict fun k => p k.1
  stateKeys := part.stateKeys

namespace Branch

variable {b : Branch}

def inside (b : Branch) (ctx : AgUiContext) : Part := ctx.whole.under b.messages b.tools

def outside (b : Branch) (ctx : AgUiContext) : Part :=
  ctx.whole.under (fun m => !b.messages m) (fun c => !b.tools c)

/-- The messages of the branch are those of its owner, and its tool calls those of its messages. -/
structure Inv (b : Branch) (ctx : AgUiContext) : Prop where
  owners : ∀ m o, ctx.openMessages.get? m = some o → (b.messages m = true ↔ o = b.owner)
  parents : ∀ c m, ctx.openToolCalls.get? c = some m → b.tools c = b.messages m
  index : ∀ k c, ctx.toolIndex.get? k = some c → b.messages k.1 = true → b.tools c = true

theorem Inv.mono {ctx ctx' : AgUiContext} (h : b.Inv ctx)
    (hm : ∀ m o, ctx'.openMessages.get? m = some o → ctx.openMessages.get? m = some o)
    (ht : ∀ c m, ctx'.openToolCalls.get? c = some m → ctx.openToolCalls.get? c = some m)
    (hi : ∀ k c, ctx'.toolIndex.get? k = some c → ctx.toolIndex.get? k = some c) : b.Inv ctx' where
  owners := fun m o he => h.owners m o (hm m o he)
  parents := fun c m he => h.parents c m (ht c m he)
  index := fun k c he => h.index k c (hi k c he)

end Branch

def Event.bracket : Event → Bool
  | .textMessageStart _ | .textMessageContent _ _ | .textMessageEnd _ => true
  | .toolCallStart _ _ _ | .toolCallArgs _ _ | .toolCallEnd _ | .toolCallResult _ _ _ => true
  | _ => false

def Branch.mine (b : Branch) : Event → Bool
  | .textMessageStart m | .textMessageContent m _ | .textMessageEnd m => b.messages m
  | .toolCallStart c _ _ | .toolCallArgs c _ | .toolCallEnd c | .toolCallResult _ c _ => b.tools c
  | _ => false

/-- Two contexts that agree inside the branch; `o` is what the first holds outside of it. -/
structure Branch.Twin (b : Branch) (o : Part) (s t : AgUiContext) : Prop where
  inv : b.Inv s
  inv' : b.Inv t
  inside : b.inside s = b.inside t
  outside : b.outside s = o

def Branch.Local (b : Branch) (pre : AgUiContext → Prop)
    (f : AgUiContext → List Event × AgUiContext) : Prop :=
  ∀ o s t, b.Twin o s t → pre t →
    pre s ∧ (f s).1 = (f t).1 ∧ (∀ e ∈ (f s).1, b.mine e = true) ∧ b.Twin o (f s).2 (f t).2

namespace Branch

variable {b : Branch} {f g : AgUiContext → List Event × AgUiContext}

theorem Local.of (events : Part → List Event) (after : Part → Part)
    (h : ∀ s, b.Inv s → (f s).1 = events (b.inside s) ∧ b.inside (f s).2 = after (b.inside s) ∧
      b.outside (f s).2 = b.outside s ∧ b.Inv (f s).2 ∧ ∀ e ∈ (f s).1, b.mine e = true) :
    b.Local (fun _ => True) f := by
  intro o s t ht _
  obtain ⟨h₁, h₂, h₃, h₄, h₅⟩ := h s ht.inv
  obtain ⟨h₁', h₂', -, h₄', -⟩ := h t ht.inv'
  refine ⟨trivial, ?_, h₅, h₄, h₄', ?_, h₃.trans ht.outside⟩
  · rw [h₁, h₁', ht.inside]
  · rw [h₂, h₂', ht.inside]

theorem Local.comp {pre pre' : AgUiContext → Prop} (hf : b.Local pre f) (hg : b.Local pre' g) :
    b.Local (fun ctx => pre ctx ∧ pre' (f ctx).2)
      fun ctx => ((f ctx).1 ++ (g (f ctx).2).1, (g (f ctx).2).2) := by
  intro o s t ht hpre
  obtain ⟨hp, he, hm, ht₁⟩ := hf o s t ht hpre.1
  obtain ⟨hp', he', hm', ht₂⟩ := hg o _ _ ht₁ hpre.2
  refine ⟨⟨hp, hp'⟩, ?_, fun e hin => ?_, ht₂⟩
  · dsimp only
    rw [he, he']
  · rcases List.mem_append.1 hin with hin | hin
    · exact hm e hin
    · exact hm' e hin

theorem local_nothing : b.Local (fun _ => True) fun ctx => ([], ctx) :=
  fun _ _ _ ht _ => ⟨trivial, rfl, fun _ he => absurd he List.not_mem_nil, ht⟩

/-! Closing a message. -/

theorem toolCallsOf_inside {ctx : AgUiContext} (h : b.Inv ctx) (hm : b.messages m = true) :
    ctx.toolCallsOf m = ((b.inside ctx).openToolCalls.filter fun e => decide (e.2 = m)).keys := by
  have he : (b.inside ctx).openToolCalls.filter (fun e => decide (e.2 = m)) =
      ctx.openToolCalls.filter fun e => decide (e.2 = m) := by
    change (ctx.openToolCalls.restrict b.tools).filter _ = _
    rw [Dict.restrict, Dict.filter_filter]
    apply Dict.filter_congr
    intro e hin
    by_cases hparent : e.2 = m
    · have ht : b.tools e.1 = true :=
        (h.parents e.1 e.2 (Dict.get?_eq_some.2 hin)).trans (hparent ▸ hm)
      rw [ht, Bool.true_and]
    · rw [decide_eq_false hparent, Bool.and_false]
  rw [he]
  rfl

theorem mem_text_inside (ctx : AgUiContext) (hm : b.messages m = true) :
    m ∈ (b.inside ctx).openText ↔ m ∈ ctx.openText := by
  change m ∈ ctx.openText.filter _ ↔ _
  rw [Finset.mem_filter, and_iff_left hm]

theorem restrict_filter_parent {ctx : AgUiContext} {q : String → Bool}
    (h : ∀ c m', ctx.openToolCalls.get? c = some m' → q c = true → m' ≠ m) :
    (ctx.openToolCalls.filter fun e => !decide (e.2 = m)).restrict q =
      ctx.openToolCalls.restrict q := by
  apply Dict.restrict_filter_of
  intro e he hq
  rw [decide_eq_false (h e.1 e.2 (Dict.get?_eq_some.2 he) hq)]
  rfl

theorem restrict_filter_index (ctx : AgUiContext) {p : String → Bool} (hm : p m = false) :
    (ctx.toolIndex.filter fun e => !decide (e.1.1 = m)).restrict (fun k => p k.1) =
      ctx.toolIndex.restrict fun k => p k.1 := by
  apply Dict.restrict_filter_of
  intro e he hp
  have hne : e.1.1 ≠ m := by
    rintro rfl
    rw [hm] at hp
    cases hp
  rw [decide_eq_false hne]
  rfl

theorem restrict_erase_other (ctx : AgUiContext) {p : String → Bool} (hm : p m = false) :
    (ctx.openMessages.erase m).restrict p = ctx.openMessages.restrict p := by
  rw [Dict.restrict_erase, Dict.erase_of_not_mem]
  rw [Dict.mem_restrict, hm]
  exact fun h => Bool.false_ne_true h.1

theorem filter_erase_other (ctx : AgUiContext) {p : String → Bool} (hm : p m = false) :
    (ctx.openText.erase m).filter (fun m' => p m' = true) =
      ctx.openText.filter fun m' => p m' = true := by
  rw [Finset.filter_erase, Finset.erase_eq_of_notMem]
  rw [Finset.mem_filter, hm]
  exact fun h => Bool.false_ne_true h.2

theorem under_closeMessage {ctx : AgUiContext} {p q : String → Bool} (hm : p m = false)
    (h : ∀ c m', ctx.openToolCalls.get? c = some m' → q c = true → m' ≠ m) :
    (closeMessage ctx m).2.whole.under p q = ctx.whole.under p q := by
  rw [closeMessage, Part.under, Part.under]
  dsimp only [AgUiContext.whole]
  rw [restrict_erase_other ctx hm, filter_erase_other ctx hm, restrict_filter_parent h,
    restrict_filter_index ctx hm]

theorem Inv.closeMessage (hs : b.Inv s) (m : String) : b.Inv (Events.closeMessage s m).2 := by
  refine hs.mono (fun m' o he => ?_) (fun c m' he => ?_) fun k c he => ?_
  · exact ((Dict.get?_filter _ _).1 he).1
  · exact ((Dict.get?_filter _ _).1 he).1
  · exact ((Dict.get?_filter _ _).1 he).1

theorem closeMessage_mine (hs : b.Inv s) (m : String) :
    ∀ e ∈ (Events.closeMessage s m).1, b.mine e = b.messages m := by
  intro e he
  rcases List.mem_append.1 he with he | he
  · split at he
    · rw [List.mem_singleton.1 he]
      rfl
    · cases he
  · obtain ⟨c, hc, rfl⟩ := List.mem_map.1 he
    obtain ⟨m', hm', hparent⟩ := (Dict.mem_filter _ _).1 (Dict.mem_iff_keys.2 hc)
    have hself : m' = m := of_decide_eq_true hparent
    rw [← hself]
    exact hs.parents c m' hm'

theorem closeMessage_local (hm : b.messages m = true) :
    b.Local (fun _ => True) fun ctx => closeMessage ctx m := by
  refine Local.of
    (fun p => (if m ∈ p.openText then [Event.textMessageEnd m] else []) ++
      (p.openToolCalls.filter fun e => decide (e.2 = m)).keys.map Event.toolCallEnd)
    (fun p =>
      { openMessages := p.openMessages.erase m
        openText := p.openText.erase m
        openToolCalls := p.openToolCalls.filter fun e => !decide (e.2 = m)
        toolIndex := p.toolIndex.filter fun e => !decide (e.1.1 = m)
        stateKeys := p.stateKeys }) fun s hs => ⟨?_, ?_, ?_, ?_, ?_⟩
  · have htext := mem_text_inside s hm
    simp only [closeMessage, toolCallsOf_inside hs hm, htext]
  · rw [inside, inside, closeMessage, Part.under, Part.under]
    dsimp only [AgUiContext.whole]
    rw [Dict.restrict_erase, Dict.restrict_filter, Dict.restrict_filter, Finset.filter_erase]
  · rw [outside, outside]
    apply under_closeMessage
    · rw [hm]
      rfl
    · rintro c m' hget hc rfl
      rw [hs.parents c m' hget, hm] at hc
      cases hc
  · exact hs.closeMessage m
  · exact fun e he => (closeMessage_mine hs m e he).trans hm

theorem closeMessages_local {ms : List String} (hms : ∀ m ∈ ms, b.messages m = true) :
    b.Local (fun _ => True) fun ctx => closeMessages ctx ms := by
  induction ms with
  | nil => exact local_nothing
  | cons m ms ih =>
    have hrest := ih fun m' hm' => hms m' (List.mem_cons_of_mem _ hm')
    intro o s t ht _
    exact (closeMessage_local (hms m List.mem_cons_self)).comp hrest o s t ht ⟨trivial, trivial⟩ |>.imp
      (fun _ => trivial) id

theorem messagesOf_inside {ctx : AgUiContext} (h : b.Inv ctx) :
    ctx.messagesOf b.owner none = (b.inside ctx).openMessages.keys := by
  have he : (ctx.openMessages.filter fun e => decide (e.2 = b.owner ∧ some e.1 ≠ none)) =
      ctx.openMessages.restrict b.messages := by
    apply Dict.filter_congr
    intro e he
    have ho := h.owners e.1 e.2 (Dict.get?_eq_some.2 he)
    rw [Bool.eq_iff_iff, decide_eq_true_eq, ho]
    exact ⟨fun h => h.1, fun h => ⟨h, by simp⟩⟩
  rw [AgUiContext.messagesOf, he]
  rfl

theorem mem_inside_keys {ctx : AgUiContext} (h : m ∈ (b.inside ctx).openMessages.keys) :
    b.messages m = true :=
  ((Dict.mem_restrict _ _).1 (Dict.mem_iff_keys.2 h)).1

theorem closeOwner_local : b.Local (fun _ => True) fun ctx => closeOwner ctx b.owner := by
  intro o s t ht htrue
  have hms : ∀ {ctx}, b.Inv ctx →
      closeOwner ctx b.owner = closeMessages ctx (b.inside ctx).openMessages.keys := by
    intro ctx hctx
    rw [closeOwner, messagesOf_inside hctx]
  dsimp only
  rw [hms ht.inv, hms ht.inv', ← ht.inside]
  exact closeMessages_local (fun m hm => mem_inside_keys hm) o s t ht htrue

/-! Opening a message. -/

theorem recordOwner_local (hm : b.messages m = true) : b.Local (fun _ => True) fun ctx =>
    ([], { ctx with openMessages := ctx.openMessages.set m b.owner }) := by
  refine Local.of (fun _ => []) (fun p => { p with openMessages := p.openMessages.set m b.owner })
    fun s hs => ⟨rfl, ?_, ?_, ?_, fun e he => absurd he List.not_mem_nil⟩
  · rw [inside, inside, Part.under, Part.under]
    dsimp only [AgUiContext.whole]
    rw [Dict.restrict_set_pos hm]
  · rw [outside, outside, Part.under, Part.under]
    dsimp only [AgUiContext.whole]
    rw [Dict.restrict_set_neg]
    rw [hm]
    rfl
  · refine ⟨fun m' o he => ?_, hs.parents, hs.index⟩
    rw [Dict.get?_set] at he
    split at he
    next heq =>
      cases he
      subst heq
      exact ⟨fun _ => rfl, fun _ => hm⟩
    · exact hs.owners m' o he

theorem openMessage_local (hm : b.messages m = true) :
    b.Local (fun _ => True) fun ctx => openMessage ctx m b.owner := by
  intro o s t ht htrue
  have hmem : ∀ ctx : AgUiContext, m ∈ ctx.openMessages ↔ m ∈ (b.inside ctx).openMessages := by
    intro ctx
    change _ ↔ m ∈ ctx.openMessages.restrict b.messages
    rw [Dict.mem_restrict, and_iff_right hm]
  have hiff : m ∈ s.openMessages ↔ m ∈ t.openMessages := by rw [hmem s, hmem t, ht.inside]
  dsimp only
  rw [openMessage, openMessage]
  by_cases h : m ∈ s.openMessages
  · rw [if_pos h, if_pos (hiff.1 h)]
    exact local_nothing o s t ht htrue
  · rw [if_neg h, if_neg fun h' => h (hiff.2 h')]
    obtain ⟨-, he, hmine, ht'⟩ := closeOwner_local o s t ht trivial
    obtain ⟨-, -, -, ht''⟩ := recordOwner_local hm o _ _ ht' trivial
    exact ⟨trivial, he, hmine, ht''⟩

theorem Local.emits {next : AgUiContext → AgUiContext} {evs : List Event}
    (h : b.Local (fun _ => True) fun ctx => ([], next ctx)) (he : ∀ e ∈ evs, b.mine e = true) :
    b.Local (fun _ => True) fun ctx => (evs, next ctx) := by
  intro o s t ht htrue
  obtain ⟨-, -, -, ht'⟩ := h o s t ht htrue
  exact ⟨trivial, rfl, he, ht'⟩

theorem recordText_local (hm : b.messages m = true) : b.Local (fun _ => True) fun ctx =>
    ([], { ctx with openText := insert m ctx.openText }) := by
  refine Local.of (fun _ => []) (fun p => { p with openText := insert m p.openText })
    fun s hs => ⟨rfl, ?_, ?_, ⟨hs.owners, hs.parents, hs.index⟩,
      fun e he => absurd he List.not_mem_nil⟩
  · rw [inside, inside, Part.under, Part.under]
    dsimp only [AgUiContext.whole]
    rw [Finset.filter_insert, if_pos hm]
  · rw [outside, outside, Part.under, Part.under]
    dsimp only [AgUiContext.whole]
    rw [Finset.filter_insert, if_neg]
    rw [hm]
    exact Bool.false_ne_true

theorem eraseText_local (hm : b.messages m = true) : b.Local (fun _ => True) fun ctx =>
    ([], { ctx with openText := ctx.openText.erase m }) := by
  refine Local.of (fun _ => []) (fun p => { p with openText := p.openText.erase m })
    fun s hs => ⟨rfl, ?_, ?_, ⟨hs.owners, hs.parents, hs.index⟩,
      fun e he => absurd he List.not_mem_nil⟩
  · rw [inside, inside, Part.under, Part.under]
    dsimp only [AgUiContext.whole]
    rw [Finset.filter_erase]
  · rw [outside, outside, Part.under, Part.under]
    dsimp only [AgUiContext.whole]
    rw [Finset.filter_erase, Finset.erase_eq_of_notMem]
    rw [Finset.mem_filter, hm]
    exact fun h => Bool.false_ne_true h.2

theorem Twin.mem_text (h : b.Twin o s t) (hm : b.messages m = true) :
    m ∈ s.openText ↔ m ∈ t.openText := by
  rw [← mem_text_inside s hm, ← mem_text_inside t hm, h.inside]

theorem textChunk_local (hm : b.messages m = true) (text : String) :
    b.Local (fun _ => True) fun ctx => textChunk ctx m text := by
  intro o s t ht htrue
  dsimp only
  rw [textChunk, textChunk]
  have hiff := ht.mem_text hm
  by_cases htext : text = ""
  · rw [if_pos htext, if_pos htext]
    exact local_nothing o s t ht htrue
  · rw [if_neg htext, if_neg htext]
    by_cases h : m ∈ s.openText
    · rw [if_pos h, if_pos (hiff.1 h)]
      exact local_nothing.emits (by simp [mine, hm]) o s t ht htrue
    · rw [if_neg h, if_neg fun h' => h (hiff.2 h')]
      exact (recordText_local hm).emits (by simp [mine, hm]) o s t ht htrue

theorem fullText_local (hm : b.messages m = true) (text : String) :
    b.Local (fun _ => True) fun ctx => fullText ctx m text := by
  intro o s t ht htrue
  dsimp only
  rw [fullText, fullText]
  have hiff := ht.mem_text hm
  by_cases h : m ∈ s.openText
  · rw [if_pos h, if_pos (hiff.1 h)]
    exact (eraseText_local hm).emits (by simp [mine, hm]) o s t ht htrue
  · rw [if_neg h, if_neg fun h' => h (hiff.2 h')]
    by_cases htext : text = ""
    · rw [if_pos htext, if_pos htext]
      exact local_nothing o s t ht htrue
    · rw [if_neg htext, if_neg htext]
      exact local_nothing.emits (by simp [mine, hm]) o s t ht htrue

/-! Tool calls. -/

theorem recordTool_local (hm : b.messages m = true) (hc : b.tools c = true) :
    b.Local (fun _ => True) fun ctx =>
      ([], { ctx with openToolCalls := ctx.openToolCalls.set c m }) := by
  refine Local.of (fun _ => []) (fun p => { p with openToolCalls := p.openToolCalls.set c m })
    fun s hs => ⟨rfl, ?_, ?_, ⟨hs.owners, fun c' m' he => ?_, hs.index⟩,
      fun e he => absurd he List.not_mem_nil⟩
  · rw [inside, inside, Part.under, Part.under]
    dsimp only [AgUiContext.whole]
    rw [Dict.restrict_set_pos hc]
  · rw [outside, outside, Part.under, Part.under]
    dsimp only [AgUiContext.whole]
    rw [Dict.restrict_set_neg]
    rw [hc]
    rfl
  · rw [Dict.get?_set] at he
    split at he
    next heq =>
      cases he
      rw [← heq, hc, hm]
    · exact hs.parents c' m' he

theorem eraseTool_local (hc : b.tools c = true) : b.Local (fun _ => True) fun ctx =>
    ([], { ctx with openToolCalls := ctx.openToolCalls.erase c }) := by
  refine Local.of (fun _ => []) (fun p => { p with openToolCalls := p.openToolCalls.erase c })
    fun s hs => ⟨rfl, ?_, ?_, ⟨hs.owners, fun c' m' he => ?_, hs.index⟩,
      fun e he => absurd he List.not_mem_nil⟩
  · rw [inside, inside, Part.under, Part.under]
    dsimp only [AgUiContext.whole]
    rw [Dict.restrict_erase]
  · rw [outside, outside, Part.under, Part.under]
    dsimp only [AgUiContext.whole]
    rw [Dict.restrict_erase, Dict.erase_of_not_mem]
    rw [Dict.mem_restrict, hc]
    exact fun h => Bool.false_ne_true h.1
  · exact hs.parents c' m' ((Dict.get?_filter _ _).1 he).1

theorem recordIndex_local (hc : b.tools c = true) (hm : b.messages m = true) (i : Option Int) :
    b.Local (fun _ => True) fun ctx =>
      ([], { ctx with toolIndex := ctx.toolIndex.set (m, i) c }) := by
  refine Local.of (fun _ => []) (fun p => { p with toolIndex := p.toolIndex.set (m, i) c })
    fun s hs => ⟨rfl, ?_, ?_, ⟨hs.owners, hs.parents, fun k c' he hk => ?_⟩,
      fun e he => absurd he List.not_mem_nil⟩
  · rw [inside, inside, Part.under, Part.under]
    dsimp only [AgUiContext.whole]
    rw [Dict.restrict_set_pos]
    exact hm
  · rw [outside, outside, Part.under, Part.under]
    dsimp only [AgUiContext.whole]
    rw [Dict.restrict_set_neg]
    rw [hm]
    rfl
  · rw [Dict.get?_set] at he
    split at he
    · cases he
      exact hc
    · exact hs.index k c' he hk

theorem startTool_local (hm : b.messages m = true) (hc : b.tools c = true) (name args : String) :
    b.Local (fun _ => True) fun ctx => startTool ctx m c name args := by
  refine (recordTool_local hm hc).emits fun e he => ?_
  rcases List.mem_cons.1 he with rfl | he
  · exact hc
  · split at he
    · cases he
    · rw [List.mem_singleton.1 he]
      exact hc

theorem Twin.mem_tool (h : b.Twin o s t) (hc : b.tools c = true) :
    c ∈ s.openToolCalls ↔ c ∈ t.openToolCalls := by
  have hmem : ∀ ctx : AgUiContext, c ∈ ctx.openToolCalls ↔ c ∈ (b.inside ctx).openToolCalls := by
    intro ctx
    change _ ↔ c ∈ ctx.openToolCalls.restrict b.tools
    rw [Dict.mem_restrict, and_iff_right hc]
  rw [hmem s, hmem t, h.inside]

/-- The id that an entry of `tool_call_chunks` has, or had before under its index. -/
def givenId (ctx : AgUiContext) (m : String) (tc : ToolCallChunk) : Option String :=
  (nonEmpty tc.id).orElse fun _ => ctx.toolIndex.get? (m, tc.index)

theorem Twin.givenId (h : b.Twin o s t) (hm : b.messages m = true) (tc : ToolCallChunk) :
    Branch.givenId s m tc = Branch.givenId t m tc := by
  have hget : ∀ ctx : AgUiContext,
      ctx.toolIndex.get? (m, tc.index) = (b.inside ctx).toolIndex.get? (m, tc.index) := by
    intro ctx
    change _ = (ctx.toolIndex.restrict fun k => b.messages k.1).get? _
    rw [Dict.get?_restrict, if_pos hm]
  rw [Branch.givenId, Branch.givenId, hget s, hget t, h.inside]

def Tools (b : Branch) (tc : ToolCallChunk) : Prop :=
  ∀ c, nonEmpty tc.id = some c → b.tools c = true

theorem Inv.givenId {ctx : AgUiContext} (h : b.Inv ctx) (hm : b.messages m = true)
    (htc : b.Tools tc) (hc : Branch.givenId ctx m tc = some c) : b.tools c = true := by
  rw [Branch.givenId] at hc
  cases hid : nonEmpty tc.id with
  | some c' =>
    rw [hid] at hc
    cases hc
    exact htc c hid
  | none =>
    rw [hid] at hc
    exact h.index (m, tc.index) c hc hm

theorem toolChunk_local (hm : b.messages m = true) (htc : b.Tools tc) :
    b.Local (fun ctx => (givenId ctx m tc).isSome) fun ctx => toolChunk ctx m tc := by
  intro o s t ht hgiven
  have hsame := ht.givenId hm tc
  obtain ⟨c, hc⟩ := Option.isSome_iff_exists.1 hgiven
  have htool : b.tools c = true := ht.inv'.givenId hm htc hc
  have hgiven' : (givenId s m tc).isSome = true := hsame ▸ hgiven
  refine ⟨hgiven', ?_⟩
  have hcase : ∀ ctx, givenId ctx m tc = some c → toolChunk ctx m tc =
      if c ∈ ctx.openToolCalls then
        (if tc.args.getD "" = "" then [] else [.toolCallArgs c (tc.args.getD "")], ctx)
      else startTool { ctx with toolIndex := ctx.toolIndex.set (m, tc.index) c } m c
        ((nonEmpty tc.name).getD "unknown") (tc.args.getD "") := by
    intro ctx hctx
    rw [givenId] at hctx
    rw [toolChunk]
    dsimp only
    rw [hctx]
  dsimp only
  rw [hcase s (hsame.trans hc), hcase t hc]
  have hiff := ht.mem_tool htool
  by_cases h : c ∈ s.openToolCalls
  · rw [if_pos h, if_pos (hiff.1 h)]
    refine (local_nothing.emits (fun e he => ?_) o s t ht trivial).2
    split at he
    · cases he
    · rw [List.mem_singleton.1 he]
      exact htool
  · rw [if_neg h, if_neg fun h' => h (hiff.2 h')]
    obtain ⟨-, -, -, ht'⟩ := recordIndex_local htool hm tc.index o s t ht trivial
    exact (startTool_local hm htool _ _ o _ _ ht' trivial).2

/-- No id is generated for an entry of `tool_call_chunks`. -/
def ToolsGiven (ctx : AgUiContext) (m : String) : List ToolCallChunk → Prop
  | [] => True
  | tc :: tcs => (givenId ctx m tc).isSome ∧ ToolsGiven (toolChunk ctx m tc).2 m tcs

theorem toolChunks_local (hm : b.messages m = true) (htcs : ∀ tc ∈ tcs, b.Tools tc) :
    b.Local (fun ctx => ToolsGiven ctx m tcs) fun ctx => toolChunks ctx m tcs := by
  induction tcs with
  | nil => exact local_nothing
  | cons tc tcs ih =>
    exact (toolChunk_local hm (htcs tc List.mem_cons_self)).comp
      (ih fun tc' h => htcs tc' (List.mem_cons_of_mem _ h))

theorem fullTool_local (hm : b.messages m = true) (hc : b.tools c = true) (name args : String) :
    b.Local (fun _ => True) fun ctx => fullTool ctx m c name args := by
  intro o s t ht htrue
  obtain ⟨-, he, hmine, ht'⟩ := startTool_local hm hc name args o s t ht trivial
  obtain ⟨-, -, -, ht''⟩ := eraseTool_local hc o _ _ ht' trivial
  refine ⟨trivial, rfl, fun e hin => ?_, ht''⟩
  rcases List.mem_append.1 hin with hin | hin
  · exact hmine e hin
  · rw [List.mem_singleton.1 hin]
    exact hc

theorem closeTool_local (hc : b.tools c = true) :
    b.Local (fun _ => True) fun ctx => closeTool ctx c := by
  intro o s t ht htrue
  dsimp only
  rw [closeTool, closeTool]
  have hiff := ht.mem_tool hc
  by_cases h : c ∈ s.openToolCalls
  · rw [if_pos h, if_pos (hiff.1 h)]
    exact (eraseTool_local hc).emits (by simp [mine, hc]) o s t ht htrue
  · rw [if_neg h, if_neg fun h' => h (hiff.2 h')]
    exact local_nothing o s t ht htrue

end Branch

end Prismal.Events
