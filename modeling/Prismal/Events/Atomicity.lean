import Prismal.Events.Parallel

namespace Prismal.Events
open Prismal.Lib
open Branch (givenId)
set_option autoImplicit true

/-! What a chunk whose translation raises leaves behind. -/

theorem liftPy_error {x : Except PyError α} (h : liftPy x ctx = .error e ctx') :
    x = .error e ∧ ctx' = ctx := by
  cases x with
  | ok a => cases h
  | error e' =>
    cases h
    exact ⟨rfl, rfl⟩

def knownId (ctx : AgUiContext) (own : Owner) (id : Option String) : Option String :=
  (nonEmpty id).orElse fun _ => ctx.anonIds.get? own

def Named (ctx : AgUiContext) : List ToolCall → Prop
  | [] => True
  | tc :: tcs => ∃ c, nonEmpty tc.id = some c ∧
    (c ∈ ctx.openToolCalls ∨ (∃ args, jsonSafe tc.args = .ok args) → Named ctx tcs)

def Message.Untouched (ctx : AgUiContext) (own : Owner) : Message → Prop
  | .aiChunk id content tcs _ _ => ∃ m, knownId ctx own id = some m ∧ m ∈ ctx.openMessages ∧
      (textOf content = "" ∨ m ∈ ctx.openText) ∧
      ∀ tc ∈ tcs, ∃ c, givenId ctx m tc = some c ∧ c ∈ ctx.openToolCalls
  | .ai id _ tcs => ∃ m, knownId ctx own id = some m ∧ m ∈ ctx.openMessages ∧
      m ∉ ctx.openText ∧ Named ctx tcs
  | .tool _ c _ => c ∉ ctx.openToolCalls
  | .input => True

theorem messageId_cases (ctx : AgUiContext) (own : Owner) (id : Option String) :
    ∃ m ctx₁, messageId id own ctx = .ok m ctx₁ ∧
      (knownId ctx own id = some m ∧ ctx₁ = ctx ∨
        knownId ctx own id = none ∧ ctx₁.seq = ctx.seq + 1) := by
  rw [messageId, knownId]
  cases nonEmpty id with
  | some m => exact ⟨m, ctx, rfl, .inl ⟨rfl, rfl⟩⟩
  | none =>
    dsimp only [Option.orElse]
    cases ctx.anonIds.get? own with
    | some m => exact ⟨m, ctx, rfl, .inl ⟨rfl, rfl⟩⟩
    | none => exact ⟨_, _, rfl, .inr ⟨rfl, rfl⟩⟩

theorem closeMessages_seq (ctx : AgUiContext) (ms : List String) :
    (closeMessages ctx ms).2.seq = ctx.seq := by
  induction ms generalizing ctx with
  | nil => rfl
  | cons m ms ih => exact ih _

theorem openMessage_seq (ctx : AgUiContext) (m : String) (own : Owner) :
    (openMessage ctx m own).2.seq = ctx.seq := by
  rw [openMessage]
  split
  · rfl
  · exact closeMessages_seq ctx _

theorem textChunk_seq (ctx : AgUiContext) (m text : String) :
    (textChunk ctx m text).2.seq = ctx.seq := by
  rw [textChunk]
  split
  · rfl
  · split <;> rfl

/-- The entries of `tool_call_chunks` only open tool calls. -/
structure Opens (ctx ctx' : AgUiContext) : Prop where
  seq : ctx.seq ≤ ctx'.seq
  tools : ∀ c ∈ ctx.openToolCalls, c ∈ ctx'.openToolCalls
  text : ctx'.openText = ctx.openText
  messages : ctx'.openMessages = ctx.openMessages

theorem Opens.trans (h : Opens c₀ c₁) (h' : Opens c₁ c₂) : Opens c₀ c₂ :=
  ⟨h.seq.trans h'.seq, fun c hc => h'.tools c (h.tools c hc), h'.text.trans h.text,
    h'.messages.trans h.messages⟩

theorem toolChunk_opens (ctx : AgUiContext) (m : String) (tc : ToolCallChunk) :
    Opens ctx (toolChunk ctx m tc).2 := by
  have hset : ∀ (c : String), ∀ c' ∈ ctx.openToolCalls, c' ∈ ctx.openToolCalls.set c m :=
    fun c c' h => (Dict.mem_set _).2 (.inr h)
  rw [toolChunk]
  dsimp only
  split
  · exact ⟨Nat.le_succ _, hset _, rfl, rfl⟩
  · split
    · exact ⟨le_rfl, fun _ h => h, rfl, rfl⟩
    · exact ⟨le_rfl, hset _, rfl, rfl⟩

theorem toolChunks_opens (ctx : AgUiContext) (m : String) (tcs : List ToolCallChunk) :
    Opens ctx (toolChunks ctx m tcs).2 := by
  induction tcs generalizing ctx with
  | nil => exact ⟨le_rfl, fun _ h => h, rfl, rfl⟩
  | cons tc tcs ih => exact (toolChunk_opens ctx m tc).trans (ih _)

theorem toolChunk_same (ctx : AgUiContext) (m : String) (tc : ToolCallChunk) :
    (∃ c, givenId ctx m tc = some c ∧ c ∈ ctx.openToolCalls) ∧ (toolChunk ctx m tc).2 = ctx ∨
      (¬ ∃ c, givenId ctx m tc = some c ∧ c ∈ ctx.openToolCalls) ∧
        ¬ Opens (toolChunk ctx m tc).2 ctx := by
  have hg : givenId ctx m tc = (nonEmpty tc.id).orElse fun _ => ctx.toolIndex.get? (m, tc.index) :=
    rfl
  rw [toolChunk]
  dsimp only
  rw [← hg]
  cases givenId ctx m tc with
  | none =>
    refine .inr ⟨?_, fun h => Nat.not_succ_le_self _ h.seq⟩
    rintro ⟨c, hc, -⟩
    cases hc
  | some c =>
    dsimp only
    by_cases hc : c ∈ ctx.openToolCalls
    · rw [if_pos hc]
      exact .inl ⟨⟨c, rfl, hc⟩, rfl⟩
    · rw [if_neg hc]
      refine .inr ⟨?_, fun h => hc (h.tools c ((Dict.mem_set _).2 (.inl rfl)))⟩
      rintro ⟨c', hc', hin⟩
      exact hc (Option.some.inj hc' ▸ hin)

theorem toolChunks_same (ctx : AgUiContext) (m : String) (tcs : List ToolCallChunk) :
    (toolChunks ctx m tcs).2 = ctx ↔
      ∀ tc ∈ tcs, ∃ c, givenId ctx m tc = some c ∧ c ∈ ctx.openToolCalls := by
  induction tcs with
  | nil => exact ⟨fun _ tc h => absurd h List.not_mem_nil, fun _ => rfl⟩
  | cons tc tcs ih =>
    rw [List.forall_mem_cons, toolChunks]
    rcases toolChunk_same ctx m tc with ⟨hc, hsame⟩ | ⟨hc, hnot⟩
    · dsimp only
      rw [hsame, ih]
      exact ⟨fun h => ⟨hc, h⟩, fun h => h.2⟩
    · constructor
      · intro h
        have ho := toolChunks_opens (toolChunk ctx m tc).2 m tcs
        dsimp only at h
        rw [h] at ho
        exact absurd ho hnot
      · exact fun h => absurd h.1 hc

theorem openMessage_same (hm : m ∈ ctx.openMessages) (own : Owner) :
    (openMessage ctx m own).2 = ctx := by
  rw [openMessage, if_pos hm]

theorem textChunk_same (h : text = "" ∨ m ∈ ctx.openText) : (textChunk ctx m text).2 = ctx := by
  rw [textChunk]
  split
  · rfl
  next hne => rw [if_pos (h.resolve_left hne)]

theorem textChunk_opens (h : text ≠ "") (ctx : AgUiContext) (m : String) :
    m ∈ (textChunk ctx m text).2.openText := by
  rw [textChunk, if_neg h]
  split
  next hm => exact hm
  · exact Finset.mem_insert_self m _

theorem aiChunk_untouched {id : Option String}
    (h : aiChunk own id content tcs pos fin ctx = .error e ctx') :
    ctx' = ctx ↔ Message.Untouched ctx own (.aiChunk id content tcs pos fin) := by
  obtain ⟨m, c₁, hid, hcase⟩ := messageId_cases ctx own id
  have hlast : ctx' = (toolChunks (textChunk (openMessage c₁ m own).2 m (textOf content)).2 m
      tcs).2 := by
    rcases bind_error h with h₁ | ⟨m', c, h₁, h₂⟩
    · rw [hid] at h₁
      cases h₁
    · rw [hid] at h₁
      cases h₁
      rcases bind_error h₂ with h₃ | ⟨opened, c₂, h₃, h₄⟩
      · cases h₃
      · obtain ⟨-, rfl⟩ := emit_ok h₃
        rcases bind_error h₄ with h₅ | ⟨text, c₃, h₅, h₆⟩
        · cases h₅
        · obtain ⟨-, rfl⟩ := emit_ok h₅
          rcases bind_error h₆ with h₇ | ⟨tools, c₄, h₇, h₈⟩
          · cases h₇
          · obtain ⟨-, rfl⟩ := emit_ok h₇
            rcases bind_error h₈ with h₉ | ⟨last, c₅, h₉, h₁₀⟩
            · exact (liftPy_error h₉).2
            · cases h₁₀
  have hopens := toolChunks_opens (textChunk (openMessage c₁ m own).2 m (textOf content)).2 m tcs
  constructor
  · intro heq
    rw [← hlast, heq] at hopens
    have hknown : knownId ctx own id = some m ∧ c₁ = ctx := by
      rcases hcase with hk | ⟨-, hseq⟩
      · exact hk
      · have hle := hopens.seq
        rw [textChunk_seq, openMessage_seq, hseq] at hle
        exact absurd hle (Nat.not_succ_le_self _)
    obtain ⟨hk, rfl⟩ := hknown
    have hm : m ∈ c₁.openMessages := by
      rw [hopens.messages, textChunk_openMessages]
      exact mem_openMessage c₁ m own
    rw [openMessage_same hm] at hopens hlast
    have htext : textOf content = "" ∨ m ∈ c₁.openText := by
      by_cases hempty : textOf content = ""
      · exact .inl hempty
      · right
        rw [hopens.text]
        exact textChunk_opens hempty c₁ m
    rw [textChunk_same htext, heq] at hlast
    exact ⟨m, hk, hm, htext, (toolChunks_same c₁ m tcs).1 hlast.symm⟩
  · rintro ⟨m', hk', hm, htext, htools⟩
    have hknown : m = m' ∧ c₁ = ctx := by
      rcases hcase with ⟨hk, hc⟩ | ⟨hk, -⟩
      · exact ⟨Option.some.inj (hk.symm.trans hk'), hc⟩
      · rw [hk] at hk'
        cases hk'
    obtain ⟨rfl, rfl⟩ := hknown
    rw [hlast, openMessage_same hm, textChunk_same htext]
    exact (toolChunks_same c₁ m tcs).2 htools

/-! Full messages and tool results. -/

def aiTool (m : String) (tc : ToolCall) (rest : Tr (List Event)) (c : String) :
    Tr (List Event) := do
  if c ∈ (← get).openToolCalls then rest
  else
    let args ← liftPy (jsonSafe tc.args)
    let name := if tc.name = "" then "unknown" else tc.name
    let first ← emit fun ctx => fullTool ctx m c name (jsonDumps args)
    let rest ← rest
    return first ++ rest

theorem aiTools_cons (m : String) (tc : ToolCall) (tcs : List ToolCall) :
    aiTools m (tc :: tcs) = toolCallId tc.id >>= aiTool m tc (aiTools m tcs) := rfl

theorem aiTool_eq (m : String) (tc : ToolCall) (rest : Tr (List Event)) (c : String)
    (ctx : AgUiContext) : aiTool m tc rest c ctx =
      if c ∈ ctx.openToolCalls then rest ctx
      else (liftPy (jsonSafe tc.args) >>= fun args => do
        let first ← emit fun ctx => fullTool ctx m c
          (if tc.name = "" then "unknown" else tc.name) (jsonDumps args)
        let rest ← rest
        return first ++ rest) ctx := by
  rw [aiTool]
  change (if c ∈ ctx.openToolCalls then rest else _ : Tr (List Event)) ctx = _
  split <;> rfl

/-- The messages are those of `ctx`, and its ids are not given again. -/
def Past (ctx c : AgUiContext) : Prop :=
  ctx.seq ≤ c.seq ∧ c.openMessages = ctx.openMessages ∧ c.openText = ctx.openText

theorem aiTool_past {rest : Tr (List Event)}
    (hr : Spec (Past ctx) rest (fun _ => Past ctx) fun _ => Past ctx) (m : String) (tc : ToolCall)
    (c : String) : Spec (Past ctx) (aiTool m tc rest c) (fun _ => Past ctx) fun _ => Past ctx := by
  refine Spec.bind (Q := fun _ => Past ctx) (Spec.get fun s h => h) fun s => ?_
  split
  · exact hr
  · refine Spec.bind (Q := fun _ => Past ctx) (fun s h => ?_) fun args => ?_
    · cases jsonSafe tc.args with
      | ok a => exact h
      | error e => exact h
    · refine Spec.bind (Q := fun _ => Past ctx) (fun s h => h) fun first => ?_
      exact Spec.bind hr fun rest => Spec.pure fun _ h => h

theorem aiTools_past (ctx : AgUiContext) (m : String) (tcs : List ToolCall) :
    Spec (Past ctx) (aiTools m tcs) (fun _ => Past ctx) fun _ => Past ctx := by
  induction tcs with
  | nil => exact Spec.pure fun _ h => h
  | cons tc tcs ih =>
    rw [aiTools_cons]
    refine Spec.bind (Q := fun _ => Past ctx) ?_ fun cid => aiTool_past ih m tc cid
    rw [toolCallId]
    split
    · exact Spec.pure fun _ h => h
    · exact fun c h => ⟨h.1.trans (Nat.le_succ _), h.2⟩

theorem fullTool_same (hc : c ∉ ctx.openToolCalls) (m name args : String) :
    (fullTool ctx m c name args).2 = ctx := by
  have hd : (ctx.openToolCalls.set c m).erase c = ctx.openToolCalls := Dict.erase_set_new hc m
  rw [fullTool, startTool]
  dsimp only
  rw [hd]

theorem aiTools_named (h : aiTools m tcs ctx = .error e ctx') : ctx' = ctx ↔ Named ctx tcs := by
  induction tcs with
  | nil => cases h
  | cons tc tcs ih =>
    rw [aiTools_cons, toolCallId] at h
    rw [Named]
    cases hid : nonEmpty tc.id with
    | none =>
      rw [hid] at h
      rcases bind_error h with h₁ | ⟨c, ctx₁, h₁, h₂⟩
      · cases h₁
      · cases h₁
        have hpast := (aiTool_past (aiTools_past _ m tcs) m tc _).error
          ⟨le_rfl, rfl, rfl⟩ h₂
        constructor
        · intro heq
          rw [heq] at hpast
          exact absurd hpast.1 (Nat.not_succ_le_self _)
        · rintro ⟨c, hc, -⟩
          cases hc
    | some c =>
      rw [hid] at h
      have hnamed : (∃ c', some c = some c' ∧
          (c' ∈ ctx.openToolCalls ∨ (∃ args, jsonSafe tc.args = .ok args) → Named ctx tcs)) ↔
          (c ∈ ctx.openToolCalls ∨ (∃ args, jsonSafe tc.args = .ok args) → Named ctx tcs) := by
        constructor
        · rintro ⟨c', hc', h⟩
          cases hc'
          exact h
        · exact fun h => ⟨c, rfl, h⟩
      rw [hnamed]
      change aiTool m tc (aiTools m tcs) c ctx = .error e ctx' at h
      rw [aiTool_eq] at h
      by_cases hc : c ∈ ctx.openToolCalls
      · have hrest : aiTools m tcs ctx = .error e ctx' := by
          rw [if_pos hc] at h
          exact h
        rw [ih hrest]
        exact ⟨fun hn _ => hn, fun hn => hn (.inl hc)⟩
      · rw [if_neg hc] at h
        rcases bind_error h with h₁ | ⟨args, c₁, h₁, h₂⟩
        · obtain ⟨hargs, rfl⟩ := liftPy_error h₁
          refine ⟨fun _ hn => ?_, fun _ => rfl⟩
          rcases hn with hn | ⟨args, hn⟩
          · exact absurd hn hc
          · rw [hargs] at hn
            cases hn
        · obtain ⟨hargs, rfl⟩ := liftPy_ok h₁
          have hrest : aiTools m tcs c₁ = .error e ctx' := by
            rcases bind_error h₂ with h₃ | ⟨first, c₂, h₃, h₄⟩
            · cases h₃
            · obtain ⟨-, rfl⟩ := emit_ok h₃
              rw [fullTool_same hc] at h₄
              rcases bind_error h₄ with h₅ | ⟨rest, c₃, h₅, h₆⟩
              · exact h₅
              · cases h₆
          rw [ih hrest]
          exact ⟨fun hn _ => hn, fun hn => hn (.inr ⟨args, hargs⟩)⟩

theorem fullText_past (ctx : AgUiContext) (m text : String) :
    (fullText ctx m text).2.seq = ctx.seq ∧ (fullText ctx m text).2.openMessages =
      ctx.openMessages ∧ m ∉ (fullText ctx m text).2.openText := by
  rw [fullText]
  split
  · exact ⟨rfl, rfl, Finset.notMem_erase m _⟩
  next h => split <;> exact ⟨rfl, rfl, h⟩

theorem fullText_same (h : m ∉ ctx.openText) : (fullText ctx m text).2 = ctx := by
  rw [fullText, if_neg h]
  split <;> rfl

theorem aiMessage_untouched {id : Option String}
    (h : aiMessage own id content tcs ctx = .error e ctx') :
    ctx' = ctx ↔ Message.Untouched ctx own (.ai id content tcs) := by
  obtain ⟨m, c₁, hid, hcase⟩ := messageId_cases ctx own id
  have htools : aiTools m tcs (fullText (openMessage c₁ m own).2 m (textOf content)).2 =
      .error e ctx' := by
    rcases bind_error h with h₁ | ⟨m', c, h₁, h₂⟩
    · rw [hid] at h₁
      cases h₁
    · rw [hid] at h₁
      cases h₁
      rcases bind_error h₂ with h₃ | ⟨opened, c₂, h₃, h₄⟩
      · cases h₃
      · obtain ⟨-, rfl⟩ := emit_ok h₃
        rcases bind_error h₄ with h₅ | ⟨text, c₃, h₅, h₆⟩
        · cases h₅
        · obtain ⟨-, rfl⟩ := emit_ok h₅
          rcases bind_error h₆ with h₇ | ⟨tools, c₄, h₇, h₈⟩
          · exact h₇
          · cases h₈
  have hpast := (aiTools_past _ m tcs).error ⟨le_rfl, rfl, rfl⟩ htools
  obtain ⟨hseq, hmessages, htext⟩ := fullText_past (openMessage c₁ m own).2 m (textOf content)
  constructor
  · intro heq
    rw [heq] at hpast
    have hknown : knownId ctx own id = some m ∧ c₁ = ctx := by
      rcases hcase with hk | ⟨-, hc⟩
      · exact hk
      · have hle := hpast.1
        rw [hseq, openMessage_seq, hc] at hle
        exact absurd hle (Nat.not_succ_le_self _)
    obtain ⟨hk, rfl⟩ := hknown
    have hm : m ∈ c₁.openMessages := by
      rw [hpast.2.1, hmessages]
      exact mem_openMessage c₁ m own
    have hnot : m ∉ c₁.openText := by
      rw [hpast.2.2]
      exact htext
    rw [openMessage_same hm, fullText_same hnot] at htools
    exact ⟨m, hk, hm, hnot, (aiTools_named htools).1 heq⟩
  · rintro ⟨m', hk', hm, hnot, hnamed⟩
    have hknown : m = m' ∧ c₁ = ctx := by
      rcases hcase with ⟨hk, hc⟩ | ⟨hk, -⟩
      · exact ⟨Option.some.inj (hk.symm.trans hk'), hc⟩
      · rw [hk] at hk'
        cases hk'
    obtain ⟨rfl, rfl⟩ := hknown
    rw [openMessage_same hm, fullText_same hnot] at htools
    exact (aiTools_named htools).2 hnamed

theorem toolMessage_untouched {id : Option String}
    (h : toolMessage id c content ctx = .error e ctx') :
    ctx' = ctx ↔ Message.Untouched ctx own (.tool id c content) := by
  have hclosed : ctx' = (closeTool ctx c).2 := by
    rcases bind_error h with h₁ | ⟨closed, c₁, h₁, h₂⟩
    · cases h₁
    · obtain ⟨-, rfl⟩ := emit_ok h₁
      rcases bind_error h₂ with h₃ | ⟨text, c₂, h₃, h₄⟩
      · exact (liftPy_error h₃).2
      · rcases bind_error h₄ with h₅ | ⟨m, c₃, h₅, h₆⟩
        · rw [resultId] at h₅
          cases hid : nonEmpty id with
          | some m =>
            rw [hid] at h₅
            cases h₅
          | none =>
            rw [hid] at h₅
            cases h₅
        · cases h₆
  rw [hclosed, closeTool]
  constructor
  · intro heq hc
    rw [if_pos hc] at heq
    have hsame : ctx.openToolCalls.erase c = ctx.openToolCalls :=
      congrArg AgUiContext.openToolCalls heq
    have hgone : c ∈ ctx.openToolCalls.erase c := by
      rw [hsame]
      exact hc
    exact ((Dict.mem_erase _).1 hgone).1 rfl
  · intro hc
    rw [if_neg hc]

/-! Updates. -/

def unreadable : Except PyError α → Bool
  | .ok _ => false
  | .error _ => true

def interruptValue : Py → Py
  | .interrupt v _ => v
  | v => v

def interruptId : Py → Option String
  | .interrupt _ i => nonEmpty i.asStr
  | _ => none

def itemRaises (item : Py) : Bool := unreadable (interruptOf "" (interruptValue item))

def ItemsQuiet : List Py → Prop
  | [] => True
  | item :: _ => itemRaises item = true ∧ (interruptId item).isSome = true

/-- Whether translating one `node: update` entry raises. -/
def entryRaises (keys ns : List String) (e : Key × Py) : Bool :=
  if e.1 = .str "__interrupt__" then (interruptItems e.2).any itemRaises
  else e.2.isMapping && ns.isEmpty && (unreadable (stateView e.2 keys) ||
    metadataCustom.any fun n => unreadable (channel e.2 n.1))

def reached (keys ns : List String) : List (Key × Py) → List (Key × Py)
  | [] => []
  | e :: es => e :: if entryRaises keys ns e then [] else reached keys ns es

def EntryQuiet (ctx : AgUiContext) (ns : List String) (e : Key × Py) : Prop :=
  if e.1 = .str "__interrupt__" then ItemsQuiet (interruptItems e.2)
  else ctx.messagesOf (owner ns e.1.name) none = []

abbrev Memory := Option (Dict String Py) × Dict String (Option Py)

def AgUiContext.memory (ctx : AgUiContext) : Memory := (ctx.lastState, ctx.lastMetadata)

def metadataAfter (read : String → Except PyError (Option (Option Py))) :
    List (String × String) → Dict String (Option Py) → Dict String (Option Py)
  | [], last => last
  | (key, _) :: rest, last =>
    match read key with
    | .error _ => last
    | .ok (some (some v)) =>
      metadataAfter read rest (if sameAsLast (last.get? key) v then last else last.set key (some v))
    | .ok _ => metadataAfter read rest last

/-- The memory after one entry of an `updates` payload. -/
def memoryAfter (keys ns : List String) (memory : Memory) (e : Key × Py) : Memory :=
  if e.1 ≠ .str "__interrupt__" ∧ e.2.isMapping = true ∧ ns.isEmpty = true then
    match stateView e.2 keys with
    | .error _ => memory
    | .ok part => (some (overlay keys part (entriesOf e.2) (memory.1.getD ∅)),
        metadataAfter (channel e.2) metadataCustom memory.2)
  else memory

/-- Nothing is recorded or closed up to the entry that raises, and the memory of what was sent
ends up as it began. -/
def UpdatesUntouched (ctx : AgUiContext) (ns : List String) (es : List (Key × Py)) : Prop :=
  (∀ e ∈ reached ctx.stateKeys ns es, EntryQuiet ctx ns e) ∧
    (reached ctx.stateKeys ns es).foldl (memoryAfter ctx.stateKeys ns) ctx.memory = ctx.memory

def AgUiContext.forget (ctx : AgUiContext) : AgUiContext :=
  { ctx with lastState := none, lastMetadata := ∅ }

theorem eq_of_forget {ctx ctx' : AgUiContext} (h : ctx'.forget = ctx.forget)
    (hm : ctx'.memory = ctx.memory) : ctx' = ctx := by
  have hput : ∀ c : AgUiContext,
      c = { c.forget with lastState := c.memory.1, lastMetadata := c.memory.2 } := fun _ => rfl
  rw [hput ctx', hput ctx, h, hm]

theorem liftPy_of_ok {x : Except PyError α} (h : x = .ok a) (ctx : AgUiContext) :
    liftPy x ctx = .ok a ctx := by
  rw [h]
  rfl

theorem liftPy_of_error {x : Except PyError α} (h : x = .error e) (ctx : AgUiContext) :
    liftPy x ctx = .error e ctx := by
  rw [h]
  rfl

theorem customs_left (read : String → Except PyError (Option (Option Py)))
    (names : List (String × String)) (ctx : AgUiContext) :
    left (customs read names ctx) =
        { ctx with lastMetadata := metadataAfter read names ctx.lastMetadata } ∧
      raises (customs read names ctx) = names.any fun n => unreadable (read n.1) := by
  induction names generalizing ctx with
  | nil => exact ⟨rfl, rfl⟩
  | cons n names ih =>
    obtain ⟨key, name⟩ := n
    rw [customs, metadataAfter, List.any_cons]
    cases hread : read key with
    | error e =>
      rw [bind_of_error (liftPy_of_error rfl ctx)]
      exact ⟨rfl, rfl⟩
    | ok r =>
      have hemit : emit (customStep key name r) ctx =
          .ok (customStep key name r ctx).1 (customStep key name r ctx).2 := rfl
      rw [bind_of_ok (liftPy_of_ok rfl ctx), bind_of_ok hemit, (left_map _).1, (left_map _).2,
        (ih _).1, (ih _).2]
      refine ⟨?_, rfl⟩
      cases r with
      | none => rfl
      | some value =>
        cases value with
        | none => rfl
        | some v =>
          rw [customStep]
          dsimp only
          split <;> rfl

theorem stateDelta_left (update : Py) (ctx : AgUiContext) :
    match stateView update ctx.stateKeys with
    | .error e => stateDelta update ctx = .error e ctx
    | .ok part => ∃ evs, stateDelta update ctx =
        .ok evs { ctx with lastState := some (ctx.nextState update part) } := by
  have hget : (get : Tr AgUiContext) ctx = .ok ctx ctx := rfl
  rw [stateDelta, bind_of_ok hget]
  cases hv : stateView update ctx.stateKeys with
  | error e => exact bind_of_error (liftPy_of_error rfl ctx)
  | ok part =>
    dsimp only
    rw [bind_of_ok (liftPy_of_ok rfl ctx)]
    have hset : (set { ctx with lastState := some (ctx.nextState update part) } : Tr Unit) ctx =
        .ok () { ctx with lastState := some (ctx.nextState update part) } := rfl
    change ∃ evs, (set { ctx with lastState := some (ctx.nextState update part) } >>= fun _ =>
      if ctx.includeStateDeltas then pure (if (jsonPatchDiff (ctx.lastState.getD ∅)
        (ctx.nextState update part)).isEmpty then [] else [.stateDelta (jsonPatchDiff
        (ctx.lastState.getD ∅) (ctx.nextState update part))]) else pure [] : Tr (List Event)) ctx = _
    rw [bind_of_ok hset]
    split <;> exact ⟨_, rfl⟩

theorem changes_left (ns : List String) (v : Py) (ctx : AgUiContext) (key : Key)
    (hkey : key ≠ .str "__interrupt__") :
    (left (changes ns v ctx)).memory = memoryAfter ctx.stateKeys ns ctx.memory (key, v) ∧
      (left (changes ns v ctx)).forget = ctx.forget ∧
      raises (changes ns v ctx) = entryRaises ctx.stateKeys ns (key, v) := by
  rw [memoryAfter, entryRaises, if_neg hkey]
  by_cases hm : v.isMapping = true ∧ ns.isEmpty = true
  · rw [changes, if_pos hm, if_pos ⟨hkey, hm⟩, hm.1, hm.2]
    have hdelta := stateDelta_left v ctx
    cases hv : stateView v ctx.stateKeys with
    | error e =>
      rw [hv] at hdelta
      rw [bind_of_error hdelta]
      exact ⟨rfl, rfl, rfl⟩
    | ok part =>
      rw [hv] at hdelta
      obtain ⟨evs, hdelta⟩ := hdelta
      rw [bind_of_ok hdelta, (left_map _).1, (left_map _).2, metadataCustoms_eq,
        (customs_left _ _ _).1, (customs_left _ _ _).2]
      exact ⟨rfl, rfl, rfl⟩
  · rw [changes, if_neg hm, if_neg fun h => hm h.2]
    refine ⟨rfl, rfl, ?_⟩
    have hfalse : (v.isMapping && ns.isEmpty) = false := by
      rw [Bool.and_eq_false_iff]
      by_cases hv : v.isMapping = true
      · exact .inr (Bool.eq_false_iff.2 fun h => hm ⟨hv, h⟩)
      · exact .inl (Bool.eq_false_iff.2 hv)
    rw [hfalse]
    rfl

/-- The entries of an `updates` payload only record interrupts and close messages. -/
structure Later (ctx ctx' : AgUiContext) : Prop where
  seq : ctx.seq ≤ ctx'.seq
  interrupts : ctx.interrupts.length ≤ ctx'.interrupts.length
  messages : ∀ m, m ∈ ctx'.openMessages → m ∈ ctx.openMessages

theorem Later.refl (ctx : AgUiContext) : Later ctx ctx := ⟨le_rfl, le_rfl, fun _ h => h⟩

theorem Later.trans (h : Later c₀ c₁) (h' : Later c₁ c₂) : Later c₀ c₂ :=
  ⟨h.seq.trans h'.seq, h.interrupts.trans h'.interrupts, fun m hm => h.messages m (h'.messages m hm)⟩

theorem Later.of_forget (h : ctx'.forget = ctx.forget) : Later ctx ctx' := by
  have hseq : ctx'.forget.seq = ctx.forget.seq := by rw [h]
  have hint : ctx'.forget.interrupts = ctx.forget.interrupts := by rw [h]
  have hmsg : ctx'.forget.openMessages = ctx.forget.openMessages := by rw [h]
  exact ⟨hseq.ge, (congrArg List.length hint).ge, fun m hm => hmsg ▸ hm⟩

/-- What is left of one entry, read or unreadable. -/
structure Entered (ns : List String) (ctx ctx' : AgUiContext) (e : Key × Py) : Prop where
  memory : ctx'.memory = memoryAfter ctx.stateKeys ns ctx.memory e
  keys : ctx'.stateKeys = ctx.stateKeys
  later : Later ctx ctx'
  quiet : EntryQuiet ctx ns e → ctx'.forget = ctx.forget
  moved : Later ctx' ctx → EntryQuiet ctx ns e

def recordAs (value : Py) (iid : String) : Tr Unit := do
  let entry ← liftPy (interruptOf iid value)
  modify fun ctx => { ctx with interrupts := ctx.interrupts ++ [entry] }

theorem recordInterrupt_eq (item : Py) : recordInterrupt item =
    match interruptId item with
    | some iid => recordAs (interruptValue item) iid
    | none => nextId "interrupt" >>= recordAs (interruptValue item) := by
  cases item with
  | interrupt v i =>
    rw [recordInterrupt, interruptId]
    dsimp only
    cases nonEmpty i.asStr <;> rfl
  | _ => rfl

theorem unreadable_interruptOf (iid : String) (v : Py) :
    unreadable (interruptOf iid v) = unreadable (interruptOf "" v) := by
  have hb := both_interruptOf iid "" v
  cases h : interruptOf iid v with
  | ok a =>
    rw [h] at hb
    cases h' : interruptOf "" v with
    | ok b => rfl
    | error e =>
      rw [h'] at hb
      exact hb.elim
  | error e =>
    rw [h] at hb
    cases h' : interruptOf "" v with
    | ok b =>
      rw [h'] at hb
      exact hb.elim
    | error e => rfl

theorem recordAs_left (v : Py) (iid : String) (ctx : AgUiContext) :
    raises (recordAs v iid ctx) = unreadable (interruptOf "" v) ∧
      (unreadable (interruptOf "" v) = true ∧ left (recordAs v iid ctx) = ctx ∨
        unreadable (interruptOf "" v) = false ∧ ∃ entry, left (recordAs v iid ctx) =
          { ctx with interrupts := ctx.interrupts ++ [entry] }) := by
  rw [← unreadable_interruptOf iid v, recordAs]
  cases h : interruptOf iid v with
  | ok entry =>
    rw [bind_of_ok (liftPy_of_ok rfl ctx)]
    exact ⟨rfl, .inr ⟨rfl, entry, rfl⟩⟩
  | error e =>
    rw [bind_of_error (liftPy_of_error rfl ctx)]
    exact ⟨rfl, .inl ⟨rfl, rfl⟩⟩

/-- What is left after some interrupts, when `Nothing` is the condition that nothing happens. -/
structure Recorded (ctx ctx' : AgUiContext) (Nothing : Prop) : Prop where
  memory : ctx'.memory = ctx.memory
  keys : ctx'.stateKeys = ctx.stateKeys
  later : Later ctx ctx'
  quiet : Nothing → ctx' = ctx
  moved : Later ctx' ctx → Nothing

theorem recordInterrupt_left (item : Py) (ctx : AgUiContext) :
    raises (recordInterrupt item ctx) = itemRaises item ∧
      Recorded ctx (left (recordInterrupt item ctx))
        (itemRaises item = true ∧ (interruptId item).isSome = true) := by
  have hgrow : ∀ (c : AgUiContext) (entry : Interrupt),
      ¬ (c.interrupts ++ [entry]).length ≤ c.interrupts.length := by
    intro c entry h
    rw [List.length_append, List.length_singleton] at h
    omega
  rw [recordInterrupt_eq, itemRaises]
  cases hid : interruptId item with
  | some iid =>
    dsimp only
    obtain ⟨hr, ⟨hu, hsame⟩ | ⟨hu, entry, hentry⟩⟩ := recordAs_left (interruptValue item) iid ctx
    · refine ⟨hr, ?_⟩
      rw [hsame]
      exact ⟨rfl, rfl, .refl ctx, fun _ => rfl, fun _ => ⟨hu, rfl⟩⟩
    · refine ⟨hr, ?_⟩
      rw [hentry]
      refine ⟨rfl, rfl, ⟨le_rfl, ?_, fun _ h => h⟩, ?_, fun h => (hgrow ctx entry h.interrupts).elim⟩
      · exact (List.prefix_append _ _).length_le
      · rintro ⟨hu', -⟩
        rw [hu] at hu'
        cases hu'
  | none =>
    dsimp only
    have hnext : nextId "interrupt" ctx = .ok (ctx.freshId "interrupt")
        { ctx with seq := ctx.seq + 1 } := rfl
    rw [bind_of_ok hnext]
    have hnone : ∀ c : AgUiContext, c.seq = ctx.seq + 1 → ¬ Later c ctx := by
      intro c hc h
      have hle := h.seq
      omega
    obtain ⟨hr, ⟨hu, hsame⟩ | ⟨hu, entry, hentry⟩⟩ := recordAs_left (interruptValue item)
      (ctx.freshId "interrupt") { ctx with seq := ctx.seq + 1 }
    · refine ⟨hr, ?_⟩
      rw [hsame]
      refine ⟨rfl, rfl, ⟨Nat.le_succ _, le_rfl, fun _ h => h⟩, ?_, fun h => (hnone _ rfl h).elim⟩
      rintro ⟨-, hsome⟩
      cases hsome
    · refine ⟨hr, ?_⟩
      rw [hentry]
      refine ⟨rfl, rfl, ⟨Nat.le_succ _, ?_, fun _ h => h⟩, ?_, fun h => (hnone _ rfl h).elim⟩
      · exact (List.prefix_append _ _).length_le
      · rintro ⟨-, hsome⟩
        cases hsome

theorem recordInterrupts_left (items : List Py) (ctx : AgUiContext) :
    raises (recordInterrupts items ctx) = items.any itemRaises ∧
      Recorded ctx (left (recordInterrupts items ctx)) (ItemsQuiet items) := by
  induction items generalizing ctx with
  | nil => exact ⟨rfl, rfl, rfl, .refl ctx, fun _ => rfl, fun _ => trivial⟩
  | cons item items ih =>
    obtain ⟨hr, hrec⟩ := recordInterrupt_left item ctx
    rw [recordInterrupts, List.any_cons, ItemsQuiet]
    cases h : recordInterrupt item ctx with
    | error e c₁ =>
      rw [h] at hr hrec
      rw [bind_of_error h]
      refine ⟨?_, hrec⟩
      rw [← hr]
      rfl
    | ok u c₁ =>
      rw [h] at hr hrec
      rw [bind_of_ok h, ← hr]
      obtain ⟨hr', hrec'⟩ := ih c₁
      have hnot : ¬ Later c₁ ctx := by
        intro hl
        have hquiet := (hrec.moved hl).1
        rw [← hr] at hquiet
        cases hquiet
      refine ⟨hr', hrec'.memory.trans hrec.memory, hrec'.keys.trans hrec.keys,
        hrec.later.trans hrec'.later, ?_, fun hl => ?_⟩
      · rintro ⟨hquiet, -⟩
        cases hquiet
      · exact (hnot (hrec'.later.trans hl)).elim

theorem closeMessages_later (ctx : AgUiContext) (ms : List String) :
    Later ctx (closeMessages ctx ms).2 := by
  induction ms generalizing ctx with
  | nil => exact .refl ctx
  | cons m ms ih =>
    have hone : Later ctx (closeMessage ctx m).2 :=
      ⟨le_rfl, le_rfl, fun _ h => ((Dict.mem_erase _).1 h).2⟩
    exact hone.trans (ih _)

theorem closeMessages_memory (ctx : AgUiContext) (ms : List String) :
    (closeMessages ctx ms).2.memory = ctx.memory ∧
      (closeMessages ctx ms).2.stateKeys = ctx.stateKeys := by
  induction ms generalizing ctx with
  | nil => exact ⟨rfl, rfl⟩
  | cons m ms ih => exact ih (closeMessage ctx m).2

theorem updateNode_left (ns : List String) (e : Key × Py) (ctx : AgUiContext) :
    raises (updateNode ns e.1 e.2 ctx) = entryRaises ctx.stateKeys ns e ∧
      Entered ns ctx (left (updateNode ns e.1 e.2 ctx)) e := by
  obtain ⟨key, v⟩ := e
  by_cases hkey : key = .str "__interrupt__"
  · rw [updateNode, if_pos hkey, (left_map _).1, (left_map _).2, entryRaises, if_pos hkey]
    obtain ⟨hr, hrec⟩ := recordInterrupts_left (interruptItems v) ctx
    have hmemory : memoryAfter ctx.stateKeys ns ctx.memory (key, v) = ctx.memory := by
      rw [memoryAfter, if_neg fun h => h.1 hkey]
    have hquiet : EntryQuiet ctx ns (key, v) ↔ ItemsQuiet (interruptItems v) := by
      rw [EntryQuiet, if_pos hkey]
    refine ⟨hr, hrec.memory.trans hmemory.symm, hrec.keys, hrec.later, fun h => ?_, fun h => ?_⟩
    · rw [hrec.quiet (hquiet.1 h)]
    · exact hquiet.2 (hrec.moved h)
  · rw [updateNode, if_neg hkey]
    have hclose : emit (fun ctx => closeOwner ctx (owner ns key.name)) ctx =
        .ok (closeOwner ctx (owner ns key.name)).1 (closeOwner ctx (owner ns key.name)).2 := rfl
    obtain ⟨hmem, hkeys⟩ := closeMessages_memory ctx (ctx.messagesOf (owner ns key.name) none)
    have hlater := closeMessages_later ctx (ctx.messagesOf (owner ns key.name) none)
    obtain ⟨hmem', hforget, hr⟩ := changes_left ns v (closeOwner ctx (owner ns key.name)).2 key hkey
    rw [bind_of_ok hclose, (left_map _).1, (left_map _).2]
    change (closeOwner ctx (owner ns key.name)).2.memory = _ at hmem
    change (closeOwner ctx (owner ns key.name)).2.stateKeys = _ at hkeys
    rw [hkeys] at hmem' hr
    rw [hmem] at hmem'
    have hquiet : EntryQuiet ctx ns (key, v) ↔ ctx.messagesOf (owner ns key.name) none = [] := by
      rw [EntryQuiet, if_neg hkey]
    refine ⟨hr, hmem', ?_, hlater.trans (.of_forget hforget), fun h => ?_, fun h => ?_⟩
    · have hsame := congrArg (fun c : AgUiContext => c.stateKeys) hforget
      exact hsame.trans hkeys
    · have hnone : (closeOwner ctx (owner ns key.name)).2 = ctx := by
        rw [closeOwner, hquiet.1 h]
        rfl
      rw [hforget, hnone]
    · rw [hquiet, List.eq_nil_iff_forall_not_mem]
      intro m hm
      have hopen := mem_messagesOf.1 hm
      have hkept : m ∈ (closeOwner ctx (owner ns key.name)).2.openMessages := by
        have hin := h.messages m (Dict.mem_iff_get?.2 ⟨_, hopen⟩)
        have hsame := congrArg (fun c : AgUiContext => c.openMessages) hforget
        change _ = (closeOwner ctx (owner ns key.name)).2.openMessages at hsame
        rw [← hsame]
        exact hin
      obtain ⟨own, hown⟩ := Dict.mem_iff_get?.1 hkept
      rw [get?_closeOwner, if_pos hopen] at hown
      cases hown

theorem entered_cons (ns : List String) (e : Key × Py) (es : List (Key × Py)) (ctx : AgUiContext) :
    left (updateNodes ns (e :: es) ctx) = if entryRaises ctx.stateKeys ns e then
      left (updateNode ns e.1 e.2 ctx)
      else left (updateNodes ns es (left (updateNode ns e.1 e.2 ctx))) := by
  have hr := (updateNode_left ns e ctx).1
  rw [updateNodes]
  cases h : updateNode ns e.1 e.2 ctx with
  | error err c₁ =>
    rw [h] at hr
    rw [bind_of_error h, ← hr]
    rfl
  | ok evs c₁ =>
    rw [h] at hr
    rw [bind_of_ok h, (left_map _).1, ← hr]
    rfl

theorem updateNodes_left (ns : List String) (es : List (Key × Py)) (ctx : AgUiContext) :
    Later ctx (left (updateNodes ns es ctx)) ∧
      (left (updateNodes ns es ctx)).memory =
        (reached ctx.stateKeys ns es).foldl (memoryAfter ctx.stateKeys ns) ctx.memory ∧
      ((left (updateNodes ns es ctx)).forget = ctx.forget ↔
        ∀ e ∈ reached ctx.stateKeys ns es, EntryQuiet ctx ns e) := by
  induction es generalizing ctx with
  | nil => exact ⟨.refl ctx, rfl, fun _ e h => absurd h List.not_mem_nil, fun _ => rfl⟩
  | cons e es ih =>
    obtain ⟨-, hentered⟩ := updateNode_left ns e ctx
    rw [entered_cons, reached, List.foldl_cons, List.forall_mem_cons]
    by_cases hr : entryRaises ctx.stateKeys ns e = true
    · rw [if_pos hr, if_pos hr]
      refine ⟨hentered.later, hentered.memory, fun h => ⟨?_, ?_⟩, fun h => hentered.quiet h.1⟩
      · exact hentered.moved (.of_forget h.symm)
      · exact fun e' h' => absurd h' List.not_mem_nil
    · rw [if_neg hr, if_neg hr]
      obtain ⟨hlater, hmem, hforget⟩ := ih (left (updateNode ns e.1 e.2 ctx))
      rw [hentered.keys, hentered.memory] at hmem
      rw [hentered.keys] at hforget
      have hquiet : (left (updateNode ns e.1 e.2 ctx)).forget = ctx.forget →
          ∀ e', EntryQuiet (left (updateNode ns e.1 e.2 ctx)) ns e' ↔ EntryQuiet ctx ns e' := by
        intro hsame e'
        have hmsg := congrArg (fun c : AgUiContext => c.openMessages) hsame
        change (left (updateNode ns e.1 e.2 ctx)).openMessages = ctx.openMessages at hmsg
        rw [EntryQuiet, EntryQuiet, AgUiContext.messagesOf, AgUiContext.messagesOf, hmsg]
      refine ⟨hentered.later.trans hlater, hmem, fun h => ?_, fun h => ?_⟩
      · have hone := hentered.moved (hlater.trans (.of_forget h.symm))
        have hsame := hentered.quiet hone
        refine ⟨hone, fun e' he' => ?_⟩
        rw [← hquiet hsame]
        exact hforget.1 (h.trans hsame.symm) e' he'
      · have hsame := hentered.quiet h.1
        rw [hforget.2 fun e' he' => (hquiet hsame e').2 (h.2 e' he'), hsame]

theorem updateNodes_untouched (ns : List String) (es : List (Key × Py)) (ctx : AgUiContext) :
    left (updateNodes ns es ctx) = ctx ↔ UpdatesUntouched ctx ns es := by
  obtain ⟨-, hmem, hforget⟩ := updateNodes_left ns es ctx
  rw [UpdatesUntouched, ← hforget, ← hmem]
  constructor
  · intro h
    rw [h]
    exact ⟨rfl, rfl⟩
  · exact fun h => eq_of_forget h.1 h.2

/-! Custom payloads. -/

theorem raw_error (h : raw mode payload source ctx = .error e ctx') : ctx' = ctx := by
  cases payload with
  | message container msg md => cases h
  | data v =>
    rw [raw] at h
    split at h
    · rcases bind_error h with h₁ | ⟨v', c, h₁, h₂⟩
      · exact (liftPy_error h₁).2
      · cases h₂
    · cases h

def EndsSubagent (ctx : AgUiContext) (v : Py) : Prop :=
  ∃ sid, subagentPhase v = .ok (some (sid, "end")) ∧ sid ∈ ctx.activeSubagents

theorem subagentPhase_dict (h : subagentPhase v = .ok (some p)) : ∃ es, v = .dict es := by
  cases v with
  | dict es => exact ⟨es, rfl⟩
  | rogue name => cases h
  | _ => cases h

theorem subagentStart_ok (es : List (Key × Py)) (sid : String) (ctx : AgUiContext) :
    raises (subagentStart (.dict es) sid ctx) = false := rfl

theorem subagentFail_ok (es : List (Key × Py)) (sid : String) (ctx : AgUiContext) :
    raises (subagentFail (.dict es) sid ctx) = false := rfl

theorem subagentEnd_left (es : List (Key × Py)) (sid : String) (ctx : AgUiContext) :
    left (subagentEnd (.dict es) sid ctx) =
      { ctx with activeSubagents := ctx.activeSubagents.erase sid } := by
  have hmodify : (modify fun c : AgUiContext =>
      { c with activeSubagents := c.activeSubagents.erase sid } : Tr Unit) ctx =
      .ok () { ctx with activeSubagents := ctx.activeSubagents.erase sid } := rfl
  have hget : (Py.dict es).get "result" = .ok (Dict.lookup (.str "result") es) := rfl
  rw [subagentEnd, bind_of_ok hmodify, bind_of_ok (liftPy_of_ok hget _), (left_map _).1]
  cases Dict.lookup (.str "result") es with
  | none => rfl
  | some v =>
    rw [safeOption, (left_map _).1]
    cases jsonSafe v <;> rfl

theorem custom_untouched (h : custom (.data v) ctx = .error e ctx') :
    ctx' = ctx ↔ ¬ EndsSubagent ctx v := by
  rw [custom] at h
  cases hp : subagentPhase v with
  | error e' =>
    rw [bind_of_error (liftPy_of_error hp ctx)] at h
    cases h
    refine ⟨fun _ => ?_, fun _ => rfl⟩
    rintro ⟨sid, hs, -⟩
    rw [hp] at hs
    cases hs
  | ok r =>
    rw [bind_of_ok (liftPy_of_ok hp ctx)] at h
    cases r with
    | none =>
      refine ⟨fun _ => ?_, fun _ => raw_error h⟩
      rintro ⟨sid, hs, -⟩
      rw [hp] at hs
      cases hs
    | some p =>
      obtain ⟨sid, phase⟩ := p
      obtain ⟨es, rfl⟩ := subagentPhase_dict hp
      have hget : (get : Tr AgUiContext) ctx = .ok ctx ctx := rfl
      dsimp only at h
      rw [bind_of_ok hget] at h
      have hends : EndsSubagent ctx (.dict es) ↔ phase = "end" ∧ sid ∈ ctx.activeSubagents := by
        constructor
        · rintro ⟨sid', hs, hin⟩
          rw [hp] at hs
          cases hs
          exact ⟨rfl, hin⟩
        · rintro ⟨rfl, hin⟩
          exact ⟨sid, hp, hin⟩
      rw [hends]
      by_cases hstart : phase = "start" ∧ ¬ decide (sid ∈ ctx.activeSubagents) = true
      · rw [if_pos hstart] at h
        have hok := subagentStart_ok es sid ctx
        rw [h] at hok
        cases hok
      · rw [if_neg hstart] at h
        by_cases hend : phase = "end" ∧ decide (sid ∈ ctx.activeSubagents) = true
        · rw [if_pos hend] at h
          have hleft := subagentEnd_left es sid ctx
          rw [h] at hleft
          have hactive := of_decide_eq_true hend.2
          refine ⟨fun hsame => ?_, fun hnot => absurd ⟨hend.1, hactive⟩ hnot⟩
          -- the sub-agent is no longer active
          have herase : ctx.activeSubagents = ctx.activeSubagents.erase sid :=
            congrArg AgUiContext.activeSubagents (hsame.symm.trans hleft)
          rw [herase] at hactive
          exact absurd rfl ((Dict.mem_erase _).1 hactive).1
        · rw [if_neg hend] at h
          have hnot : ¬ (phase = "end" ∧ sid ∈ ctx.activeSubagents) := fun hin =>
            hend ⟨hin.1, decide_eq_true hin.2⟩
          split at h
          · have hok := subagentFail_ok es sid ctx
            rw [h] at hok
            cases hok
          · exact ⟨fun _ => hnot, fun _ => raw_error h⟩

def Chunk.Untouched (ctx : AgUiContext) (chunk : Chunk) : Prop :=
  match split chunk with
  | .error _ => True
  | .ok (ns, mode, payload) =>
    match payload with
    | .message _ msg md => mode = "messages" →
        ∀ node, langgraphNode md = .ok node → msg.Untouched ctx (Events.owner ns node)
    | .data v =>
      (mode = "updates" → UpdatesUntouched ctx ns (entriesOf v)) ∧
        (mode = "custom" → ¬ EndsSubagent ctx v)

theorem messages_untouched (h : messages ns (.message container msg md) ctx = .error e ctx') :
    ctx' = ctx ↔ ∀ node, langgraphNode md = .ok node → msg.Untouched ctx (owner ns node) := by
  cases hn : langgraphNode md with
  | error e' =>
    rw [messages, bind_of_error (liftPy_of_error hn ctx)] at h
    cases h
    refine ⟨fun _ node hnode => ?_, fun _ => rfl⟩
    cases hnode
  | ok node =>
    have hone : (∀ node', (Except.ok node : Except PyError _) = .ok node' →
        msg.Untouched ctx (owner ns node')) ↔ msg.Untouched ctx (owner ns node) := by
      refine ⟨fun h => h node rfl, fun h node' hnode => ?_⟩
      cases hnode
      exact h
    rw [hone]
    rw [messages, bind_of_ok (liftPy_of_ok hn ctx)] at h
    cases msg with
    | aiChunk id content tcs pos fin =>
      rcases bind_error h with h₁ | ⟨evs, c, h₁, h₂⟩
      · exact aiChunk_untouched h₁
      · cases h₂
    | ai id content tcs =>
      rcases bind_error h with h₁ | ⟨evs, c, h₁, h₂⟩
      · exact aiMessage_untouched h₁
      · cases h₂
    | tool id cid content =>
      rcases bind_error h with h₁ | ⟨evs, c, h₁, h₂⟩
      · exact toolMessage_untouched h₁
      · cases h₂
    | input => cases h

theorem updates_untouched (h : updates ns (.data v) ctx = .error e ctx') :
    ctx' = ctx ↔ UpdatesUntouched ctx ns (entriesOf v) := by
  cases v with
  | dict es =>
    rcases bind_error h with h₁ | ⟨evs, c, h₁, h₂⟩
    · have hleft := updateNodes_untouched ns es ctx
      rw [h₁] at hleft
      exact hleft
    · cases h₂
  | rogue name =>
    cases h
    refine ⟨fun _ => ⟨?_, rfl⟩, fun _ => rfl⟩
    exact fun e h => absurd h List.not_mem_nil
  | _ => cases h

theorem messages_left (h : messages ns (.data v) ctx = .error e ctx') : ctx' = ctx := by
  have hpair : ∀ md : Py, (do
      let _ ← liftPy (langgraphNode md)
      return none : Tr (Option (List Event))) ctx = .error e ctx' → ctx' = ctx := by
    intro md h
    rcases bind_error h with h₁ | ⟨node, c, h₁, h₂⟩
    · exact (liftPy_error h₁).2
    · cases h₂
  cases v with
  | list xs =>
    match xs, h with
    | [], h => cases h
    | [_], h => cases h
    | [_, md], h => exact hpair md h
    | _ :: _ :: _ :: _, h => cases h
  | tuple xs =>
    match xs, h with
    | [], h => cases h
    | [_], h => cases h
    | [_, md], h => exact hpair md h
    | _ :: _ :: _ :: _, h => cases h
  | _ => cases h

theorem dispatch_error (hs : split chunk = .ok (ns, mode, payload))
    (h : translate chunk ctx = .error e ctx') : dispatch ns mode payload ctx = .error e ctx' := by
  rw [translate, hs] at h
  rcases bind_error h with h₁ | ⟨result, c, h₁, h₂⟩
  · exact h₁
  · cases result with
    | some evs => cases h₂
    | none =>
      have hcustom : mode ≠ "custom" := by
        rintro rfl
        obtain ⟨evs, c', -, h₄⟩ := bind_ok h₁
        cases h₄
      cases payload with
      | message container msg md => cases h₂
      | data v =>
        dsimp only at h₂
        rw [raw, if_neg hcustom] at h₂
        cases h₂

theorem chunk_untouched (h : translate chunk ctx = .error e ctx') :
    ctx' = ctx ↔ chunk.Untouched ctx := by
  rw [Chunk.Untouched]
  cases hs : split chunk with
  | error v =>
    rw [translate, hs] at h
    exact ⟨fun _ => trivial, fun _ => raw_error h⟩
  | ok parts =>
    obtain ⟨ns, mode, payload⟩ := parts
    have hd := dispatch_error hs h
    rw [dispatch] at hd
    cases payload with
    | message container msg md =>
      by_cases hm : mode = "messages"
      · rw [if_pos hm] at hd
        rw [messages_untouched hd]
        exact ⟨fun h _ => h, fun h => h hm⟩
      · refine ⟨fun _ hm' => absurd hm' hm, fun _ => ?_⟩
        rw [if_neg hm] at hd
        split at hd
        · cases hd
        · split at hd <;> cases hd
    | data v =>
      by_cases hm : mode = "messages"
      · rw [if_pos hm] at hd
        have hu : mode ≠ "updates" := by
          rw [hm]
          decide
        have hc : mode ≠ "custom" := by
          rw [hm]
          decide
        exact ⟨fun _ => ⟨fun h => absurd h hu, fun h => absurd h hc⟩, fun _ => messages_left hd⟩
      · rw [if_neg hm] at hd
        by_cases hu : mode = "updates"
        · rw [if_pos hu] at hd
          rw [updates_untouched hd]
          have hc : mode ≠ "custom" := by
            rw [hu]
            decide
          exact ⟨fun h => ⟨fun _ => h, fun h => absurd h hc⟩, fun h => h.1 hu⟩
        · rw [if_neg hu] at hd
          split at hd
          next hc =>
            rcases bind_error hd with h₁ | ⟨evs, c, h₁, h₂⟩
            · rw [custom_untouched h₁]
              exact ⟨fun h => ⟨fun hu' => absurd hu' hu, fun _ => h⟩, fun h => h.2 hc⟩
            · cases h₂
          · cases hd

/-! Runs. -/

def StreamUntouched (ctx : AgUiContext) : List Chunk → Prop
  | [] => True
  | chunk :: chunks => (raises (translate chunk ctx) = true → chunk.Untouched ctx) ∧
      StreamUntouched (toAguiEvents chunk ctx).2 chunks

theorem hostStream_follows {chunks : List Chunk} (hs : InStep ctx state replica)
    (hd : ∀ chunk ∈ chunks, chunk.Distinct) (hu : StreamUntouched ctx chunks) :
    ∃ state', Follows replica (hostStream ctx chunks).1 ctx (hostStream ctx chunks).2 state' := by
  induction chunks generalizing ctx state replica with
  | nil => exact ⟨state, hs.silent rfl rfl⟩
  | cons chunk chunks ih =>
    obtain ⟨hone, hrest⟩ := hu
    have hd' : ∀ c ∈ chunks, c.Distinct := fun c hc => hd c (List.mem_cons_of_mem _ hc)
    have hfirst : ∃ state₁, Follows replica (toAguiEvents chunk ctx).1 ctx
        (toAguiEvents chunk ctx).2 state₁ := by
      rw [toAguiEvents, swallow]
      cases h : translate chunk ctx with
      | ok evs ctx₁ => exact ⟨_, translate_follows hs (hd chunk List.mem_cons_self) h⟩
      | error e ctx₁ =>
        rw [h] at hone
        have hsame := (chunk_untouched h).2 (hone rfl)
        exact ⟨state, hs.silent (by rw [hsame]) rfl⟩
    obtain ⟨state₁, deltas, replica₁, he, hr, hs₁, hk⟩ := hfirst
    obtain ⟨state₂, deltas', replica₂, he', hr', hs₂, hk'⟩ := ih hs₁ hd' hrest
    refine ⟨state₂, deltas ++ deltas', replica₂, ?_, ?_, hs₂, hk'.trans hk⟩
    · rw [hostStream, List.filterMap_append, List.map_append, he, he']
    · rw [replay_append, hr]
      exact hr'

/-- A chunk whose translation raises leaves the context as it was exactly when it is untouched;
and a client that applies the deltas of a stream whose raising chunks are all untouched holds the
state that the context tracks. -/
theorem raising_rolled_back (ctx : AgUiContext) :
    (∀ (chunk : Chunk) (ctx' : AgUiContext) (e : PyError),
      translate chunk ctx = .error e ctx' → (ctx' = ctx ↔ chunk.Untouched ctx)) ∧
    ∀ (ctx₁ : AgUiContext) (initialState : Py) (input : Option Py) (started : List Event)
      (chunks : List Chunk), ctx.includeStateDeltas = true → initialState.distinct = true →
      startRun initialState input ctx = .ok started ctx₁ → (∀ chunk ∈ chunks, chunk.Distinct) →
      StreamUntouched ctx₁ chunks → ∃ snapshot deltas replica last,
        started.filterMap Event.stateEvent = [.stateSnapshot snapshot] ∧
        (hostStream ctx₁ chunks).1.filterMap Event.stateEvent = deltas.map .stateDelta ∧
        replay deltas (asPy snapshot) = some replica ∧
        (hostStream ctx₁ chunks).2.lastState = some last ∧ replica.eq (asPy last) = true := by
  refine ⟨fun chunk ctx' e h => chunk_untouched h, ?_⟩
  intro ctx₁ initialState input started chunks hdeltas hstate hstart hchunks hu
  obtain ⟨snapshot, hsnap, hs, -⟩ := startRun_inStep hdeltas hstate hstart
  obtain ⟨state', deltas, replica, he, hr, hs', -⟩ := hostStream_follows hs hchunks hu
  obtain ⟨last, view, hlast, -, heq, -, -⟩ := hs'.tracked
  exact ⟨snapshot, deltas, replica, last, hsnap, he, hr, hlast, heq⟩

def rogueChunk (first : List (Key × Py)) : Chunk :=
  .pair "updates" (.data (.dict (first ++ [(.str "worker", .rogue "Lazy")])))

def startedContext : AgUiContext :=
  { runId := "r", threadId := "t", lastState := some ∅ }

theorem raising_rolled_back_rogue :
    startedContext = startedContext ∧ ∃ snapshot deltas replica last,
      [Event.runStarted "t" "r" none none, .stateSnapshot ∅].filterMap Event.stateEvent =
        [.stateSnapshot snapshot] ∧
      (hostStream startedContext [rogueChunk []]).1.filterMap Event.stateEvent =
        deltas.map .stateDelta ∧
      replay deltas (asPy snapshot) = some replica ∧
      (hostStream startedContext [rogueChunk []]).2.lastState = some last ∧
      replica.eq (asPy last) = true := by
  have huntouched : (rogueChunk []).Untouched startedContext := by
    refine ⟨fun _ => ⟨?_, rfl⟩, fun h => absurd h (by decide)⟩
    intro e he
    cases List.mem_singleton.1 he
    rfl
  constructor
  · exact ((raising_rolled_back startedContext).1 (rogueChunk []) startedContext .raised rfl).2
      huntouched
  · refine (raising_rolled_back { runId := "r", threadId := "t" }).2 startedContext
      (.dict []) none _
      [rogueChunk []] rfl rfl rfl ?_ ⟨fun _ => huntouched, trivial⟩
    intro chunk hchunk
    cases List.mem_singleton.1 hchunk
    unfold Chunk.Distinct
    decide

def halfTranslated : List Event × AgUiContext :=
  toAguiEvents (rogueChunk [(.str "planner", .dict [(.str "iteration_count", .int 1)])])
    startedContext

/-- Nothing is sent, and the client's copy stays without the entry that the context holds. -/
theorem raising_keeps_state :
    raises (translate (rogueChunk [(.str "planner", .dict [(.str "iteration_count", .int 1)])])
      startedContext) = true ∧ halfTranslated.1 = [] ∧ halfTranslated.2 ≠ startedContext ∧
    halfTranslated.2.lastState.any
      (fun last => (asPy last).eq (.dict [(.str "iteration_count", .int 1)])) = true ∧
    (asPy ∅).eq (.dict [(.str "iteration_count", .int 1)]) = false := by
  have hstate : halfTranslated.2.lastState.any
      (fun last => (asPy last).eq (.dict [(.str "iteration_count", .int 1)])) = true := by
    decide +kernel
  have hstart : startedContext.lastState.any
      (fun last => (asPy last).eq (.dict [(.str "iteration_count", .int 1)])) = false := by
    rfl
  refine ⟨by decide +kernel, List.isEmpty_iff.1 (by decide +kernel), fun h => ?_, hstate,
    by decide +kernel⟩
  rw [h, hstart] at hstate
  cases hstate

end Prismal.Events
