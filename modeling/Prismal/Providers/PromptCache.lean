import Mathlib.Algebra.BigOperators.Group.List.Basic
import Mathlib.Algebra.GroupWithZero.Nat
import Prismal.Lib.Delimiters
import Prismal.Lib.JsonText

namespace Prismal.Providers
open Prismal.Lib Json
set_option autoImplicit true

/-! The hash of a prompt's prefix, under which a provider caches it. -/

structure ToolSchema where
  entries : List (String × Tree)
  proper : wellFormed (.obj entries) = true

def ToolSchema.tree (t : ToolSchema) : Tree := .obj t.entries

/-- `stable_dumps(list(tools))` -/
def stableDumps (tools : List ToolSchema) : List Char :=
  compact.write (canon (.arr (tools.map ToolSchema.tree)))

/-- Part of a message: a text, or a mapping with its type and what `str` makes of its text. -/
inductive Block where
  | text (s : String)
  | typed (type : Option String) (shown : String)

inductive Content where
  | text (s : String)
  | blocks (bs : List Block)
  | other

structure Message where
  system : Bool
  content : Content

def Block.text? : Block → Option String
  | .text s => some s
  | .typed type shown => if type = some "text" then some shown else none

/-- `_content_text` -/
def contentText : Content → List Char
  | .text s => s.toList
  | .blocks bs => (bs.filterMap Block.text?).flatMap String.toList
  | .other => []

/-- `_system_text` -/
def systemText (messages : List Message) : List Char :=
  (messages.filter Message.system).flatMap fun m => contentText m.content

inductive CacheScope where
  | tenant
  | «global»
  deriving DecidableEq

/-- `_prefix_hash` -/
def prefixHash (sha256 : List Char → String) (tools : List ToolSchema) (system : List Char)
    (scope : CacheScope) (tenant : Option String) : String :=
  let payload := stableDumps tools ++ system
  match scope, tenant with
  | .tenant, some tenant => sha256 (payload ++ tenant.toList)
  | _, _ => sha256 payload

def SameTools (tools tools' : List ToolSchema) : Prop :=
  SameItems (tools.map ToolSchema.tree) (tools'.map ToolSchema.tree)

theorem wellFormed_tools (tools : List ToolSchema) :
    wellFormed (.arr (tools.map ToolSchema.tree)) = true := by
  induction tools with
  | nil => rfl
  | cons t tools ih =>
    rw [wellFormed] at ih ⊢
    rw [List.map_cons, wellFormedItems, ih, Bool.and_true]
    exact t.proper

theorem stableDumps_cancel (h : stableDumps a ++ r = stableDumps b ++ s) :
    stableDumps a = stableDumps b ∧ r = s := by
  have ha := wellFormed_canon _ (wellFormed_tools a)
  have hb := wellFormed_canon _ (wellFormed_tools b)
  rw [canon, wellFormed] at ha hb
  have hitems := Dialect.items_cancel (D := compact) _ _ true r s ha hb
    (List.tail_eq_of_cons_eq h)
  rw [stableDumps, stableDumps, canon, canon, hitems.1]
  exact ⟨rfl, hitems.2⟩

theorem sameTools_of_dumps (h : stableDumps a = stableDumps b) : SameTools a b :=
  compact.same_of_write (wellFormed_tools a) (wellFormed_tools b) h

theorem prefixHash_inj (hsha : Function.Injective sha256)
    (h : prefixHash sha256 tools system .tenant (some tenant) =
      prefixHash sha256 tools' system' .tenant (some tenant')) :
    stableDumps tools = stableDumps tools' ∧
      system ++ tenant.toList = system' ++ tenant'.toList := by
  have hpayload := hsha h
  rw [List.append_assoc, List.append_assoc] at hpayload
  exact stableDumps_cancel hpayload

theorem prefixHash_congr (htools : stableDumps tools = stableDumps tools')
    (happ : system ++ tenant.toList = system' ++ tenant'.toList) :
    prefixHash sha256 tools system .tenant (some tenant) =
      prefixHash sha256 tools' system' .tenant (some tenant') := by
  simp only [prefixHash, List.append_assoc, htools, happ]

/-- The hash tells two requests apart unless their tools are written alike and the boundary between
system text and tenant is shifted: part of one tenant's id ends the other's system text. -/
theorem prefixHash_isolates_iff (sha256 : List Char → String) (hsha : Function.Injective sha256)
    (tools tools' : List ToolSchema) (system system' : List Char) (tenant tenant' : String) :
    (prefixHash sha256 tools system .tenant (some tenant) =
          prefixHash sha256 tools' system' .tenant (some tenant') →
        SameTools tools tools' ∧ system = system' ∧ tenant = tenant') ↔
      ¬(stableDumps tools = stableDumps tools' ∧
        (Shifted system tenant.toList system' tenant'.toList ∨
          Shifted system' tenant'.toList system tenant.toList)) := by
  constructor
  · intro h ⟨htools, hshift⟩
    rcases hshift with hshift | hshift
    · exact hshift.ne (h (prefixHash_congr htools hshift.append)).2.1
    · exact hshift.ne (h (prefixHash_congr htools hshift.append.symm)).2.1.symm
  · intro hsplit h
    obtain ⟨htools, happ⟩ := prefixHash_inj hsha h
    rcases shifted_of_append happ with ⟨hsystem, htenant⟩ | hshift
    · exact ⟨sameTools_of_dumps htools, hsystem, String.ext htenant⟩
    · exact absurd ⟨htools, hshift⟩ hsplit

theorem prefixHash_isolates_plain :
    let sha256 : List Char → String := String.ofList
    (prefixHash sha256 [] "x".toList .tenant (some "a") =
          prefixHash sha256 [] "y".toList .tenant (some "a") →
        SameTools [] [] ∧ "x".toList = "y".toList ∧ "a" = "a") ↔
      ¬(stableDumps [] = stableDumps [] ∧
        (Shifted "x".toList "a".toList "y".toList "a".toList ∨
          Shifted "y".toList "a".toList "x".toList "a".toList)) :=
  prefixHash_isolates_iff String.ofList (fun _ _ h => String.ofList_injective h) [] []
    "x".toList "y".toList "a" "a"

/-- The requests of tenants `ab` and `b`, where the system text of the second ends in an `a`. -/
theorem prefixHash_shared :
    ¬∀ (sha256 : List Char → String), Function.Injective sha256 →
      ∀ (tools tools' : List ToolSchema) (system system' : List Char) (tenant tenant' : String),
        prefixHash sha256 tools system .tenant (some tenant) =
            prefixHash sha256 tools' system' .tenant (some tenant') →
          SameTools tools tools' ∧ system = system' ∧ tenant = tenant' := by
  intro h
  have hsame := h String.ofList (fun _ _ h => String.ofList_injective h) [] []
    (systemText [⟨true, .text "x"⟩]) (systemText [⟨true, .text "xa"⟩]) "ab" "b" rfl
  exact absurd hsame.2.2 (by decide)

end Prismal.Providers

namespace Prismal.Providers
open Prismal.Lib Json
set_option autoImplicit true

/-! Where a prompt is marked for the cache of Anthropic. -/

/-- `cache_control` -/
def markKey : String := "cache_control"

/-- A part of a message: a text, or a mapping from texts. -/
inductive ContentBlock where
  | text (s : String)
  | dict (d : Dict String Tree)
  | other

inductive MessageContent where
  | text (s : String)
  | blocks (bs : List ContentBlock)
  | other

inductive MessageKind where
  | system
  | human
  | other
  deriving DecidableEq

structure PromptMessage where
  kind : MessageKind
  content : MessageContent

abbrev ToolDict := Dict String Tree

inductive CacheTtl where
  | fiveMinutes
  | oneHour
  deriving DecidableEq

structure CachePolicy where
  ttl : CacheTtl
  maxBreakpoints : Int
  lookbackBlocks : Int

/-- The mark: `{"type": "ephemeral"}`, with its time to live where that is an hour. -/
def cacheControl (policy : CachePolicy) : Tree :=
  match policy.ttl with
  | .fiveMinutes => .obj [("type", .str "ephemeral")]
  | .oneHour => .obj [("type", .str "ephemeral"), ("ttl", .str "1h")]

def markedText (s : String) (cc : Tree) : ContentBlock :=
  .dict (Dict.collect [("type", .str "text"), ("text", .str s), (markKey, cc)])

/-- `block.get("type") == "text"` -/
def isTextDict (d : Dict String Tree) : Bool :=
  match d.get? "type" with
  | some (.str t) => decide (t = "text")
  | _ => false

def markBlock (cc : Tree) : ContentBlock → Option ContentBlock
  | .text s => some (markedText s cc)
  | .dict d => if isTextDict d then some (.dict (d.set markKey cc)) else none
  | .other => none

def markLast (cc : Tree) : List ContentBlock → Option (List ContentBlock)
  | [] => none
  | b :: bs =>
    match markLast cc bs with
    | some bs' => some (b :: bs')
    | none => (markBlock cc b).map fun b' => b' :: bs

/-- `_with_cache_control`, on the content of the message. -/
def withCacheControl (content : MessageContent) (cc : Tree) : Option MessageContent :=
  match content with
  | .text s => some (.blocks [markedText s cc])
  | .blocks bs => (markLast cc bs).map .blocks
  | .other => none

def PromptMessage.is (kind : MessageKind) (m : PromptMessage) : Bool := decide (m.kind = kind)

def lastIndex (kind : MessageKind) (messages : List PromptMessage) : Option Nat :=
  (List.range messages.length).reverse.find? fun i => (messages[i]?).any (PromptMessage.is kind)

/-- The index before the final human message, or one that `lookback` reaches from the end; where
that is the human message itself, the one after it or before it. -/
def breakpointTarget (count candidate : Nat) (lookback : Int) : Nat :=
  let target := min (max candidate (count - (max lookback 0).toNat)) (count - 1)
  if target = candidate + 1 then
    if candidate + 2 < count then candidate + 2 else candidate
  else target

/-- `_message_breakpoint_index` -/
def messageBreakpointIndex (messages : List PromptMessage) (lookback : Int) : Option Nat :=
  match lastIndex .human messages with
  | none | some 0 => none
  | some (candidate + 1) =>
    let target := breakpointTarget messages.length candidate lookback
    if (messages[target]?).any (PromptMessage.is .system) then none else some target

def markTools (cc : Tree) : List ToolDict → List ToolDict
  | [] => []
  | [t] => [t.set markKey cc]
  | t :: ts => t :: markTools cc ts

def place (cc : Tree) (budget : Nat) (index : Option Nat) (state : List PromptMessage × Nat) :
    List PromptMessage × Nat :=
  match index with
  | none => state
  | some i =>
    if state.2 < budget then
      match state.1[i]? with
      | none => state
      | some m =>
        match withCacheControl m.content cc with
        | none => state
        | some content => (state.1.set i { m with content := content }, state.2 + 1)
    else state

def placeTools (cc : Tree) (budget : Nat) (tools : List ToolDict) : List ToolDict × Nat :=
  if !tools.isEmpty && decide (0 < budget) then (markTools cc tools, 1) else (tools, 0)

/-- `_apply_anthropic`: first the tools, then the system message, then a message. -/
def applyAnthropic (messages : List PromptMessage) (tools : List ToolDict) (policy : CachePolicy) :
    List PromptMessage × List ToolDict × Nat :=
  let cc := cacheControl policy
  let budget := (max policy.maxBreakpoints 0).toNat
  let (outTools, placed) := placeTools cc budget tools
  let systemIndex := lastIndex .system messages
  let state := place cc budget systemIndex (messages, placed)
  let messageIndex := (messageBreakpointIndex state.1 policy.lookbackBlocks).filter fun i =>
    decide (some i ≠ systemIndex)
  let (outMessages, placed) := place cc budget messageIndex state
  (outMessages, outTools, placed)

/-! How many marks there are, and what is left without them. -/

def ContentBlock.marks : ContentBlock → Nat
  | .dict d => if markKey ∈ d then 1 else 0
  | _ => 0

def MessageContent.marks : MessageContent → Nat
  | .blocks bs => (bs.map ContentBlock.marks).sum
  | _ => 0

def marksIn (messages : List PromptMessage) : Nat :=
  (messages.map fun m => m.content.marks).sum

def isMarked (t : ToolDict) : Bool := decide (markKey ∈ t)

def toolMarks (tools : List ToolDict) : Nat := tools.countP isMarked

def soleText (d : Dict String Tree) : Option String :=
  match d.get? "text" with
  | some (.str s) => if isTextDict d ∧ d.entries.length = 2 then some s else none
  | _ => none

def ContentBlock.read : ContentBlock → ContentBlock
  | .dict d =>
    match soleText (d.erase markKey) with
    | some s => .text s
    | none => .dict (d.erase markKey)
  | b => b

def MessageContent.read : MessageContent → Option (List ContentBlock)
  | .text s => some [.text s]
  | .blocks bs => some (bs.map ContentBlock.read)
  | .other => none

def Erases (out m : PromptMessage) : Prop :=
  out.kind = m.kind ∧ out.content.read = m.content.read

section Marks

variable {messages : List PromptMessage} {state : List PromptMessage × Nat} {budget : Nat}

theorem markBlock_spec {b b' : ContentBlock} (hb : b.marks = 0) (h : markBlock cc b = some b') :
    b'.marks = 1 ∧ b'.read = b.read := by
  cases b with
  | other => cases h
  | text s =>
    cases h
    exact ⟨rfl, rfl⟩
  | dict d =>
    have hnew : markKey ∉ d := by
      intro hmem
      rw [ContentBlock.marks, if_pos hmem] at hb
      cases hb
    rw [markBlock] at h
    split at h
    · cases h
      apply And.intro
      · exact if_pos ((Dict.mem_set d).2 (.inl rfl))
      · rw [ContentBlock.read, ContentBlock.read, Dict.erase_set_new hnew,
          Dict.erase_of_not_mem hnew]
    · cases h

theorem markLast_spec {bs bs' : List ContentBlock} (hbs : (bs.map ContentBlock.marks).sum = 0)
    (h : markLast cc bs = some bs') :
    (bs'.map ContentBlock.marks).sum = 1 ∧
      bs'.map ContentBlock.read = bs.map ContentBlock.read := by
  induction bs generalizing bs' with
  | nil => cases h
  | cons b bs ih =>
    rw [List.map_cons, List.sum_cons, Nat.add_eq_zero_iff] at hbs
    rw [markLast] at h
    cases hrest : markLast cc bs with
    | some rest =>
      rw [hrest] at h
      cases h
      obtain ⟨hmarks, hread⟩ := ih hbs.2 hrest
      rw [List.map_cons, List.sum_cons, hbs.1, hmarks, List.map_cons, hread]
      exact ⟨rfl, rfl⟩
    | none =>
      rw [hrest] at h
      obtain ⟨b', hb', rfl⟩ := Option.map_eq_some_iff.1 h
      obtain ⟨hmarks, hread⟩ := markBlock_spec hbs.1 hb'
      rw [List.map_cons, List.sum_cons, hmarks, hbs.2, List.map_cons, hread]
      exact ⟨rfl, rfl⟩

theorem withCacheControl_spec {content content' : MessageContent} (hc : content.marks = 0)
    (h : withCacheControl content cc = some content') :
    content'.marks = 1 ∧ content'.read = content.read := by
  cases content with
  | other => cases h
  | text s =>
    cases h
    exact ⟨rfl, rfl⟩
  | blocks bs =>
    obtain ⟨bs', hbs', rfl⟩ := Option.map_eq_some_iff.1 h
    obtain ⟨hmarks, hread⟩ := markLast_spec hc hbs'
    exact ⟨hmarks, congrArg some hread⟩

theorem place_cases (cc : Tree) (budget : Nat) (index : Option Nat)
    (state : List PromptMessage × Nat) :
    place cc budget index state = state ∨
      ∃ i m content, index = some i ∧ state.1[i]? = some m ∧ state.2 < budget ∧
        withCacheControl m.content cc = some content ∧
        place cc budget index state =
          (state.1.set i { m with content := content }, state.2 + 1) := by
  cases index with
  | none => exact .inl rfl
  | some i =>
    rw [place]
    by_cases hroom : state.2 < budget
    · rw [if_pos hroom]
      cases hm : state.1[i]? with
      | none => exact .inl rfl
      | some m =>
        cases hcontent : withCacheControl m.content cc with
        | none => 
          left
          dsimp only
          rw [hcontent]
        | some content =>
          right
          refine ⟨i, m, content, rfl, hm, hroom, hcontent, ?_⟩
          dsimp only
          rw [hcontent]
    · rw [if_neg hroom]
      exact .inl rfl

theorem marksIn_set (hm : messages[i]? = some m) (hnew : m'.content.marks = 1)
    (hold : m.content.marks = 0) : marksIn (messages.set i m') = marksIn messages + 1 := by
  induction messages generalizing i with
  | nil => cases hm
  | cons first rest ih =>
    cases i with
    | zero =>
      cases hm
      rw [List.set_cons_zero, marksIn, marksIn, List.map_cons, List.sum_cons, List.map_cons,
        List.sum_cons, hnew, hold]
      omega
    | succ i =>
      have hrest := ih hm
      rw [List.set_cons_succ, marksIn, List.map_cons, List.sum_cons]
      rw [marksIn, marksIn] at hrest
      rw [hrest, marksIn, List.map_cons, List.sum_cons]
      omega

/-- What holds after some breakpoints have been placed: the count is that of the marks, it is
within the budget, and only marks tell the messages from the input. -/
structure Marked (messages : List PromptMessage) (onTools budget : Nat)
    (state : List PromptMessage × Nat) : Prop where
  count : marksIn state.1 + onTools = state.2
  within : state.2 ≤ budget
  erases : List.Forall₂ Erases state.1 messages

theorem Erases.refl (m : PromptMessage) : Erases m m := ⟨rfl, rfl⟩

theorem forall₂_set {out : List PromptMessage} (h : List.Forall₂ Erases out messages)
    (hm : out[i]? = some m) (hnew : Erases m' m) :
    List.Forall₂ Erases (out.set i m') messages := by
  induction h generalizing i with
  | nil => cases hm
  | cons hfirst hrest ih =>
    cases i with
    | zero =>
      cases hm
      exact .cons ⟨hnew.1.trans hfirst.1, hnew.2.trans hfirst.2⟩ hrest
    | succ i => exact .cons hfirst (ih hm)

theorem Marked.place (cc : Tree) (index : Option Nat)
    (h : Marked messages onTools budget state)
    (hbare : ∀ i m, index = some i → state.1[i]? = some m → m.content.marks = 0) :
    Marked messages onTools budget (place cc budget index state) ∧
      ∀ j, index ≠ some j → (place cc budget index state).1[j]? = state.1[j]? := by
  cases place_cases cc budget index state with
  | inl hsame =>
    rw [hsame]
    exact ⟨h, fun _ _ => rfl⟩
  | inr hset =>
    obtain ⟨i, m, content, rfl, hm, hroom, hcontent, hset⟩ := hset
    obtain ⟨hmarks, hread⟩ := withCacheControl_spec (hbare i m rfl hm) hcontent
    rw [hset]
    apply And.intro
    · constructor
      · have hcount := h.count
        dsimp only
        rw [marksIn_set hm hmarks (hbare i m rfl hm)]
        omega
      · exact hroom
      · exact forall₂_set h.erases hm ⟨rfl, hread⟩
    · intro j hj
      exact List.getElem?_set_ne fun hij => hj (congrArg some hij)

theorem lastIndex_kind (h : lastIndex kind messages = some i) :
    ∃ m, messages[i]? = some m ∧ m.kind = kind := by
  have hfound := List.find?_some h
  cases hm : messages[i]? with
  | none =>
    rw [hm] at hfound
    cases hfound
  | some m =>
    rw [hm] at hfound
    exact ⟨m, rfl, of_decide_eq_true hfound⟩

theorem lastIndex_congr {out : List PromptMessage} (h : List.Forall₂ Erases out messages)
    (kind : MessageKind) : lastIndex kind out = lastIndex kind messages := by
  have hkind : ∀ i : Nat, (out[i]?).any (PromptMessage.is kind) =
      (messages[i]?).any (PromptMessage.is kind) := by
    induction h with
    | nil => exact fun _ => rfl
    | cons hfirst _ ih =>
      intro i
      cases i with
      | zero =>
        change decide (_ = kind) = decide (_ = kind)
        rw [hfirst.1]
      | succ i => exact ih i
  rw [lastIndex, lastIndex, h.length_eq, funext hkind]

theorem breakpointTarget_ne (count candidate : Nat) (lookback : Int) :
    breakpointTarget count candidate lookback ≠ candidate + 1 := by
  rw [breakpointTarget]
  split
  · split <;> omega
  · assumption

theorem messageBreakpointIndex_ne (h : messageBreakpointIndex messages lookback = some i) :
    lastIndex .human messages ≠ some i := by
  intro hlast
  rw [messageBreakpointIndex, hlast] at h
  cases i with
  | zero => cases h
  | succ candidate =>
    dsimp only at h
    split at h
    · cases h
    · exact breakpointTarget_ne _ _ _ (Option.some.inj h)

theorem markTools_spec (cc : Tree) {tools : List ToolDict} (ht : ∀ t ∈ tools, markKey ∉ t)
    (hsome : tools ≠ []) :
    toolMarks (markTools cc tools) = 1 ∧
      (markTools cc tools).map (fun t => t.erase markKey) = tools := by
  induction tools with
  | nil => exact absurd rfl hsome
  | cons t ts ih =>
    obtain ⟨hfirst, hrest⟩ := List.forall_mem_cons.1 ht
    cases ts with
    | nil =>
      rw [markTools, toolMarks, List.map_singleton, Dict.erase_set_new hfirst]
      apply And.intro _ rfl
      have hset : isMarked (t.set markKey cc) = true :=
        decide_eq_true ((Dict.mem_set t).2 (.inl rfl))
      rw [List.countP_cons_of_pos hset]
      rfl
    | cons t' ts =>
      obtain ⟨hmarks, herase⟩ := ih hrest (List.cons_ne_nil _ _)
      have hnot : ¬ (isMarked t = true) := fun hmem => hfirst (of_decide_eq_true hmem)
      rw [markTools, toolMarks, List.countP_cons_of_neg hnot, List.map_cons, herase,
        Dict.erase_of_not_mem hfirst]
      · exact ⟨hmarks, rfl⟩
      · exact List.cons_ne_nil _ _

theorem tools_bare {tools : List ToolDict} (ht : ∀ t ∈ tools, markKey ∉ t) :
    toolMarks tools = 0 ∧ tools.map (fun t => t.erase markKey) = tools := by
  apply And.intro
  · rw [toolMarks, List.countP_eq_zero]
    intro t hmem hmark
    exact ht t hmem (of_decide_eq_true hmark)
  · rw [List.map_congr_left fun t hmem => Dict.erase_of_not_mem (ht t hmem)]
    exact List.map_id _

theorem placeTools_spec (cc : Tree) (budget : Nat) {tools : List ToolDict}
    (ht : ∀ t ∈ tools, markKey ∉ t) :
    toolMarks (placeTools cc budget tools).1 = (placeTools cc budget tools).2 ∧
    (placeTools cc budget tools).1.map (fun t => t.erase markKey) = tools ∧
    (placeTools cc budget tools).2 ≤ budget := by
  rw [placeTools]
  split
  · next hsome =>
    rw [Bool.and_eq_true, Bool.not_eq_true', decide_eq_true_eq, List.isEmpty_eq_false_iff] at hsome
    obtain ⟨hmarks, herase⟩ := markTools_spec cc ht hsome.1
    exact ⟨hmarks, herase, hsome.2⟩
  · obtain ⟨hmarks, herase⟩ := tools_bare ht
    exact ⟨hmarks, herase, Nat.zero_le _⟩

theorem Marked.start (hm : ∀ m ∈ messages, m.content.marks = 0) (hle : onTools ≤ budget) :
    Marked messages onTools budget (messages, onTools) := by
  constructor
  · have hzero : marksIn messages = 0 := List.sum_eq_zero (List.forall_mem_map.2 hm)
    dsimp only
    rw [hzero, Nat.zero_add]
  · exact hle
  · exact List.forall₂_same.2 fun m _ => Erases.refl m

/-- The marks are as many as are reported and no more than allowed, without them the result is the
input, and the last human message is left as it is. -/
theorem applyAnthropic_marks {tools : List ToolDict} (policy : CachePolicy)
    (hm : ∀ m ∈ messages, m.content.marks = 0) (ht : ∀ t ∈ tools, markKey ∉ t) :
    let out := applyAnthropic messages tools policy
    marksIn out.1 + toolMarks out.2.1 = out.2.2 ∧
    (out.2.2 : Int) ≤ max policy.maxBreakpoints 0 ∧
    List.Forall₂ Erases out.1 messages ∧
    out.2.1.map (fun t => t.erase markKey) = tools ∧
    ∀ i, lastIndex .human messages = some i → out.1[i]? = messages[i]? := by
  have hbudget : ((max policy.maxBreakpoints 0).toNat : Int) = max policy.maxBreakpoints 0 :=
    Int.toNat_of_nonneg (Int.le_max_right _ _)
  rw [applyAnthropic]
  dsimp only
  generalize (max policy.maxBreakpoints 0).toNat = budget at hbudget ⊢
  generalize cacheControl policy = cc
  obtain ⟨htools, herase, hwithin⟩ := placeTools_spec cc budget ht
  rw [htools]
  obtain ⟨hsystem, hframe⟩ := (Marked.start hm hwithin).place cc
    (lastIndex .system messages) fun i m _ hi => hm m (List.mem_of_getElem? hi)
  generalize place cc budget (lastIndex .system messages)
    (messages, (placeTools cc budget tools).2) = state at hsystem hframe ⊢
  -- the message with the mark of the last system message is not marked once more
  have hbare : ∀ i m, ((messageBreakpointIndex state.1 policy.lookbackBlocks).filter fun i =>
      decide (some i ≠ lastIndex .system messages)) = some i → state.1[i]? = some m →
      m.content.marks = 0 := by
    intro i m hindex hi
    rw [Option.filter_eq_some_iff, decide_eq_true_eq] at hindex
    rw [hframe i hindex.2.symm] at hi
    exact hm m (List.mem_of_getElem? hi)
  obtain ⟨hmessage, hframe'⟩ := hsystem.place cc _ hbare
  refine ⟨hmessage.count, ?_, hmessage.erases, herase, ?_⟩
  · rw [← hbudget]
    exact Int.ofNat_le.2 hmessage.within
  · intro i hlast
    rw [hframe', hframe]
    · intro hsys
      obtain ⟨m, hi, hkind⟩ := lastIndex_kind hsys
      obtain ⟨m', hi', hkind'⟩ := lastIndex_kind hlast
      cases hi.symm.trans hi'
      cases hkind.symm.trans hkind'
    · intro hindex
      rw [Option.filter_eq_some_iff] at hindex
      apply messageBreakpointIndex_ne hindex.1
      rw [lastIndex_congr hsystem.erases, hlast]

end Marks

def agentPrompt : List PromptMessage :=
  [⟨.system, .text "You are an agent."⟩, ⟨.human, .text "List the files."⟩,
    ⟨.other, .blocks [.text "ls"]⟩, ⟨.other, .text "a.txt"⟩]

def listTool : ToolDict := Dict.collect [("name", .str "ls")]

theorem agentPrompt_marks :
    let out := applyAnthropic agentPrompt [listTool] ⟨.fiveMinutes, 4, 20⟩
    marksIn out.1 + toolMarks out.2.1 = out.2.2 ∧
    (out.2.2 : Int) ≤ max 4 0 ∧
    List.Forall₂ Erases out.1 agentPrompt ∧
    out.2.1.map (fun t => t.erase markKey) = [listTool] ∧
    ∀ i, lastIndex .human agentPrompt = some i → out.1[i]? = agentPrompt[i]? :=
  applyAnthropic_marks ⟨.fiveMinutes, 4, 20⟩ (by decide) (by decide)

end Prismal.Providers
