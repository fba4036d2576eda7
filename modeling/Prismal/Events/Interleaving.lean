import Prismal.Events.Parallel
import Prismal.Lib.Run

namespace Prismal.Events
open Prismal.Lib
set_option autoImplicit true

/-! Any interleaving of the streams of several branches. -/

theorem Part.under_under (part : Part) {p q p' q' : String → Bool}
    (hp : ∀ m, p' m = true → p m = true) (hq : ∀ c, q' c = true → q c = true) :
    (part.under p q).under p' q' = part.under p' q' := by
  have hx : (part.toolIndex.restrict fun k => p k.1).restrict (fun k => p' k.1) =
      part.toolIndex.restrict fun k => p' k.1 :=
        Dict.restrict_restrict (fun k : String × Option Int => hp k.1) _
  have htext : (part.openText.filter fun m => p m = true ∧ p' m = true) =
      part.openText.filter fun m => p' m = true := by
    apply Finset.filter_congr
    intro m _
    exact ⟨fun h => h.2, fun h => ⟨hp m h, h⟩⟩
  rw [Part.under, Part.under, Part.under]
  dsimp only
  rw [Dict.restrict_restrict hp, Dict.restrict_restrict hq, hx, Finset.filter_filter, htext]

/-- Branches of distinct owners that share no message id and no tool-call id. -/
structure Apart (b : ι → Branch) : Prop where
  owners : ∀ i j, i ≠ j → (b i).owner ≠ (b j).owner
  messages : ∀ i j m, i ≠ j → (b i).messages m = true → (b j).messages m = false
  tools : ∀ i j c, i ≠ j → (b i).tools c = true → (b j).tools c = false

namespace Branch

theorem bracket_of_mine {b : Branch} (h : b.mine e = true) : e.bracket = true := by
  cases e with
  | textMessageStart | textMessageContent | textMessageEnd => rfl
  | toolCallStart | toolCallArgs | toolCallEnd | toolCallResult => rfl
  | _ => cases h

theorem filter_mine {b : Branch} {xs ys : List Event}
    (h : xs.filter Event.bracket = ys.filter Event.bracket) :
    xs.filter b.mine = ys.filter b.mine := by
  have hf : ∀ evs : List Event, (evs.filter Event.bracket).filter b.mine = evs.filter b.mine := by
    intro evs
    rw [List.filter_filter]
    apply List.filter_congr
    intro e _
    cases he : b.mine e with
    | false => rfl
    | true => rw [bracket_of_mine he, Bool.and_true]
  rw [← hf xs, ← hf ys, h]

theorem chunk_alone {b : Branch} (hb : chunk.In b) (hi : b.Inv s) (hg : chunk.Given s) :
    (∀ e ∈ (toAguiEvents chunk s).1, e.bracket = true → b.mine e = true) ∧
      b.Inv (toAguiEvents chunk s).2 ∧ b.outside (toAguiEvents chunk s).2 = b.outside s := by
  obtain ⟨hbrackets, ht⟩ := chunk_acts hb ⟨hi, hi, rfl, rfl⟩ hg
  exact ⟨hbrackets.2, ht.inv, ht.outside⟩

end Branch

namespace Apart

variable {b : ι → Branch}

theorem not_mine (h : Apart b) (hij : i ≠ j) (hi : (b i).mine e = true) : (b j).mine e = false := by
  cases e with
  | textMessageStart m | textMessageContent m _ | textMessageEnd m => exact h.messages i j m hij hi
  | toolCallStart c _ _ | toolCallArgs c _ | toolCallEnd c | toolCallResult _ c _ =>
    exact h.tools i j c hij hi
  | _ => cases hi

theorem inside_other (h : Apart b) (hij : i ≠ j) (ho : (b i).outside s' = (b i).outside s) :
    (b j).inside s' = (b j).inside s := by
  have hunder : ∀ ctx, (b j).inside ctx =
      ((b i).outside ctx).under (b j).messages (b j).tools := by
    intro ctx
    rw [Branch.inside, Branch.outside, Part.under_under]
    · intro m hm
      rw [h.messages j i m hij.symm hm]
      rfl
    · intro c hc
      rw [h.tools j i c hij.symm hc]
      rfl
  rw [hunder, hunder, ho]

theorem inv_other (h : Apart b) (hij : i ≠ j) (hi : (b i).Inv s')
    (ho : (b i).outside s' = (b i).outside s) (hj : (b j).Inv s) : (b j).Inv s' := by
  -- what is not of branch `i` was there before
  obtain ⟨hm, -, ht, hx, -⟩ := Part.mk.inj ho
  have hback : ∀ {κ α : Type} [DecidableEq κ] {d d' : Dict κ α} {r : κ → Bool},
      d'.restrict (fun k => !r k) = d.restrict (fun k => !r k) → ∀ k, r k = false →
      d'.get? k = d.get? k := by
    intro κ α _ d d' r hd k hk
    have hget := congrArg (fun e => e.get? k) hd
    rw [Dict.get?_restrict, Dict.get?_restrict, hk] at hget
    exact hget
  refine ⟨fun m o he => ?_, fun c m he => ?_, fun k c he hk => ?_⟩
  · cases hmi : (b i).messages m with
    | true =>
      rw [h.messages i j m hij hmi, (hi.owners m o he).1 hmi]
      exact ⟨fun hf => absurd hf Bool.false_ne_true, fun hf => absurd hf (h.owners i j hij)⟩
    | false => exact hj.owners m o ((hback hm m hmi).symm.trans he)
  · cases hci : (b i).tools c with
    | true =>
      have hmi : (b i).messages m = true := (hi.parents c m he).symm.trans hci
      rw [h.tools i j c hij hci, h.messages i j m hij hmi]
    | false => exact hj.parents c m ((hback ht c hci).symm.trans he)
  · cases hmi : (b i).messages k.1 with
    | true =>
      rw [h.messages i j k.1 hij hmi] at hk
      cases hk
    | false =>
      have hget : s'.toolIndex.get? k = s.toolIndex.get? k :=
        hback (r := fun k => (b i).messages k.1) hx k hmi
      exact hj.index k c (hget.symm.trans he) hk

theorem separated (h : Apart b) : Interleave.Separated toAguiEvents (fun ctx => ∀ i, (b i).Inv ctx)
    (fun i ctx => (b i).inside ctx) (fun i => (b i).mine) (fun i chunk => chunk.In (b i))
    Chunk.Given where
  keeps := by
    intro i chunk s hb hs hg j
    obtain ⟨-, hi, ho⟩ := Branch.chunk_alone hb (hs i) hg
    by_cases hij : i = j
    · exact hij ▸ hi
    · exact h.inv_other hij hi ho (hs j)
  agrees := by
    intro i chunk s t hb hs ht hpart hg
    exact Branch.Twin.given ⟨hs i, ht i, hpart, rfl⟩ hb hg
  own := by
    intro i chunk s t hb hs ht hpart hg
    obtain ⟨⟨hevs, -⟩, htwin⟩ := Branch.chunk_acts hb ⟨hs i, ht i, hpart, rfl⟩ hg
    exact ⟨Branch.filter_mine hevs, htwin.inside⟩
  other := by
    intro i j chunk s hb hs hg hij
    obtain ⟨hmine, -, ho⟩ := Branch.chunk_alone hb (hs i) hg
    refine ⟨List.filter_eq_nil_iff.2 fun e he hj => ?_, h.inside_other hij ho⟩
    rw [h.not_mine hij (hmine e he (Branch.bracket_of_mine hj))] at hj
    cases hj

end Apart

theorem hostStream_eq_stream (ctx : AgUiContext) (chunks : List Chunk) :
    hostStream ctx chunks = Interleave.stream toAguiEvents ctx chunks := by
  induction chunks generalizing ctx with
  | nil => rfl
  | cons chunk chunks ih => rw [hostStream, Interleave.stream, ih]

/-! The start and the end of a run. -/

theorem aside_remembers (read : String → Except PyError (Option (Option Py)))
    (names : List (String × String)) :
    Branch.Aside (fun _ => True) (remembers read names) := by
  induction names with
  | nil => exact Branch.aside_pure trivial
  | cons e names ih =>
    refine Branch.aside_bind (Branch.aside_liftPy _) fun r _ => ?_
    refine Branch.aside_bind (Branch.aside_modify fun ctx => ?_) fun _ _ => ih
    cases r <;> rfl

theorem aside_startRun (initialState : Py) (input : Option Py) :
    Branch.Aside Branch.Unbracketed (startRun initialState input) := by
  refine Branch.aside_bind Branch.aside_get fun ctx _ => ?_
  refine Branch.aside_bind (Branch.aside_safeOption _) fun input' _ => ?_
  refine Branch.aside_bind (Branch.aside_liftPy _) fun view _ => ?_
  refine Branch.aside_bind (Branch.aside_modify fun _ => rfl) fun _ _ => ?_
  rw [rememberMetadata_eq]
  refine Branch.aside_bind (aside_remembers _ _) fun _ _ => Branch.aside_pure fun e he => ?_
  rcases List.mem_cons.1 he with rfl | he
  · rfl
  · split at he
    · rw [List.mem_singleton.1 he]
      rfl
    · cases he

namespace Branch

variable {b : Branch}

theorem closeMessage_other (hs : b.Inv s) (hm : b.messages m = false) :
    (closeMessage s m).1.filter b.mine = [] ∧ b.inside (closeMessage s m).2 = b.inside s := by
  refine ⟨List.filter_eq_nil_iff.2 fun e he hmine => ?_, under_closeMessage hm ?_⟩
  · rw [closeMessage_mine hs m e he, hm] at hmine
    cases hmine
  · rintro c m' hget hc rfl
    rw [hs.parents c m' hget, hm] at hc
    cases hc

theorem closeMessages_inside (hs : b.Inv s) (ht : b.Inv t) (h : b.inside s = b.inside t)
    (ms : List String) :
    (closeMessages s ms).1.filter b.mine =
        (closeMessages t (ms.filter b.messages)).1.filter b.mine ∧
      b.inside (closeMessages s ms).2 = b.inside (closeMessages t (ms.filter b.messages)).2 := by
  induction ms generalizing s t with
  | nil => exact ⟨rfl, h⟩
  | cons m ms ih =>
    cases hm : b.messages m with
    | true =>
      obtain ⟨-, he, -, htwin⟩ := closeMessage_local hm _ s t ⟨hs, ht, h, rfl⟩ trivial
      obtain ⟨hrest, hin⟩ := ih htwin.inv htwin.inv' htwin.inside
      rw [List.filter_cons_of_pos hm, closeMessages, closeMessages, List.filter_append,
        List.filter_append, hrest]
      dsimp only at he
      rw [he]
      exact ⟨rfl, hin⟩
    | false =>
      obtain ⟨he, hin⟩ := closeMessage_other hs hm
      obtain ⟨hrest, hin'⟩ := ih (hs.closeMessage m) ht (hin.trans h)
      rw [List.filter_cons_of_neg (by rw [hm]; exact Bool.false_ne_true), closeMessages,
        List.filter_append, he, List.nil_append]
      exact ⟨hrest, hin'⟩

theorem filter_toolEnds (cids : List String) :
    (cids.map Event.toolCallEnd).filter b.mine = (cids.filter b.tools).map Event.toolCallEnd := by
  rw [List.filter_map]
  rfl

theorem filter_closeAll (ctx : AgUiContext) : (closeAll ctx).1.filter b.mine =
    (closeMessages ctx ctx.openMessages.keys).1.filter b.mine ++
      (b.inside (closeMessages ctx ctx.openMessages.keys).2).openToolCalls.keys.map
        Event.toolCallEnd := by
  have hsub : ∀ sids : List String, (sids.map incomplete).filter b.mine = [] := by
    intro sids
    refine List.filter_eq_nil_iff.2 fun e he hmine => ?_
    obtain ⟨sid, -, rfl⟩ := List.mem_map.1 he
    cases hmine
  rw [closeAll]
  dsimp only
  rw [List.filter_append, List.filter_append, hsub, List.append_nil, filter_toolEnds,
    ← Dict.keys_restrict]
  rfl

theorem closeAll_inside (hs : b.Inv s) (ht : b.Inv t) (h : b.inside s = b.inside t) :
    (closeAll s).1.filter b.mine = (closeAll t).1.filter b.mine := by
  have hkeys : s.openMessages.keys.filter b.messages = t.openMessages.keys.filter b.messages := by
    rw [← Dict.keys_restrict, ← Dict.keys_restrict]
    exact congrArg (fun p => p.openMessages.keys) h
  obtain ⟨he, hin⟩ := closeMessages_inside hs ht h s.openMessages.keys
  obtain ⟨he', hin'⟩ := closeMessages_inside ht ht rfl t.openMessages.keys
  rw [filter_closeAll, filter_closeAll, he, hin, he', hin', hkeys]

theorem filter_usage (ctx : AgUiContext) (summary : Option UsageWire) :
    (usage ctx summary).1.filter b.mine = [] := by
  cases summary with
  | none => rfl
  | some wire =>
    rw [usage]
    split <;> rfl

theorem ending_inside (hs : b.Inv s) (ht : b.Inv t) (h : b.inside s = b.inside t)
    (ending : Ending) : (swallow ending.events s).1.filter b.mine =
      (swallow ending.events t).1.filter b.mine := by
  have hall : Beside (fun _ _ => True)
      (fun xs ys : List Event => xs.filter b.mine = ys.filter b.mine)
      (emit closeAll s) (emit closeAll t) := ⟨closeAll_inside hs ht h, trivial⟩
  have hlast : ∀ {xs ys zs zs' : List Event} {e e' : Event},
      xs.filter b.mine = ys.filter b.mine → zs.filter b.mine = [] → zs'.filter b.mine = [] →
      b.mine e = false → b.mine e' = false →
      (xs ++ zs ++ [e]).filter b.mine = (ys ++ zs' ++ [e']).filter b.mine := by
    intro xs ys zs zs' e e' hx hz hz' he he'
    rw [List.filter_append, List.filter_append, List.filter_append, List.filter_append, hx, hz, hz',
      List.filter_singleton, List.filter_singleton, he, he']
    rfl
  refine (beside_swallow (R := fun _ _ => True) (Q := fun xs ys => xs.filter b.mine =
    ys.filter b.mine) ?_ rfl).1
  cases ending with
  | finish summary result =>
    refine hall.bind fun closed closed' hclosed => ?_
    refine Rel.bind Rel.get fun ctx ctx' _ => ?_
    refine Rel.bind (rel_safeOption result) fun _ _ _ => Rel.pure ?_
    exact hlast hclosed (filter_usage _ _) (filter_usage _ _) rfl rfl
  | error code message summary =>
    refine hall.bind fun closed closed' hclosed => ?_
    refine Rel.bind Rel.get fun ctx ctx' _ => Rel.pure ?_
    exact hlast hclosed (filter_usage _ _) (filter_usage _ _) rfl rfl

theorem stream_alone {chunks : List Chunk} (hs : b.Inv s) (hb : ∀ chunk ∈ chunks, chunk.In b)
    (hg : Run.Along (fun ctx chunk => (toAguiEvents chunk ctx).2)
      (fun ctx chunk _ => chunk.Given ctx) s chunks) :
    (∀ e ∈ (hostStream s chunks).1, e.bracket = true → b.mine e = true) ∧
      b.outside (hostStream s chunks).2 = b.outside s := by
  induction chunks generalizing s with
  | nil => exact ⟨fun e he => absurd he List.not_mem_nil, rfl⟩
  | cons chunk chunks ih =>
    obtain ⟨hmine, hi, ho⟩ := chunk_alone (hb chunk List.mem_cons_self) hs hg.1
    obtain ⟨hmine', ho'⟩ := ih hi (fun c hc => hb c (List.mem_cons_of_mem _ hc)) hg.2
    refine ⟨fun e he hbr => ?_, ho'.trans ho⟩
    rcases List.mem_append.1 he with he | he
    · exact hmine e he hbr
    · exact hmine' e he hbr

end Branch

/-! Nothing is lost of a text and nothing is sent twice. -/

def contents (m : String) (evs : List Event) : String :=
  String.join (evs.map fun
    | .textMessageContent m' delta => if m' = m then delta else ""
    | _ => "")

theorem contents_append (m : String) (xs ys : List Event) :
    contents m (xs ++ ys) = contents m xs ++ contents m ys := by
  rw [contents, List.map_append, String.join_append]
  rfl

def Chunk.textFor (m : String) (chunk : Chunk) : String :=
  match split chunk with
  | .ok (_, mode, .message _ (.aiChunk id content _ _ _) _) =>
    if mode = "messages" ∧ nonEmpty id = some m then textOf content else ""
  | _ => ""

def Chunk.Streams (m : String) (chunk : Chunk) : Prop :=
  ∀ ns container msg md, split chunk = .ok (ns, "messages", .message container msg md) →
    match msg with
    | .aiChunk id _ _ pos fin => nonEmpty id = some m →
      (∃ node, langgraphNode md = .ok node) ∧ ∃ last, finished pos fin = .ok last
    | .ai id _ _ => nonEmpty id ≠ some m
    | _ => True

def Mute (m : String) (evs : List Event) : Prop :=
  ∀ e ∈ evs, ∀ delta, e ≠ .textMessageContent m delta

theorem Mute.append (h : Mute m xs) (h' : Mute m ys) : Mute m (xs ++ ys) := by
  intro e he
  rcases List.mem_append.1 he with he | he
  · exact h e he
  · exact h' e he

theorem Mute.contents (h : Mute m evs) : contents m evs = "" := by
  induction evs with
  | nil => rfl
  | cons e evs ih =>
    have hrest := ih fun e' he => h e' (List.mem_cons_of_mem _ he)
    have hhead := h e List.mem_cons_self
    rw [Events.contents, List.map_cons, String.join_cons]
    change _ ++ Events.contents m evs = ""
    rw [hrest]
    cases e with
    | textMessageContent m' delta =>
      have hne : m' ≠ m := fun he => hhead delta (he ▸ rfl)
      dsimp only
      rw [if_neg hne]
      rfl
    | _ => rfl

theorem mute_of_unbracketed (h : Branch.Unbracketed evs) : Mute m evs := by
  rintro e he delta rfl
  cases h _ he

theorem mute_closeMessage (ctx : AgUiContext) (m' : String) : Mute m (closeMessage ctx m').1 := by
  intro e he delta heq
  rcases List.mem_append.1 he with he | he
  · split at he
    · rw [List.mem_singleton.1 he] at heq
      cases heq
    · cases he
  · obtain ⟨c, -, hc⟩ := List.mem_map.1 he
    rw [← hc] at heq
    cases heq

theorem mute_closeMessages (ctx : AgUiContext) (ms : List String) :
    Mute m (closeMessages ctx ms).1 := by
  induction ms generalizing ctx with
  | nil => exact fun e he => absurd he List.not_mem_nil
  | cons m' ms ih => exact (mute_closeMessage ctx m').append (ih _)

theorem mute_openMessage (ctx : AgUiContext) (m' : String) (own : Owner) :
    Mute m (openMessage ctx m' own).1 := by
  rw [openMessage]
  split
  · exact fun e he => absurd he List.not_mem_nil
  · exact mute_closeMessages ctx _

theorem mute_startTool (ctx : AgUiContext) (m' c name args : String) :
    Mute m (startTool ctx m' c name args).1 := by
  intro e he delta heq
  rcases List.mem_cons.1 he with rfl | he
  · cases heq
  · split at he
    · cases he
    · rw [List.mem_singleton.1 he] at heq
      cases heq

theorem mute_toolChunks (ctx : AgUiContext) (m' : String) (tcs : List ToolCallChunk) :
    Mute m (toolChunks ctx m' tcs).1 := by
  induction tcs generalizing ctx with
  | nil => exact fun e he => absurd he List.not_mem_nil
  | cons tc tcs ih =>
    refine Mute.append ?_ (ih _)
    rw [toolChunk]
    dsimp only
    split
    · exact mute_startTool _ _ _ _ _
    · split
      · intro e he delta heq
        dsimp only at he
        split at he
        · cases he
        · rw [List.mem_singleton.1 he] at heq
          cases heq
      · exact mute_startTool _ _ _ _ _

abbrev Wordless (m : String) (x : Tr (List Event)) : Prop :=
  Keeps (fun _ : AgUiContext => ()) (Mute m) x

theorem keeps_any (x : Tr α) : Keeps (fun _ : AgUiContext => ()) (fun _ => True) x :=
  fun _ _ _ _ => ⟨rfl, trivial⟩

theorem wordless_emit {f : AgUiContext → List Event × AgUiContext} (hf : ∀ ctx, Mute m (f ctx).1) :
    Wordless m (emit f) := by
  intro ctx evs ctx' h
  obtain ⟨rfl, -⟩ := emit_ok h
  exact ⟨rfl, hf ctx⟩

theorem wordless_append {x y : Tr (List Event)} (hx : Wordless m x) (hy : Wordless m y) :
    Wordless m (do
      let xs ← x
      let ys ← y
      return xs ++ ys) :=
  Keeps.bind hx fun _ h => Keeps.bind hy fun _ h' => .pure (h.append h')

theorem Wordless.swallow {x : Tr (List Event)} (hx : Wordless m x) (ctx : AgUiContext) :
    contents m (swallow x ctx).1 = "" := by
  rw [Events.swallow]
  cases h : x ctx with
  | ok evs c => exact (hx ctx evs c h).2.contents
  | error e c => rfl

theorem wordless_aiTools (m' : String) (tcs : List ToolCall) : Wordless m (aiTools m' tcs) := by
  induction tcs with
  | nil => exact .pure fun e he => absurd he List.not_mem_nil
  | cons tc tcs ih =>
    refine Keeps.bind (keeps_any _) fun c _ => ?_
    refine Keeps.bind (keeps_any _) fun ctx _ => ?_
    split
    · exact ih
    · refine Keeps.bind (keeps_any _) fun args _ => ?_
      refine wordless_append (wordless_emit fun ctx => ?_) ih
      exact (mute_startTool ctx m' c _ _).append fun e he delta heq => by
        rw [List.mem_singleton.1 he] at heq
        cases heq

theorem wordless_updateNodes (ns : List String) (es : List (Key × Py)) :
    Wordless m (updateNodes ns es) := by
  have hstep : ∀ e : Event, e.bracket = false → Mute m [e] := fun e he =>
    mute_of_unbracketed (Branch.unbracketed_single he)
  induction es with
  | nil => exact .pure fun e he => absurd he List.not_mem_nil
  | cons e es ih =>
    refine wordless_append ?_ ih
    rw [updateNode]
    split
    · exact Keeps.bind (keeps_any _) fun _ _ => .pure fun e he => absurd he List.not_mem_nil
    · refine Keeps.bind (P := Mute m) (wordless_emit fun ctx => mute_closeMessages ctx _)
        fun closed h₁ => ?_
      refine Keeps.bind (P := Mute m) ?_ fun changed h₂ =>
        .pure (((h₁.append (hstep _ rfl)).append h₂).append (hstep _ rfl))
      intro ctx evs ctx' h
      refine ⟨rfl, fun e' he' delta heq => ?_⟩
      have hkind := (changes_plain _ _ ctx evs ctx' h).2 e' he'
      rw [heq] at hkind
      cases hkind

theorem contents_textChunk (ctx : AgUiContext) (m' text : String) :
    contents m (textChunk ctx m' text).1 = if m' = m then text else "" := by
  have hdelta : contents m [.textMessageContent m' text] = if m' = m then text else "" := by
    rw [contents, List.map_cons, List.map_nil, String.join_cons, String.join_nil,
      String.append_empty]
  rw [textChunk]
  split
  next h =>
    rw [h, ite_self]
    rfl
  · split
    · exact hdelta
    · rw [← List.singleton_append, contents_append, hdelta]
      exact String.empty_append

theorem mute_textChunk (hm : m' ≠ m) (ctx : AgUiContext) (text : String) :
    Mute m (textChunk ctx m' text).1 := by
  have hother : ∀ delta d, Event.textMessageContent m' delta ≠ .textMessageContent m d := by
    intro delta d h
    cases h
    exact hm rfl
  rw [textChunk]
  split
  · exact fun e he => absurd he List.not_mem_nil
  · split
    · intro e he
      rw [List.mem_singleton.1 he]
      exact hother text
    · intro e he
      rcases List.mem_cons.1 he with rfl | he
      · exact fun d h => by cases h
      · rw [List.mem_singleton.1 he]
        exact hother text

theorem contents_chunkBody (ctx : AgUiContext) (m' text : String) (own : Owner)
    (tcs : List ToolCallChunk) :
    contents m (chunkBody ctx m' text own tcs).1 = if m' = m then text else "" := by
  rw [chunkBody]
  dsimp only
  rw [contents_append, contents_append, (mute_openMessage ctx m' own).contents, contents_textChunk,
    (mute_toolChunks _ m' tcs).contents, String.empty_append, String.append_empty]

theorem contents_aiChunk {id : Option String} (hid : nonEmpty id = some m')
    (hread : m' = m → ∃ last, finished pos fin = .ok last) (own : Owner) (content : Py)
    (tcs : List ToolCallChunk) (ctx : AgUiContext) :
    contents m (swallow (aiChunk own id content tcs pos fin) ctx).1 =
      if m' = m then textOf content else "" := by
  have hclosed : ∀ last : Bool, ∀ ctx : AgUiContext,
      Mute m (if last = true then closeMessage ctx m' else ([], ctx)).1 := by
    intro last ctx
    cases last with
    | true => exact mute_closeMessage ctx m'
    | false => exact fun e he => absurd he List.not_mem_nil
  rw [aiChunk_given hid]
  by_cases hm : m' = m
  · obtain ⟨last, hlast⟩ := hread hm
    rw [hlast]
    change contents m ((chunkBody ctx m' (textOf content) own tcs).1 ++ _) = _
    rw [contents_append, contents_chunkBody, (hclosed last _).contents, String.append_empty]
  · rw [if_neg hm]
    refine Wordless.swallow ?_ ctx
    refine Keeps.bind (P := Mute m) (wordless_emit fun ctx => ?_) fun body hbody => ?_
    · exact ((mute_openMessage ctx m' own).append (mute_textChunk hm _ _)).append
        (mute_toolChunks _ m' tcs)
    · refine Keeps.bind (keeps_any _) fun last _ => ?_
      exact Keeps.bind (wordless_emit (hclosed last)) fun closed h => .pure (hbody.append h)

theorem wordless_aiMessage {id : Option String} (hid : nonEmpty id = some m') (hm : m' ≠ m)
    (own : Owner) (content : Py) (tcs : List ToolCall) :
    Wordless m (aiMessage own id content tcs) := by
  rw [aiMessage, messageId_given hid, pure_bind]
  refine Keeps.bind (P := Mute m) (wordless_emit fun ctx => mute_openMessage ctx m' own)
    fun _ h₁ => ?_
  refine Keeps.bind (P := Mute m) (wordless_emit fun ctx => ?_) fun _ h₂ => ?_
  · intro e he delta heq
    subst heq
    rw [fullText] at he
    split at he
    · simp at he
    · split at he
      · cases he
      · simp only [List.mem_cons, reduceCtorEq, Event.textMessageContent.injEq, List.not_mem_nil,
          or_false, false_or] at he
        exact hm he.1.symm
  refine Keeps.bind (P := Mute m) (wordless_aiTools m' tcs) fun _ h₃ => ?_
  exact Keeps.bind (P := Mute m) (wordless_emit fun ctx => mute_closeMessage ctx m') fun _ h₄ =>
    .pure (((h₁.append h₂).append h₃).append h₄)

theorem wordless_toolMessage (id : Option String) (c : String) (content : Py) :
    Wordless m (toolMessage id c content) := by
  refine Keeps.bind (P := Mute m) (wordless_emit fun ctx => ?_) fun _ h₁ => ?_
  · intro e he delta heq
    subst heq
    rw [closeTool] at he
    split at he
    · simp at he
    · cases he
  · refine Keeps.bind (keeps_any _) fun text _ => ?_
    refine Keeps.bind (keeps_any _) fun mid _ => .pure (h₁.append fun e he delta heq => ?_)
    rw [List.mem_singleton.1 he] at heq
    cases heq

theorem contents_handler {b : Branch} {msg : Message} (hin : msg.In b)
    (hm : match msg with
      | .aiChunk id _ _ pos fin => nonEmpty id = some m → ∃ last, finished pos fin = .ok last
      | .ai id _ _ => nonEmpty id ≠ some m
      | _ => True) (own : Owner) (ctx : AgUiContext) :
    contents m (swallow (Branch.handler own msg) ctx).1 =
      match msg with
      | .aiChunk id content _ _ _ => if nonEmpty id = some m then textOf content else ""
      | _ => "" := by
  cases msg with
  | aiChunk id content tcs pos fin =>
    obtain ⟨⟨m', hid, -⟩, -⟩ := hin
    have hself : nonEmpty id = some m ↔ m' = m := by
      rw [hid]
      exact ⟨Option.some.inj, congrArg some⟩
    dsimp only at hm ⊢
    rw [hself] at hm
    simp only [hself]
    exact contents_aiChunk hid hm own content tcs ctx
  | ai id content tcs =>
    obtain ⟨⟨m', hid, -⟩, -⟩ := hin
    have hne : m' ≠ m := fun h => hm (h ▸ hid)
    exact (wordless_aiMessage hid hne own content tcs).swallow ctx
  | tool id c content => exact (wordless_toolMessage id c content).swallow ctx
  | input => rfl

theorem contents_chunk {b : Branch} (hb : chunk.In b) (hm : chunk.Streams m) (ctx : AgUiContext) :
    contents m (toAguiEvents chunk ctx).1 = chunk.textFor m := by
  by_cases hh : ∃ ns mode payload, split chunk = .ok (ns, mode, payload) ∧
    Branch.Handled mode payload
  · obtain ⟨ns, mode, payload, hs, ⟨rfl, container, msg, md, rfl⟩ | ⟨rfl, es, rfl⟩⟩ := hh
    · obtain ⟨-, hin⟩ := hb.message ns container msg md hs
      have hstream := hm ns container msg md hs
      rw [toAguiEvents]
      cases hn : langgraphNode md with
      | error e =>
        rw [Branch.translate_unread hs hn, Chunk.textFor, hs]
        cases msg with
        | aiChunk id content tcs pos fin =>
          dsimp only
          rw [if_neg]
          · rfl
          · rintro ⟨-, hid⟩
            obtain ⟨⟨node, hnode⟩, -⟩ := hstream hid
            rw [hn] at hnode
            cases hnode
        | _ => rfl
      | ok node =>
        rw [Branch.translate_message hs hn, contents_handler hin, Chunk.textFor, hs]
        · cases msg with
          | aiChunk id content tcs pos fin => simp only [true_and]
          | _ => rfl
        · cases msg with
          | aiChunk id content tcs pos fin => exact fun hid => (hstream hid).2
          | ai id content tcs => exact hstream
          | _ => trivial
    · have hx : translate chunk = updateNodes ns es := by
        rw [translate, hs]
        exact Branch.answer_some _ _
      rw [toAguiEvents, hx, Chunk.textFor, hs]
      exact (wordless_updateNodes ns es).swallow ctx
  · have haside := Branch.aside_chunk fun ns mode payload hs h => hh ⟨ns, mode, payload, hs, h⟩
    rw [toAguiEvents, (mute_of_unbracketed (Branch.Aside.swallow haside ctx).1).contents,
      Chunk.textFor]
    split
    next ns mode container id content tcs pos fin md hs =>
      rw [if_neg]
      rintro ⟨hmode, -⟩
      exact hh ⟨ns, mode, _, hs, .inl ⟨hmode, container, _, md, rfl⟩⟩
    · rfl

theorem contents_stream {b : ι → Branch} {run : List (ι × Chunk)}
    (hb : ∀ x ∈ run, x.2.In (b x.1)) (hm : ∀ x ∈ run, x.2.Streams m) (ctx : AgUiContext) :
    contents m (hostStream ctx (run.map Prod.snd)).1 =
      String.join (run.map fun x => x.2.textFor m) := by
  induction run generalizing ctx with
  | nil => rfl
  | cons x run ih =>
    have hrest := ih (fun y hy => hb y (List.mem_cons_of_mem _ hy))
      fun y hy => hm y (List.mem_cons_of_mem _ hy)
    rw [List.map_cons, hostStream, contents_append, hrest, List.map_cons, String.join_cons,
      contents_chunk (hb x List.mem_cons_self) (hm x List.mem_cons_self)]

/-! Whole runs. -/

namespace Branch

variable {b : Branch}

structure Owns (b : Branch) (ctx : AgUiContext) : Prop where
  messages : ∀ m ∈ ctx.openMessages, b.messages m = true
  tools : ∀ c ∈ ctx.openToolCalls, b.tools c = true

theorem Owns.of_outside (h : b.Owns s) (ho : b.outside t = b.outside s) : b.Owns t := by
  obtain ⟨hm, -, ht, -, -⟩ := Part.mk.inj ho
  have hkey : ∀ {α : Type} {d d' : Dict String α} {p : String → Bool}, (∀ k ∈ d, p k = true) →
      d'.restrict (fun k => !p k) = d.restrict (fun k => !p k) → ∀ k ∈ d', p k = true := by
    intro α d d' p hd hr k hk
    cases hp : p k with
    | true => rfl
    | false =>
      have hmem : k ∈ d'.restrict fun k => !p k :=
        (Dict.mem_restrict _ _).2 ⟨by rw [hp]; rfl, hk⟩
      rw [hr, Dict.mem_restrict] at hmem
      rw [hd k hmem.2] at hp
      cases hp
  exact ⟨hkey h.messages hm, hkey h.tools ht⟩

theorem ending_alone (ht : b.Inv t) (ho : b.Owns t) (ending : Ending) :
    ∀ e ∈ (swallow ending.events t).1, e.bracket = true → b.mine e = true := by
  have hclosed : ∀ e ∈ (closeAll t).1, e.bracket = true → b.mine e = true := by
    have hall : ∀ m ∈ t.openMessages.keys, b.messages m = true := fun m hm =>
      ho.messages m (Dict.mem_iff_keys.2 hm)
    obtain ⟨-, -, hmine, htwin⟩ := closeMessages_local hall _ t t ⟨ht, ht, rfl, rfl⟩ trivial
    have ho' := ho.of_outside htwin.outside
    intro e he hb
    rcases List.mem_append.1 he with he | he
    · rcases List.mem_append.1 he with he | he
      · exact hmine e he
      · obtain ⟨c, hc, rfl⟩ := List.mem_map.1 he
        exact ho'.tools c (Dict.mem_iff_keys.2 hc)
    · obtain ⟨sid, -, rfl⟩ := List.mem_map.1 he
      cases hb
  have hlast : ∀ {summary : Option UsageWire} {last e : Event}, last.bracket = false →
      e ∈ (closeAll t).1 ++ (usage (closeAll t).2 summary).1 ++ [last] → e.bracket = true →
      b.mine e = true := by
    intro summary last e hl he hb
    rcases List.mem_append.1 he with he | he
    · rcases List.mem_append.1 he with he | he
      · exact hclosed e he hb
      · have hk := usage_plain _ _ e he
        cases summary with
        | none => cases he
        | some wire =>
          rw [usage] at he
          split at he
          · rw [List.mem_singleton.1 he] at hb
            cases hb
          · cases he
    · rw [List.mem_singleton.1 he, hl] at hb
      cases hb
  cases ending with
  | finish summary result =>
    intro e he hb
    rw [swallow] at he
    split at he
    next evs ctx' h =>
      obtain ⟨closed, c₁, hc, h₁⟩ := bind_ok h
      obtain ⟨rfl, rfl⟩ := emit_ok hc
      obtain ⟨c, c₂, hg, h₂⟩ := bind_ok h₁
      obtain ⟨rfl, rfl⟩ := get_ok hg
      obtain ⟨result', c₃, hr, h₃⟩ := bind_ok h₂
      obtain ⟨rfl, rfl⟩ := pure_ok h₃
      exact hlast rfl he hb
    · cases he
  | error code message summary => exact fun e he hb => hlast rfl he hb

end Branch

theorem wordless_ending (ending : Ending) : Wordless m ending.events := by
  have hclosed : ∀ ctx, Mute m (closeAll ctx).1 := by
    intro ctx
    refine ((mute_closeMessages ctx _).append ?_).append ?_
    · intro e he delta heq
      obtain ⟨c, -, rfl⟩ := List.mem_map.1 he
      cases heq
    · intro e he delta heq
      obtain ⟨sid, -, rfl⟩ := List.mem_map.1 he
      cases heq
  have husage : ∀ ctx summary, Mute m (usage ctx summary).1 := by
    intro ctx summary e he delta heq
    have hk := usage_plain ctx summary e he
    rw [heq] at hk
    cases hk
  have hlast : ∀ last : Event, last.bracket = false → Mute m [last] := fun last h =>
    mute_of_unbracketed (Branch.unbracketed_single h)
  cases ending with
  | finish summary result =>
    refine Keeps.bind (P := Mute m) (wordless_emit hclosed) fun closed h => ?_
    refine Keeps.bind (keeps_any _) fun ctx _ => ?_
    exact Keeps.bind (keeps_any _) fun result' _ =>
      .pure ((h.append (husage _ _)).append (hlast _ rfl))
  | error code message summary =>
    refine Keeps.bind (P := Mute m) (wordless_emit hclosed) fun closed h => ?_
    exact Keeps.bind (keeps_any _) fun ctx _ =>
      .pure ((h.append (husage _ _)).append (hlast _ rfl))

/-- Every branch of an interleaved run sends the message and tool events of its own run, and every
streamed text arrives once. -/
theorem branches_independent [DecidableEq ι] (b : ι → Branch) (hapart : Apart b) (host : Host)
    (initialState : Py) (input : Option Py) (ending : Ending) (run : List (ι × Chunk))
    (hrun : ∀ x ∈ run, x.2.In (b x.1))
    (hgiven : ∀ i, Run.Along (fun ctx chunk => (toAguiEvents chunk ctx).2)
      (fun ctx chunk _ => chunk.Given ctx) (swallow (startRun initialState input) host.context).2
      (Interleave.branch i run)) :
    (∀ i, (hostRun initialState input (run.map Prod.snd) ending host.context).filter (b i).mine =
      (hostRun initialState input (Interleave.branch i run) ending host.context).filter
        Event.bracket) ∧
    ∀ m, (∀ x ∈ run, x.2.Streams m) →
      contents m (hostRun initialState input (run.map Prod.snd) ending host.context) =
        String.join (run.map fun x => x.2.textFor m) := by
  obtain ⟨hstart, hwhole⟩ := (aside_startRun initialState input).swallow host.context
  have hinv : ∀ i, (b i).Inv (swallow (startRun initialState input) host.context).2 := by
    intro i
    have hempty : (b i).Inv host.context := by
      constructor
      · intro m o h
        cases h
      · intro c m h
        cases h
      · intro k c h
        cases h
    exact hempty.congr hwhole
  obtain ⟨hs, ht, hsame⟩ := hapart.separated.interleaving (t := fun _ => (swallow _ _).2) hinv
    (fun _ => hinv) (fun _ => rfl) hrun hgiven
  simp only [← hostStream_eq_stream] at hs ht hsame
  have hbelongs : ∀ i, ∀ chunk ∈ Interleave.branch i run, chunk.In (b i) := by
    intro i chunk hc
    obtain ⟨x, hx, rfl⟩ := List.mem_map.1 hc
    obtain ⟨hx, hi⟩ := List.mem_filter.1 hx
    exact of_decide_eq_true hi ▸ hrun x hx
  -- all message and tool events of a run alone are of its branch
  have halone : ∀ i, ∀ e ∈ hostRun initialState input (Interleave.branch i run) ending host.context,
      e.bracket = true → (b i).mine e = true := by
    intro i e he hb
    obtain ⟨hmine, ho⟩ := Branch.stream_alone (hinv i) (hbelongs i) (hgiven i)
    have howns : (b i).Owns (swallow (startRun initialState input) host.context).2 := by
      obtain ⟨hm, -, hc, -, -⟩ := Part.mk.inj hwhole
      constructor
      · intro m h
        rw [hm] at h
        cases h
      · intro c h
        rw [hc] at h
        cases h
    rcases List.mem_append.1 he with he | he
    · rcases List.mem_append.1 he with he | he
      · rw [hstart e he] at hb
        cases hb
      · exact hmine e he hb
    · exact Branch.ending_alone (ht i i) (howns.of_outside ho) ending e he hb
  constructor
  · intro i
    obtain ⟨hstream, hinside⟩ := hsame i
    have hend := Branch.ending_inside (hs i) (ht i i) hinside ending
    have hall : (hostRun initialState input (run.map Prod.snd) ending host.context).filter
        (b i).mine =
        (hostRun initialState input (Interleave.branch i run) ending host.context).filter
          (b i).mine := by
      rw [hostRun, hostRun, List.filter_append, List.filter_append, List.filter_append,
        List.filter_append, hstream, hend]
    rw [hall]
    apply List.filter_congr
    intro e he
    cases hb : e.bracket with
    | true => exact halone i e he hb
    | false =>
      cases hmine : (b i).mine e with
      | false => rfl
      | true =>
        rw [Branch.bracket_of_mine hmine] at hb
        cases hb
  · intro m hm
    rw [hostRun, contents_append, contents_append, (mute_of_unbracketed hstart).contents,
      contents_stream hrun hm, (wordless_ending ending).swallow, String.empty_append,
      String.append_empty]

/-- A chunk of the message `m`, streamed by a node. -/
def textOfNode (ns : List String) (node m text : String) (fin : Py) : Chunk :=
  .triple ns "messages" (.message "tuple" (.aiChunk (some m) (.str text) [] none fin)
    (.dict [(.str "langgraph_node", .str node)]))

def branchOf (own m : String) : Branch := ⟨some own, fun m' => decide (m' = m), fun _ => false⟩

theorem in_branchOf (hm : m ≠ "") (node text : String) (fin : Py) :
    (textOfNode [] node m text fin).In (branchOf node m) := by
  constructor
  · intro ns container msg md hs
    cases hs
    refine ⟨fun node' hn => ?_, ⟨m, ?_, decide_eq_true rfl⟩, fun tc h => by cases h⟩
    · cases hn
      rfl
    · rw [nonEmpty, Option.filter_some, if_pos (decide_eq_true hm)]
  · intro ns es hs
    simp [textOfNode, split] at hs

theorem given_textOfNode (ns : List String) (node m text : String) (fin : Py) (ctx : AgUiContext) :
    (textOfNode ns node m text fin).Given ctx := by
  intro ns' container msg md node' hs _
  cases hs
  exact fun _ _ => trivial

def turns : List (Bool × Chunk) :=
  [(true, textOfNode [] "planner" "m1" "a" .none), (false, textOfNode [] "worker" "m2" "b" .none),
    (true, textOfNode [] "planner" "m1" "c" .none)]

theorem mem_turns (h : x ∈ turns) : x = (true, textOfNode [] "planner" "m1" "a" .none) ∨
    x = (false, textOfNode [] "worker" "m2" "b" .none) ∨
    x = (true, textOfNode [] "planner" "m1" "c" .none) := by
  simpa only [turns, List.mem_cons, List.not_mem_nil, or_false] using h

def turnsBranch (i : Bool) : Branch :=
  branchOf (if i then "planner" else "worker") (if i then "m1" else "m2")

theorem apart_turns : Apart turnsBranch := by
  have hm : ∀ i j : Bool, i ≠ j → (if i then "m1" else "m2") ≠ if j then "m1" else "m2" := by decide
  refine ⟨by decide, fun i j m hij h => ?_, fun i j c _ h => by cases h⟩
  have hi : m = if i then "m1" else "m2" := of_decide_eq_true h
  rw [hi]
  exact decide_eq_false (hm i j hij)

theorem branches_independent_turns :
    (∀ i, (hostRun (.dict []) none (turns.map Prod.snd) (.finish none none)
        ({ runId := "r", threadId := "t" } : Host).context).filter (turnsBranch i).mine =
      (hostRun (.dict []) none (Interleave.branch i turns) (.finish none none)
        ({ runId := "r", threadId := "t" } : Host).context).filter Event.bracket) ∧
    contents "m1" (hostRun (.dict []) none (turns.map Prod.snd) (.finish none none)
      ({ runId := "r", threadId := "t" } : Host).context) =
        String.join (turns.map fun x => x.2.textFor "m1") := by
  have hin : ∀ x ∈ turns, x.2.In (turnsBranch x.1) := by
    intro x hx
    rcases mem_turns hx with rfl | rfl | rfl <;> exact in_branchOf (by decide) _ _ _
  have hgiven : ∀ i, ∀ chunk ∈ Interleave.branch i turns, ∀ ctx, chunk.Given ctx := by
    intro i chunk hc ctx
    obtain ⟨x, hx, rfl⟩ := List.mem_map.1 hc
    rcases mem_turns (List.mem_filter.1 hx).1 with rfl | rfl | rfl <;>
      exact given_textOfNode _ _ _ _ _ _
  have halong : ∀ (chunks : List Chunk) (ctx : AgUiContext),
      (∀ chunk ∈ chunks, ∀ ctx, chunk.Given ctx) → Run.Along (fun ctx chunk =>
        (toAguiEvents chunk ctx).2) (fun ctx chunk _ => chunk.Given ctx) ctx chunks := by
    intro chunks
    induction chunks with
    | nil => exact fun _ _ => trivial
    | cons chunk chunks ih => exact fun ctx h => ⟨h chunk List.mem_cons_self ctx,
        ih _ fun c hc => h c (List.mem_cons_of_mem _ hc)⟩
  obtain ⟨hsame, htext⟩ := branches_independent turnsBranch apart_turns
    { runId := "r", threadId := "t" } (.dict []) none (.finish none none) turns hin
    fun i => halong _ _ (hgiven i)
  refine ⟨hsame, htext "m1" fun x hx ns container msg md hs => ?_⟩
  rcases mem_turns hx with rfl | rfl | rfl <;>
  · cases hs
    exact fun _ => ⟨⟨_, rfl⟩, _, rfl⟩

/-- A nested node and a root node share an owner, so one ends the message of the other; and the
text of a chunk whose finish reason cannot be read is lost. -/
theorem branches_disturbed :
    ((hostRun (.dict []) none
    [textOfNode ["a"] "b" "m1" "x" .none, textOfNode [] "a|b" "m2" "y" .none,
        textOfNode ["a"] "b" "m1" "z" .none] (.finish none none)
        ({ runId := "r", threadId := "t" } : Host).context).filter (branchOf "a|b" "m1").mine).length ≠
      ((hostRun (.dict []) none [textOfNode ["a"] "b" "m1" "x" .none,
        textOfNode ["a"] "b" "m1" "z" .none] (.finish none none)
        ({ runId := "r", threadId := "t" } : Host).context).filter
        (branchOf "a|b" "m1").mine).length ∧
    contents "m1" (hostRun (.dict []) none [textOfNode [] "planner" "m1" "x" (.rogue "Lazy")]
      (.finish none none) ({ runId := "r", threadId := "t" } : Host).context) ≠ "x" :=
  ⟨by decide +kernel, by decide +kernel⟩

end Prismal.Events
