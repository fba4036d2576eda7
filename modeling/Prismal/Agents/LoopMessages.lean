import Prismal.Agents.ContextCompaction
import Prismal.Security.ToolPolicy

namespace Prismal.Agents
open Prismal.Budget Prismal.Providers Prismal.Security Prismal.Utils
set_option autoImplicit true

/-! The messages of a tool loop, and their compaction by position. -/

structure ToolCall where
  id : Option String
  name : String
  args : Args := []
  deriving DecidableEq, Repr

/-- A text that came from a tool, and when the loop got it. -/
structure ToolText where
  text : String
  time : Nat
  deriving DecidableEq, Repr

/-- A message of the loop. `ref` tells the answers of the model apart as objects; `source` is a
ghost, the tool text that the content was made from. -/
structure LoopMessage extends Message where
  toolCalls : List ToolCall := []
  ref : Nat := 0
  source : Option ToolText := none
  deriving DecidableEq, Repr

def LoopMessage.human (content : String) : LoopMessage where
  type := .human
  content := content

def LoopMessage.ai (content : String) : LoopMessage where
  type := .ai
  content := content

def LoopMessage.tool (content toolCallId : String) (source : Option ToolText) : LoopMessage where
  type := .tool
  content := content
  toolCallId := toolCallId
  source := source

/-- What a compaction leaves. `summarized` says that the summarizer was called, and what its call
was metered with. -/
structure ListCompaction where
  messages : List LoopMessage
  summarized : Option (Option Spend) := none

namespace ContextCompactor

variable (st : CompactionSettings) (host : CompactionHost)

def observable (all : List Message) (m : Message) : Bool :=
  decide (m.type = .tool) && !startsWith m.content maskedPrefix &&
    host.relevance.all fun f => decide (f m all < st.maskRelevanceKeep)

def stubMessage (m : LoopMessage) (artifact : String) : LoopMessage :=
  { m with
    content := (stubOf m.toMessage artifact).content
    source := none }

/-- `_mask` on the messages before the boundary, oldest first. -/
def maskInPlace (all : List Message) : List LoopMessage → Nat → Int → List LoopMessage
  | [], _, _ => []
  | m :: rest, tries, remaining =>
    if (lowWater st).any fun low => decide (remaining ≤ low) then m :: rest
    else if observable st host all m.toMessage then
      match host.put tries m.toMessage with
      | none => m :: maskInPlace all rest (tries + 1) remaining
      | some artifact =>
        let stub := stubMessage m artifact
        stub :: maskInPlace all rest (tries + 1)
          (remaining + estimateTokens stub.content - estimateTokens m.content)
    else m :: maskInPlace all rest tries remaining

theorem maskInPlace_map {st : CompactionSettings} {host : CompactionHost} {all : List Message}
    (f : LoopMessage → α) (hf : ∀ m artifact, f (stubMessage m artifact) = f m)
    (ms : List LoopMessage) (tries : Nat) (remaining : Int) :
    (maskInPlace st host all ms tries remaining).map f = ms.map f := by
  induction ms generalizing tries remaining with
  | nil => rfl
  | cons m rest ih =>
    rw [maskInPlace]
    split
    · rfl
    · split
      · split
        · rw [List.map_cons, List.map_cons, ih]
        · rw [List.map_cons, List.map_cons, ih, hf]
      · rw [List.map_cons, List.map_cons, ih]

/-- `compact_list`; `used` is the usage of the compactor's meter. -/
def compactList (used : Option Usage) (messages : List LoopMessage) : ListCompaction :=
  let plain := messages.map LoopMessage.toMessage
  if !shouldCompact st used plain then { messages := messages }
  else if effectiveStrategy st = .maskObservations then
    let boundary := maskBoundary st plain
    { messages := maskInPlace st host plain (messages.take boundary) 0 (estimate plain) ++
        messages.drop boundary }
  else if messages.length ≤ st.keepRecent then { messages := messages }
  else
    let drop := olderCount st plain
    let older := plain.take drop
    let tail := messages.drop drop
    if older = [] then { messages := messages }
    else if effectiveStrategy st = .summarize then
      match host.summarize older with
      | some (text, metered) =>
        { messages := { summaryMessage older.length text with } :: tail
          summarized := some metered }
      | none => { messages := tail, summarized := some none }
    else { messages := tail }

end ContextCompactor

end Prismal.Agents

namespace Prismal.Agents
open Prismal.Budget Prismal.Lib Prismal.Providers Prismal.Utils
set_option autoImplicit true

/-! The reducer of the message list, as compaction relies on it. -/

def LoopMessage.ofMessage (m : Message) : LoopMessage := { m with }

def removeAllMessages : String := "__remove_all__"

/-- The ids that are there tell the messages apart, and none is the mark of the reducer. -/
structure Addressed (ms : List LoopMessage) : Prop where
  apart : (ms.filterMap fun m => m.id).Nodup
  plain : ∀ m ∈ ms, m.id ≠ some removeAllMessages

def Filled (ms ms' : List LoopMessage) : Prop :=
  List.Forall₂ (fun m m' => m' = m ∨ m.id = none ∧ ∃ i, m' = { m with id := some i }) ms ms'

def dropped (ms : List LoopMessage) (ids : List String) (summary : Option Message) :
    List LoopMessage :=
  (ms.filter fun m => !m.id.any fun i => decide (i ∈ ids)) ++ summary.toList.map .ofMessage

def substitute (news : List Message) (m : LoopMessage) : LoopMessage :=
  match news.find? fun n => n.id.isSome && decide (n.id = m.id) with
  | some n => .ofMessage n
  | none => m

def substituted (ms : List LoopMessage) (news : List Message) : List LoopMessage :=
  ms.map (substitute news)

/-- `add_messages`, as far as compaction relies on it: it removes by id, appends a message that has
no id, and replaces by id in place. -/
structure Reduces (add : List LoopMessage → List MessageUpdate → List LoopMessage) : Prop where
  drops : ∀ ms ids summary, Addressed ms → (∀ i ∈ ids, ∃ m ∈ ms, m.id = some i) →
    (∀ s ∈ summary, s.id = none) →
    Filled (dropped ms ids summary)
      (add ms (ids.map .remove ++ summary.toList.map .put)) ∧
    Addressed (add ms (ids.map .remove ++ summary.toList.map .put))
  replaces : ∀ ms news, Addressed ms → (news.map Message.id).Nodup →
    (∀ n ∈ news, n.id ≠ none ∧ ∃ m ∈ ms, m.id = n.id) →
    Filled (substituted ms news) (add ms (news.map .put)) ∧ Addressed (add ms (news.map .put))

variable {ms ms' : List LoopMessage}
  {add : List LoopMessage → List MessageUpdate → List LoopMessage}

def plainOf (ms : List LoopMessage) : List Message := ms.map LoopMessage.toMessage

theorem filter_removes_nil (ms : List LoopMessage) :
    (ms.filter fun m => !m.id.any fun i => decide (i ∈ ([] : List String))) = ms := by
  rw [List.filter_eq_self]
  intro m _
  cases m.id <;> simp

theorem Filled.refl (ms : List LoopMessage) : Filled ms ms := by
  induction ms with
  | nil => exact .nil
  | cons m ms ih => exact .cons (.inl rfl) ih

theorem Addressed.index_eq {m m' : LoopMessage} {i j : Nat} (h : Addressed ms)
    (hi : ms[i]? = some m) (hj : ms[j]? = some m') (hm : m.id = some x) (hm' : m'.id = some x) :
    i = j := by
  have hapart : ms.Pairwise fun a b => ∀ x, a.id = some x → ∀ y, b.id = some y → x ≠ y :=
    List.pairwise_filterMap.1 h.apart
  rw [List.pairwise_iff_getElem] at hapart
  obtain ⟨hilt, rfl⟩ := List.getElem?_eq_some_iff.1 hi
  obtain ⟨hjlt, rfl⟩ := List.getElem?_eq_some_iff.1 hj
  by_contra hne
  cases Nat.lt_or_gt_of_ne hne with
  | inl hlt => exact hapart i j hilt hjlt hlt x hm x hm' rfl
  | inr hgt => exact hapart j i hjlt hilt hgt x hm' x hm rfl

theorem getElem?_plainOf (ms : List LoopMessage) (i : Nat) :
    (plainOf ms)[i]? = ms[i]?.map LoopMessage.toMessage := List.getElem?_map

theorem Filled.map_eq (h : Filled ms ms') (f : LoopMessage → α)
    (hf : ∀ m i, f { m with id := i } = f m) : ms'.map f = ms.map f := by
  induction h with
  | nil => rfl
  | cons hm _ ih =>
    rw [List.map_cons, List.map_cons, ih]
    cases hm with
    | inl hm => rw [hm]
    | inr hm =>
      obtain ⟨_, i, hm⟩ := hm
      rw [hm, hf]

theorem Filled.estimate_eq (h : Filled ms ms') :
    estimate (plainOf ms') = estimate (plainOf ms) := by
  have hmap := h.map_eq (fun m => estimateTokens m.content) fun _ _ => rfl
  have hestimate (ms : List LoopMessage) :
      estimate (plainOf ms) = (ms.map fun m => estimateTokens m.content).sum := by
    rw [estimate, plainOf, List.map_map]
    rfl
  rw [hestimate, hestimate, hmap]

theorem Reduces.idle (hadd : Reduces add) (h : Addressed ms) :
    Filled ms (add ms []) ∧ Addressed (add ms []) := by
  have hdrops := hadd.drops ms [] none h (by simp) (by simp)
  have hsame : dropped ms [] none = ms := by
    rw [dropped, filter_removes_nil]
    exact List.append_nil ms
  rw [hsame] at hdrops
  exact hdrops

/-! A reducer. -/

def putUpdate (ms : List LoopMessage) (m : Message) : List LoopMessage :=
  if m.id.isSome && ms.any fun k => decide (k.id = m.id) then
    ms.map fun k => if k.id = m.id then .ofMessage m else k
  else ms ++ [.ofMessage m]

def applyUpdate (ms : List LoopMessage) : MessageUpdate → List LoopMessage
  | .remove i => ms.filter fun m => decide (m.id ≠ some i)
  | .put m => putUpdate ms m

def applyUpdates (ms : List LoopMessage) (updates : List MessageUpdate) : List LoopMessage :=
  updates.foldl applyUpdate ms

theorem applyUpdates_append (ms : List LoopMessage) (us us' : List MessageUpdate) :
    applyUpdates ms (us ++ us') = applyUpdates (applyUpdates ms us) us' := List.foldl_append

theorem applyUpdates_removes (ms : List LoopMessage) (ids : List String) :
    applyUpdates ms (ids.map .remove) =
      ms.filter fun m => !m.id.any fun i => decide (i ∈ ids) := by
  induction ids generalizing ms with
  | nil => exact (filter_removes_nil ms).symm
  | cons i ids ih =>
    have hstep : applyUpdates ms ((i :: ids).map .remove) =
        applyUpdates (ms.filter fun m => decide (m.id ≠ some i)) (ids.map .remove) := rfl
    rw [hstep, ih, List.filter_filter]
    apply List.filter_congr
    intro m _
    cases m.id with
    | none => simp
    | some x =>
      by_cases hx : x = i <;> simp [hx]

theorem Addressed.filter (h : Addressed ms) (p : LoopMessage → Bool) :
    Addressed (ms.filter p) where
  apart := h.apart.sublist (List.filter_sublist.filterMap _)
  plain m hm := h.plain m (List.mem_of_mem_filter hm)

theorem Addressed.of_ids (h : Addressed ms)
    (hids : ms'.map (fun m => m.id) = ms.map fun m => m.id) : Addressed ms' := by
  have hfilter (ms : List LoopMessage) :
      (ms.filterMap fun m => m.id) = (ms.map fun m => m.id).filterMap fun i => i := by
    rw [List.filterMap_map]
    rfl
  apply Addressed.mk
  · rw [hfilter, hids, ← hfilter]
    exact h.apart
  · intro m hm
    have hmem : m.id ∈ ms'.map fun m => m.id := List.mem_map_of_mem hm
    rw [hids] at hmem
    obtain ⟨m', hm', hid⟩ := List.mem_map.1 hmem
    rw [← hid]
    exact h.plain m' hm'

theorem substitute_cons (n : Message) (news : List Message) (m : LoopMessage) :
    substitute (n :: news) m =
      if n.id.isSome && decide (n.id = m.id) then .ofMessage n else substitute news m := by
  rw [substitute, List.find?_cons]
  cases n.id.isSome && decide (n.id = m.id) <;> rfl

theorem substitute_other {news : List Message} {m : LoopMessage}
    (h : ∀ n ∈ news, n.id ≠ m.id) : substitute news m = m := by
  have hnone : (news.find? fun n => n.id.isSome && decide (n.id = m.id)) = none := by
    rw [List.find?_eq_none]
    intro n hn hfound
    rw [Bool.and_eq_true] at hfound
    exact h n hn (of_decide_eq_true hfound.2)
  rw [substitute, hnone]

theorem substitute_id (news : List Message) (m : LoopMessage) :
    (substitute news m).id = m.id := by
  rw [substitute]
  split
  · next n hn =>
    have hfound := List.find?_some hn
    rw [Bool.and_eq_true] at hfound
    exact of_decide_eq_true hfound.2
  · rfl

theorem applyUpdates_replaces {news : List Message} (hnodup : (news.map Message.id).Nodup)
    (hmem : ∀ n ∈ news, n.id ≠ none ∧ ∃ m ∈ ms, m.id = n.id) :
    applyUpdates ms (news.map .put) = substituted ms news := by
  induction news generalizing ms with
  | nil =>
    symm
    exact List.map_id ms
  | cons n news ih =>
    obtain ⟨hn, hnews⟩ := List.nodup_cons.1 hnodup
    obtain ⟨hsome, m, hm, hid⟩ := hmem n List.mem_cons_self
    have hisSome : n.id.isSome = true := Option.isSome_iff_ne_none.2 hsome
    have hany : (ms.any fun k => decide (k.id = n.id)) = true :=
      List.any_eq_true.2 ⟨m, hm, decide_eq_true hid⟩
    have hput : putUpdate ms n = ms.map fun k => if k.id = n.id then .ofMessage n else k := by
      rw [putUpdate, hisSome, hany]
      rfl
    have hids : (putUpdate ms n).map (fun m => m.id) = ms.map fun m => m.id := by
      rw [hput, List.map_map]
      apply List.map_congr_left
      intro k _
      rw [Function.comp]
      split
      · next heq => exact heq.symm
      · rfl
    have hstep : applyUpdates ms ((n :: news).map .put) =
        applyUpdates (putUpdate ms n) (news.map .put) := rfl
    rw [hstep, ih hnews]
    · rw [hput, substituted, substituted, List.map_map]
      apply List.map_congr_left
      intro k _
      rw [Function.comp, substitute_cons, hisSome, Bool.true_and]
      by_cases heq : k.id = n.id
      · rw [if_pos heq, if_pos (decide_eq_true heq.symm)]
        apply substitute_other
        intro n' hn' hsame
        exact hn (List.mem_map.2 ⟨n', hn', hsame⟩)
      · rw [if_neg heq, if_neg (by simpa using fun h => heq h.symm)]
    · intro n' hn'
      obtain ⟨hsome', m', hm', hid'⟩ := hmem n' (List.mem_cons_of_mem n hn')
      have hmem' : n'.id ∈ (putUpdate ms n).map fun m => m.id := by
        rw [hids, ← hid']
        exact List.mem_map_of_mem hm'
      obtain ⟨k, hk, hkid⟩ := List.mem_map.1 hmem'
      exact ⟨hsome', k, hk, hkid⟩

theorem reduces_applyUpdates : Reduces applyUpdates where
  drops ms ids summary h _ hsummary := by
    have hupdates : applyUpdates ms (ids.map .remove ++ summary.toList.map .put) =
        dropped ms ids summary := by
      rw [applyUpdates_append, applyUpdates_removes, dropped]
      cases summary with
      | none => exact (List.append_nil _).symm
      | some s =>
        have hid : s.id = none := hsummary s rfl
        have hput (ms : List LoopMessage) : putUpdate ms s = ms ++ [.ofMessage s] := by
          rw [putUpdate, hid]
          rfl
        exact hput _
    rw [hupdates]
    refine ⟨Filled.refl _, ?_⟩
    have hfilter := h.filter fun m => !m.id.any fun i => decide (i ∈ ids)
    rw [dropped]
    cases summary with
    | none =>
      rw [Option.toList_none, List.map_nil, List.append_nil]
      exact hfilter
    | some s =>
      have hid : (LoopMessage.ofMessage s).id = none := hsummary s rfl
      apply Addressed.mk
      · rw [List.filterMap_append]
        simpa [hid] using hfilter.apart
      · intro m hm
        cases List.mem_append.1 hm with
        | inl hm => exact hfilter.plain m hm
        | inr hm =>
          cases List.mem_singleton.1 hm
          simp [hid]
  replaces ms news h hnodup hmem := by
    rw [applyUpdates_replaces hnodup hmem]
    refine ⟨Filled.refl _, h.of_ids ?_⟩
    rw [substituted, List.map_map]
    apply List.map_congr_left
    intro m _
    exact substitute_id news m

end Prismal.Agents
