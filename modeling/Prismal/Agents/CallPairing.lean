import Prismal.Agents.CompactedHistory

namespace Prismal.Agents
open Prismal.Budget Prismal.Lib Prismal.Providers Prismal.Utils
set_option autoImplicit true

/-! Whether the replies of tools come after the messages that ask for them. -/

def LoopMessage.asked (m : LoopMessage) : List (Option String) :=
  if m.type = .ai then m.toolCalls.map ToolCall.id else []

def WellCalled (ms : List LoopMessage) : Prop :=
  AtEach (fun before m => m.type = .tool → ∃ a ∈ before, some m.toolCallId ∈ a.asked) ms

/-- A history with what a compaction keeps of it: of the first `k` messages those that it cannot
remove, and the rest. -/
def marked (removable : Message → Bool) (k : Nat) (ms : List LoopMessage) :
    List (LoopMessage × Bool) :=
  (ms.take k).map (fun m => (m, !removable m.toMessage)) ++ (ms.drop k).map fun m => (m, true)

/-- A call is cut off from its reply: an AIMessage that is dropped asks for a ToolMessage that is
kept, and none that is kept asks for it again before. -/
def Severed (ms : List (LoopMessage × Bool)) : Prop :=
  ∃ before m after, ms = before ++ (m, true) :: after ∧ m.type = .tool ∧
    (∃ a, (a, false) ∈ before ∧ some m.toolCallId ∈ a.asked) ∧
    ∀ a, (a, true) ∈ before → some m.toolCallId ∉ a.asked

def keptOf (ms : List (LoopMessage × Bool)) : List LoopMessage := (ms.filter Prod.snd).map Prod.fst

variable {ms ms' : List LoopMessage}

def callSide (m : LoopMessage) : Option String × List (Option String) :=
  (if m.type = .tool then some m.toolCallId else none, m.asked)

theorem wellCalled_iff : WellCalled ms ↔
    AtEach (fun before m => ∀ i, m.1 = some i → ∃ a ∈ before, some i ∈ a.2) (ms.map callSide) := by
  rw [atEach_map, WellCalled]
  have hpred (before : List LoopMessage) (m : LoopMessage) :
      (m.type = .tool → ∃ a ∈ before, some m.toolCallId ∈ a.asked) ↔
        ∀ i, (callSide m).1 = some i → ∃ a ∈ before.map callSide, some i ∈ a.2 := by
    have hask (i : String) : (∃ a ∈ before.map callSide, some i ∈ a.2) ↔
        ∃ a ∈ before, some i ∈ a.asked := by
      simp [callSide]
    simp only [hask]
    by_cases htype : m.type = .tool
    · simp [callSide, htype]
    · simp [callSide, htype]
  simp only [hpred]

theorem wellCalled_congr (h : ms'.map callSide = ms.map callSide) :
    WellCalled ms' ↔ WellCalled ms := by
  rw [wellCalled_iff, wellCalled_iff, h]

theorem Filled.wellCalled (h : Filled ms ms') : WellCalled ms' ↔ WellCalled ms :=
  wellCalled_congr (h.map_eq callSide fun _ _ => rfl)

theorem wellCalled_kept {ms : List (LoopMessage × Bool)} (h : WellCalled (ms.map Prod.fst)) :
    WellCalled (keptOf ms) ↔ ¬ Severed ms := by
  rw [WellCalled, keptOf, atEach_map, atEach_filter]
  apply Iff.intro
  · intro hkept ⟨before, m, after, hms, htype, _, hno⟩
    obtain ⟨a, ha, hask⟩ := hkept before (m, true) after hms rfl htype
    obtain ⟨⟨a', b⟩, ha', rfl⟩ := List.mem_map.1 ha
    obtain ⟨hmem, hb⟩ := List.mem_filter.1 ha'
    cases hb
    exact hno a' hmem hask
  · intro hsevered before m after hms hm htype
    have hcalled : ∃ a ∈ before.map Prod.fst, some m.1.toolCallId ∈ a.asked :=
      (atEach_map.1 h) before m after hms htype
    obtain ⟨_, ha, hask⟩ := hcalled
    obtain ⟨⟨a, b⟩, hmem, rfl⟩ := List.mem_map.1 ha
    by_contra hnone
    have hno : ∀ a, (a, true) ∈ before → some m.1.toolCallId ∉ a.asked := by
      intro a' ha' hask'
      apply hnone
      exact ⟨a', List.mem_map.2 ⟨(a', true), List.mem_filter.2 ⟨ha', rfl⟩, rfl⟩, hask'⟩
    cases b with
    | true => exact hno a hmem hask
    | false =>
      obtain ⟨m, b⟩ := m
      cases hm
      exact hsevered ⟨before, m, after, hms, htype, ⟨a, hmem, hask⟩, hno⟩

theorem fst_marked (removable : Message → Bool) (k : Nat) (ms : List LoopMessage) :
    (marked removable k ms).map Prod.fst = ms := by
  simp [marked, Function.comp_def]

theorem keptOf_marked (removable : Message → Bool) (k : Nat) (ms : List LoopMessage) :
    keptOf (marked removable k ms) =
      (ms.take k).filter (fun m => !removable m.toMessage) ++ ms.drop k := by
  have hfirst (xs : List LoopMessage) :
      ((xs.map fun m => (m, !removable m.toMessage)).filter Prod.snd).map Prod.fst =
        xs.filter fun m => !removable m.toMessage := by
    rw [List.filter_map, List.map_map]
    exact List.map_id _
  have hrest (xs : List LoopMessage) :
      ((xs.map fun m => (m, true)).filter Prod.snd).map Prod.fst = xs := by
    rw [List.filter_map, List.map_map, List.filter_eq_self.2 (by simp)]
    exact List.map_id _
  rw [keptOf, marked, List.filter_append, List.map_append, hfirst, hrest]

theorem wellCalled_summary_end {s : LoopMessage} (hs : s.type ≠ .tool) :
    WellCalled (ms ++ [s]) ↔ WellCalled ms := by
  rw [WellCalled, atEach_concat_iff]
  exact and_iff_left fun htype => absurd htype hs

theorem wellCalled_summary_front {s : LoopMessage} (hs : s.type ≠ .tool)
    (hcalls : s.toolCalls = []) : WellCalled (s :: ms) ↔ WellCalled ms := by
  have hasked : s.asked = [] := by simp [LoopMessage.asked, hcalls]
  rw [WellCalled, atEach_cons, and_iff_right fun htype => absurd htype hs]
  simp [hasked, WellCalled]

namespace ContextCompactor

variable {st : CompactionSettings} {host : CompactionHost}
  {add : List LoopMessage → List MessageUpdate → List LoopMessage}

def Intact (st : CompactionSettings) (removable : Message → Bool) (ms : List LoopMessage) : Prop :=
  effectiveStrategy st = .maskObservations ∨
    ¬ Severed (marked removable (olderCount st (plainOf ms)) ms)

theorem callSide_substituted (h : Addressed ms) :
    (substituted ms (maskObservations st host (plainOf ms)).replaced).map callSide =
      ms.map callSide := by
  apply List.ext_getElem?
  intro i
  rw [substituted, List.map_map, List.getElem?_map, List.getElem?_map]
  cases hm : ms[i]? with
  | none => rfl
  | some m =>
    rw [Option.map_some, Option.map_some, Function.comp]
    congr 1
    cases substitute_cases st host h hm with
    | inl hedit =>
      obtain ⟨e, he, hindex, hnew⟩ := hedit
      obtain ⟨m', x, artifact, hm', htype, _, hstub⟩ := edit_stub he
      rw [hindex, hm] at hm'
      cases hm'
      rw [hnew, hstub]
      simp [callSide, LoopMessage.asked, LoopMessage.ofMessage, stubOf, htype]
    | inr hnone => rw [hnone.2]

theorem history_kept (host : CompactionHost) (hadd : Reduces add) (h : Addressed ms)
    (hst : effectiveStrategy st ≠ .maskObservations) :
    ∃ summary : Option Message, (∀ s ∈ summary, s.type ≠ .tool) ∧
      Filled (keptAfter ms (olderCount st (plainOf ms)) ++ summary.toList.map .ofMessage)
        (add ms (toStateUpdate (compact st host (plainOf ms)))) := by
  by_cases hidle : removed st (plainOf ms) = []
  · refine ⟨none, by simp, ?_⟩
    rw [compact_idle hst hidle, keptAfter_idle hidle, Option.toList_none, List.map_nil,
      List.append_nil]
    exact (hadd.idle h).1
  · refine ⟨_, ?_, (history_dropped host hadd h hst hidle).1⟩
    intro s hs
    rw [summaryOf] at hs
    split at hs
    · obtain ⟨_, _, rfl⟩ := Option.map_eq_some_iff.1 hs
      exact fun htype => by cases htype
    · cases hs

theorem compact_wellCalled_iff (hms : WellCalled ms) (hadd : Reduces add) (h : Addressed ms) :
    WellCalled (add ms (toStateUpdate (compact st host (plainOf ms)))) ↔ Intact st hasId ms := by
  rw [Intact]
  by_cases hst : effectiveStrategy st = .maskObservations
  · rw [compact, if_pos hst, (history_masked st host hadd h).1.wellCalled,
      wellCalled_congr (callSide_substituted h)]
    exact iff_of_true hms (.inl hst)
  · obtain ⟨summary, htype, hfilled⟩ := history_kept host hadd h hst
    have hkept := wellCalled_kept ((fst_marked hasId (olderCount st (plainOf ms)) ms).symm ▸ hms)
    have hsame : keptOf (marked hasId (olderCount st (plainOf ms)) ms) =
        keptAfter ms (olderCount st (plainOf ms)) := keptOf_marked hasId _ ms
    rw [hsame] at hkept
    rw [hfilled.wellCalled, or_iff_right hst, ← hkept]
    cases summary with
    | none => rw [Option.toList_none, List.map_nil, List.append_nil]
    | some s => exact wellCalled_summary_end (htype s rfl)

theorem compactList_dropped {used : Option Usage}
    (hdue : shouldCompact st used (plainOf ms) = true)
    (hst : effectiveStrategy st ≠ .maskObservations) :
    WellCalled (compactList st host used ms).messages ↔
      WellCalled (ms.drop (olderCount st (plainOf ms))) := by
  have hplain : ms.map LoopMessage.toMessage = plainOf ms := rfl
  rw [compactList]
  dsimp only
  rw [hplain, hdue, if_neg (by simp), if_neg hst]
  split
  · next hlen =>
    rw [olderCount_zero (by rw [plainOf, List.length_map]; exact hlen)]
    rfl
  · split
    · next hnone =>
      have hall := List.take_append_drop (olderCount st (plainOf ms)) ms
      rw [← hplain, ← List.map_take, List.map_eq_nil_iff, hplain] at hnone
      rw [hnone, List.nil_append] at hall
      rw [hall]
    · split
      · cases host.summarize ((plainOf ms).take (olderCount st (plainOf ms))) with
        | none => exact Iff.rfl
        | some s => exact wellCalled_summary_front (by simp [summaryMessage]) rfl
      · exact Iff.rfl

theorem compactList_wellCalled_iff (hms : WellCalled ms) (used : Option Usage) :
    WellCalled (compactList st host used ms).messages ↔
      shouldCompact st used (plainOf ms) = false ∨ Intact st (fun _ => true) ms := by
  have hplain : ms.map LoopMessage.toMessage = plainOf ms := rfl
  cases hdue : shouldCompact st used (plainOf ms) with
  | false =>
    rw [compactList, hplain, hdue]
    exact iff_of_true hms (.inl rfl)
  | true =>
    rw [or_iff_right (by simp), Intact]
    by_cases hst : effectiveStrategy st = .maskObservations
    · rw [compactList, hplain, hdue, if_neg (by simp), if_pos hst]
      apply iff_of_true _ (.inl hst)
      apply (wellCalled_congr _).2 hms
      rw [List.map_append, maskInPlace_map callSide (fun _ _ => rfl), ← List.map_append,
        List.take_append_drop]
    · have hkept := wellCalled_kept
        ((fst_marked (fun _ => true) (olderCount st (plainOf ms)) ms).symm ▸ hms)
      rw [keptOf_marked] at hkept
      have hnone : ((ms.take (olderCount st (plainOf ms))).filter fun _ => !true) = [] :=
        List.filter_eq_nil_iff.2 (by simp)
      rw [hnone, List.nil_append] at hkept
      rw [compactList_dropped hdue hst, or_iff_right hst, hkept]

/-- A compaction keeps a history well paired exactly if it is not due, masks, or cuts off no
call. -/
theorem compaction_pairs_iff (st : CompactionSettings) (host : CompactionHost)
    (ms : List LoopMessage) (hms : WellCalled ms) :
    (∀ add, Reduces add → Addressed ms →
      (WellCalled (add ms (toStateUpdate (compact st host (plainOf ms)))) ↔ Intact st hasId ms)) ∧
    ∀ used, (WellCalled (compactList st host used ms).messages ↔
      shouldCompact st used (plainOf ms) = false ∨ Intact st (fun _ => true) ms) :=
  ⟨fun _ hadd h => compact_wellCalled_iff hms hadd h, compactList_wellCalled_iff hms⟩

def splitCall : List LoopMessage :=
  [{ id := some "q", type := .ai, content := "",
     toolCalls := [{ id := some "c", name := "search" }] },
    { id := some "r", type := .tool, content := "found", toolCallId := "c" }]

def keepOne : CompactionSettings := { maxMessages := 1, keepRecent := 1 }

/-- The reply is kept without the call that it replies to. -/
theorem splitCall_cut :
    WellCalled splitCall ∧
      ¬ WellCalled (compactList keepOne { summarize := fun _ => none, put := fun _ _ => none } none
        splitCall).messages ∧
      ¬ WellCalled (applyUpdates splitCall (toStateUpdate (compact keepOne
        { summarize := fun _ => none, put := fun _ _ => none } (plainOf splitCall)))) := by
  have hlist : (compactList keepOne { summarize := fun _ => none, put := fun _ _ => none } none
      splitCall).messages = splitCall.drop 1 := by decide
  have hstate : applyUpdates splitCall (toStateUpdate (compact keepOne
      { summarize := fun _ => none, put := fun _ _ => none } (plainOf splitCall))) =
        splitCall.drop 1 := by decide
  rw [hlist, hstate]
  simp [WellCalled, splitCall, atEach_cons, atEach_nil, LoopMessage.asked]

/-- The same call stays with its reply where both are recent. -/
theorem splitCall_kept :
    WellCalled (applyUpdates splitCall (toStateUpdate (compact { keepOne with keepRecent := 2 }
      { summarize := fun _ => none, put := fun _ _ => none } (plainOf splitCall)))) := by
  have hcalled : WellCalled splitCall := by
    simp [WellCalled, splitCall, atEach_cons, atEach_nil, LoopMessage.asked]
  have haddressed : Addressed splitCall := ⟨by decide, by decide⟩
  have hkeep : olderCount { keepOne with keepRecent := 2 } (plainOf splitCall) = 0 := by decide
  apply ((compaction_pairs_iff { keepOne with keepRecent := 2 }
    { summarize := fun _ => none, put := fun _ _ => none } splitCall hcalled).1 applyUpdates
    reduces_applyUpdates haddressed).2
  right
  rw [hkeep, ← wellCalled_kept (by rw [fst_marked]; exact hcalled), keptOf_marked]
  exact hcalled

end ContextCompactor

end Prismal.Agents
