import Prismal.Agents.LoopMessages
import Prismal.Agents.Masking

namespace Prismal.Agents
open Prismal.Budget Prismal.Lib Prismal.Providers Prismal.Utils
set_option autoImplicit true

/-! Masking as the sessions and the tool loop call it. -/

namespace ContextCompactor

variable {st : CompactionSettings} {host : CompactionHost} {all : List Message}

def hostMasker (st : CompactionSettings) (host : CompactionHost) (requireId : Bool) :
    Masker Nat where
  st := st
  put tries m := (tries + 1, host.put tries m)
  relevance := host.relevance
  requireId := requireId

theorem maskable_eq (m : Message) : maskable st host all m =
    ((hostMasker st host true).observation m && (hostMasker st host true).dispensable all m) := by
  have hbool : ∀ a b c d : Bool, (a && !b && c && d) = (a && !(b || (true && !c)) && d) := by
    decide
  exact hbool _ _ _ _

theorem observable_eq (m : Message) : observable st host all m =
    ((hostMasker st host false).observation m && (hostMasker st host false).dispensable all m) := by
  have hbool : ∀ a b c d : Bool, (a && !b && d) = (a && !(b || (false && !c)) && d) := by
    decide
  exact hbool _ _ (m.id.any fun i => i ≠ "") _

theorem replacements_maskFrom (messages : List Message) (k : Nat) (s : MaskPass Nat) :
    ((hostMasker st host true).loop all (messages.zipIdx k) s).replacements.map Prod.snd =
      s.replacements.map Prod.snd ++ maskFrom st host all messages s.store s.remaining := by
  induction messages generalizing k s with
  | nil => simp [Masker.loop, maskFrom]
  | cons m rest ih =>
    rw [List.zipIdx_cons, Masker.loop, maskFrom]
    by_cases hspent : (hostMasker st host true).spent s.remaining = true
    · have hlow : ((lowWater st).any fun low => decide (s.remaining ≤ low)) = true := hspent
      rw [if_pos hspent, if_pos hlow, List.append_nil]
    · have hlow : ¬ ((lowWater st).any fun low => decide (s.remaining ≤ low)) = true := hspent
      rw [if_neg hspent, if_neg hlow, ih, maskable_eq, Masker.visit]
      split
      · cases hput : host.put s.store m with
        | none => simp [hostMasker, hput]
        | some artifact => simp [hostMasker, hput, Int.add_sub_assoc]
      · rfl

theorem replaced_maskObservations (st : CompactionSettings) (host : CompactionHost)
    (messages : List Message) : (maskObservations st host messages).replaced =
      ((hostMasker st host true).mask messages 0).replacements.map Prod.snd := by
  rw [Masker.mask, replacements_maskFrom]
  rfl

theorem setAll_append (l : List α) (sets sets' : List (Nat × α)) :
    setAll l (sets ++ sets') = setAll (setAll l sets) sets' := List.foldl_append

theorem setAll_maskInPlace (st : CompactionSettings) (host : CompactionHost) (all : List Message)
    {X : List Message} (messages : List LoopMessage)
    (done : List Message) (later : List Message) (s : MaskPass Nat)
    (h : setAll X s.replacements = done ++ messages.map LoopMessage.toMessage ++ later) :
    setAll X ((hostMasker st host false).loop all
      ((messages.map LoopMessage.toMessage).zipIdx done.length) s).replacements =
      done ++ (maskInPlace st host all messages s.store s.remaining).map LoopMessage.toMessage ++
        later := by
  induction messages generalizing done s with
  | nil => exact h
  | cons m rest ih =>
    rw [List.map_cons, List.zipIdx_cons, Masker.loop, maskInPlace]
    by_cases hspent : (hostMasker st host false).spent s.remaining = true
    · have hlow : ((lowWater st).any fun low => decide (s.remaining ≤ low)) = true := hspent
      rw [if_pos hspent, if_pos hlow]
      exact h
    · have hlow : ¬ ((lowWater st).any fun low => decide (s.remaining ≤ low)) = true := hspent
      have hnext (x : Message) : done ++ x :: rest.map LoopMessage.toMessage ++ later =
          (done ++ [x]) ++ rest.map LoopMessage.toMessage ++ later := by simp
      rw [if_neg hspent, if_neg hlow, observable_eq, Masker.visit]
      rw [List.map_cons] at h
      split
      · cases hput : host.put s.store m.toMessage with
        | none =>
          have hrest := ih (done ++ [m.toMessage])
            { s with
              store := s.store + 1
              errors := s.errors + 1
              attempts := s.attempts ++ [⟨done.length, m.toMessage, none⟩] }
            (h.trans (hnext m.toMessage))
          simpa [hostMasker, hput] using hrest
        | some artifact =>
          have hset : setAll X (s.replacements ++ [(done.length, stubOf m.toMessage artifact)]) =
              done ++ [stubOf m.toMessage artifact] ++ rest.map LoopMessage.toMessage ++ later := by
            rw [setAll_append, h, ← hnext]
            simp [setAll]
          have hrest := ih (done ++ [stubOf m.toMessage artifact])
            { s with
              store := s.store + 1
              remaining := s.remaining + (estimateTokens (stubOf m.toMessage artifact).content -
                estimateTokens m.content : Int)
              replacements := s.replacements ++ [(done.length, stubOf m.toMessage artifact)]
              attempts := s.attempts ++ [⟨done.length, m.toMessage, some artifact⟩] } hset
          simpa [hostMasker, hput, stubMessage, stubOf, Int.add_sub_assoc] using hrest
      · have hrest := ih (done ++ [m.toMessage]) s (h.trans (hnext m.toMessage))
        simpa using hrest

theorem compactList_masked {used : Option Usage} {messages : List LoopMessage}
    (hdue : shouldCompact st used (messages.map LoopMessage.toMessage) = true)
    (hst : effectiveStrategy st = .maskObservations) :
    (compactList st host used messages).messages.map LoopMessage.toMessage =
      (hostMasker st host false).masked (messages.map LoopMessage.toMessage) 0 := by
  have hsplit := List.take_append_drop
    (maskBoundary st (messages.map LoopMessage.toMessage)) (messages.map LoopMessage.toMessage)
  rw [← List.map_take] at hsplit
  have hloop := setAll_maskInPlace st host (messages.map LoopMessage.toMessage)
    (messages.take (maskBoundary st (messages.map LoopMessage.toMessage))) []
    ((messages.map LoopMessage.toMessage).drop
      (maskBoundary st (messages.map LoopMessage.toMessage)))
    { store := 0, remaining := estimate (messages.map LoopMessage.toMessage) } hsplit.symm
  rw [compactList]
  dsimp only
  rw [hdue, if_neg (by simp), if_pos hst, List.map_append, List.map_drop]
  rw [Masker.masked, Masker.mask, ← List.map_take]
  exact hloop.symm

end ContextCompactor

/-! The history that a compaction leaves, once the reducer of the messages has applied it. -/

variable {ms : List LoopMessage} {st : CompactionSettings} {host : CompactionHost}
  {add : List LoopMessage → List MessageUpdate → List LoopMessage}

namespace ContextCompactor

def hasId (m : Message) : Bool := m.id.any fun i => i ≠ ""

theorem mem_idsOf {messages : List Message} {i : String} :
    i ∈ idsOf messages ↔ i ≠ "" ∧ ∃ m ∈ messages, m.id = some i := by
  rw [idsOf, List.mem_filterMap]
  simp only [Option.filter_eq_some_iff, decide_eq_true_eq]
  apply Iff.intro
  · intro ⟨m, hm, hid, hi⟩
    exact ⟨hi, m, hm, hid⟩
  · intro ⟨hi, m, hm, hid⟩
    exact ⟨m, hm, hid, hi⟩

/-- What is left of a history when its first `k` messages are removed by their ids. -/
def keptAfter (ms : List LoopMessage) (k : Nat) : List LoopMessage :=
  (ms.take k).filter (fun m => !hasId m.toMessage) ++ ms.drop k

theorem filter_keptAfter (h : Addressed ms) (k : Nat) :
    (ms.filter fun m => !m.id.any fun i => decide (i ∈ idsOf ((plainOf ms).take k))) =
      keptAfter ms k := by
  have hapart := h.apart
  rw [← List.take_append_drop k ms, List.filterMap_append, List.nodup_append] at hapart
  have hsplit (p : LoopMessage → Bool) :
      ms.filter p = (ms.take k).filter p ++ (ms.drop k).filter p := by
    rw [← List.filter_append, List.take_append_drop]
  have holder (i : String) : i ∈ idsOf ((plainOf ms).take k) ↔
      i ≠ "" ∧ ∃ m ∈ ms.take k, m.id = some i := by
    rw [mem_idsOf, plainOf, ← List.map_take]
    apply and_congr_right
    intro _
    apply Iff.intro
    · intro h
      obtain ⟨_, hm, hid⟩ := h
      obtain ⟨m, hm', rfl⟩ := List.mem_map.1 hm
      exact ⟨m, hm', hid⟩
    · intro h
      obtain ⟨m, hm, hid⟩ := h
      exact ⟨m.toMessage, List.mem_map_of_mem hm, hid⟩
  rw [hsplit, keptAfter]
  congr 1
  · apply List.filter_congr
    intro m hm
    cases hid : m.id with
    | none => simp [hasId, hid]
    | some i =>
      have hmem : i ∈ idsOf ((plainOf ms).take k) ↔ i ≠ "" :=
        (holder i).trans ⟨fun h => h.1, fun hi => ⟨hi, m, hm, hid⟩⟩
      simp [hasId, hid, hmem]
  · rw [List.filter_eq_self]
    intro m hm
    cases hid : m.id with
    | none => rfl
    | some i =>
      have hnot : i ∉ idsOf ((plainOf ms).take k) := by
        rw [holder]
        intro h
        obtain ⟨_, m', hm', hid'⟩ := h
        exact hapart.2.2 i (List.mem_filterMap.2 ⟨m', hm', hid'⟩) i
          (List.mem_filterMap.2 ⟨m, hm, hid⟩) rfl
      simp [hnot]

def summaryOf (st : CompactionSettings) (host : CompactionHost) (older : List Message) :
    Option Message :=
  if effectiveStrategy st = .summarize then
    (host.summarize older).map fun s => summaryMessage older.length s.1
  else none

def older (st : CompactionSettings) (messages : List Message) : List Message :=
  messages.take (olderCount st messages)

theorem dropOlder_eq (st : CompactionSettings) (host : CompactionHost) (older : List Message) :
    (dropOlder st host older).compacted = true ∧
      toStateUpdate (dropOlder st host older) =
        (idsOf older).map .remove ++ (summaryOf st host older).toList.map .put := by
  rw [dropOlder, summaryOf]
  split
  · cases host.summarize older with
    | none => simp [toStateUpdate]
    | some s => simp [toStateUpdate]
  · simp [toStateUpdate]

def removed (st : CompactionSettings) (messages : List Message) : List Message :=
  (older st messages).filter hasId

theorem olderCount_zero {messages : List Message} (h : messages.length ≤ st.keepRecent) :
    olderCount st messages = 0 := by
  have hzero : messages.length - st.keepRecent = 0 := Nat.sub_eq_zero_of_le h
  rw [olderCount, hzero]
  cases lowWater st with
  | none => rfl
  | some low => exact dropTo.eq_1 ..

theorem removed_eq_nil {messages : List Message} :
    removed st messages = [] ↔ idsOf (older st messages) = [] := by
  rw [removed, List.filter_eq_nil_iff, List.eq_nil_iff_forall_not_mem]
  simp only [mem_idsOf, hasId, Option.any_eq_true, not_and, not_exists, decide_eq_true_eq]
  apply Iff.intro
  · intro h i hne m hm hid
    exact h m hm i hid hne
  · intro h m hm i hid hne
    exact h i hne m hm hid

theorem compact_dropped {messages : List Message} (hst : effectiveStrategy st ≠ .maskObservations)
    (h : removed st messages ≠ []) :
    compact st host messages = dropOlder st host (older st messages) := by
  have hlen : ¬ messages.length ≤ st.keepRecent := by
    intro hle
    apply h
    rw [removed, older, olderCount_zero hle]
    rfl
  rw [compact, if_neg hst, if_neg hlen]
  exact if_neg fun hids => h (removed_eq_nil.2 hids)

theorem compact_idle {messages : List Message} (hst : effectiveStrategy st ≠ .maskObservations)
    (h : removed st messages = []) : compact st host messages = { compacted := false } := by
  rw [compact, if_neg hst]
  split
  · rfl
  · exact if_pos (removed_eq_nil.1 h)

theorem keptAfter_idle (h : removed st (plainOf ms) = []) :
    keptAfter ms (olderCount st (plainOf ms)) = ms := by
  rw [removed, older, List.filter_eq_nil_iff] at h
  rw [keptAfter, List.filter_eq_self.2, List.take_append_drop]
  intro m hm
  rw [Bool.not_eq_true']
  apply Bool.eq_false_iff.2
  apply h
  rw [plainOf, ← List.map_take]
  exact List.mem_map_of_mem hm

/-! The histories. -/

theorem history_dropped (host : CompactionHost) (hadd : Reduces add) (h : Addressed ms)
    (hst : effectiveStrategy st ≠ .maskObservations) (hdrops : removed st (plainOf ms) ≠ []) :
    let update := toStateUpdate (compact st host (plainOf ms))
    Filled (keptAfter ms (olderCount st (plainOf ms)) ++
        (summaryOf st host (older st (plainOf ms))).toList.map .ofMessage) (add ms update) ∧
      Addressed (add ms update) := by
  have hsummary : ∀ s ∈ summaryOf st host (older st (plainOf ms)), s.id = none := by
    intro s hs
    rw [summaryOf] at hs
    split at hs
    · obtain ⟨_, _, rfl⟩ := Option.map_eq_some_iff.1 hs
      rfl
    · cases hs
  have hids : ∀ i ∈ idsOf (older st (plainOf ms)), ∃ m ∈ ms, m.id = some i := by
    intro i hi
    obtain ⟨_, m, hm, hid⟩ := mem_idsOf.1 hi
    obtain ⟨m', hm', rfl⟩ := List.mem_map.1 (List.mem_of_mem_take hm)
    exact ⟨m', hm', hid⟩
  have hreduced := hadd.drops ms _ _ h hids hsummary
  rw [dropped, older, filter_keptAfter h] at hreduced
  rw [compact_dropped hst hdrops, (dropOlder_eq st host _).2]
  exact hreduced

theorem toStateUpdate_maskObservations (messages : List Message) :
    toStateUpdate (maskObservations st host messages) =
      (maskObservations st host messages).replaced.map .put := by
  rw [toStateUpdate, maskObservations]
  dsimp only
  split
  · simp
  · next hnone =>
    rw [Bool.not_eq_true, Bool.not_eq_false', List.isEmpty_iff] at hnone
    rw [hnone]
    rfl

abbrev stateMasker (st : CompactionSettings) (host : CompactionHost) : Masker Nat :=
  hostMasker st host true

theorem replaced_eq (messages : List Message) : (maskObservations st host messages).replaced =
    ((stateMasker st host).edits messages 0).map Edit.new := by
  have hreplacements := ((stateMasker st host).mask_covers messages 0).replacements
  rw [replaced_maskObservations, hreplacements, List.nil_append, List.map_map]
  rfl

theorem mem_replaced {messages : List Message} {n : Message} :
    n ∈ (maskObservations st host messages).replaced ↔
      ∃ e ∈ (stateMasker st host).edits messages 0, e.new = n := by
  rw [replaced_eq, List.mem_map]

theorem edit_stub {e : Edit Message} (he : e ∈ (stateMasker st host).edits (plainOf ms) 0) :
    ∃ m x artifact, ms[e.index]? = some m ∧ m.type = .tool ∧ m.id = some x ∧
      e.new = stubOf m.toMessage artifact := by
  obtain ⟨a, ha, artifact, _, rfl⟩ := Masker.mem_edits.1 he
  obtain ⟨_, hhere, hobs, _⟩ := Masker.attempt_here ha
  rw [getElem?_plainOf, Option.map_eq_some_iff] at hhere
  obtain ⟨m, hm, hold⟩ := hhere
  cases hid : m.id with
  | none =>
    rw [Masker.observation, ← hold, hid] at hobs
    simp [hostMasker] at hobs
  | some x =>
    rw [← hold] at hobs
    exact ⟨m, x, artifact, hm, Masker.tool_of_observation hobs, hid, by rw [hold]⟩

theorem substitute_cases (st : CompactionSettings) (host : CompactionHost) (h : Addressed ms)
    {m : LoopMessage} {i : Nat} (hm : ms[i]? = some m) :
    (∃ e ∈ (stateMasker st host).edits (plainOf ms) 0, e.index = i ∧
      substitute (maskObservations st host (plainOf ms)).replaced m = .ofMessage e.new) ∨
    (∀ e ∈ (stateMasker st host).edits (plainOf ms) 0, e.index ≠ i) ∧
      substitute (maskObservations st host (plainOf ms)).replaced m = m := by
  rw [substitute]
  split
  · next n hn =>
    obtain ⟨e, he, rfl⟩ := mem_replaced.1 (List.mem_of_find?_eq_some hn)
    obtain ⟨m', x, artifact, hm', _, hx, hnew⟩ := edit_stub he
    have hfound := List.find?_some hn
    rw [Bool.and_eq_true] at hfound
    have hid : e.new.id = m.id := of_decide_eq_true hfound.2
    left
    refine ⟨e, he, h.index_eq hm' hm hx ?_, rfl⟩
    rw [← hid, hnew]
    exact hx
  · next hnone =>
    right
    refine ⟨?_, rfl⟩
    intro e he hindex
    obtain ⟨m', x, artifact, hm', _, hx, hnew⟩ := edit_stub he
    rw [hindex, hm] at hm'
    cases hm'
    have hmiss := List.find?_eq_none.1 hnone e.new (mem_replaced.2 ⟨e, he, rfl⟩)
    rw [hnew] at hmiss
    simp [stubOf, hx] at hmiss

theorem substituted_masked (h : Addressed ms) :
    plainOf (substituted ms (maskObservations st host (plainOf ms)).replaced) =
      (stateMasker st host).masked (plainOf ms) 0 := by
  have happlicable := (stateMasker st host).applicable_edits (plainOf ms) 0
  apply List.ext_getElem?
  intro i
  rw [getElem?_plainOf, substituted, List.getElem?_map, Masker.masked_eq]
  cases hm : ms[i]? with
  | none =>
    have hlength : ms.length ≤ i := List.getElem?_eq_none_iff.1 hm
    rw [List.getElem?_eq_none]
    · rfl
    · rw [length_edited, plainOf, List.length_map]
      exact hlength
  | some m =>
    rw [Option.map_some, Option.map_some]
    cases substitute_cases st host h hm with
    | inl hedit =>
      obtain ⟨e, he, rfl, hnew⟩ := hedit
      rw [hnew, happlicable.edited_here he]
      rfl
    | inr hnone =>
      obtain ⟨helse, hsame⟩ := hnone
      rw [hsame, edited_elsewhere helse, getElem?_plainOf, hm]
      rfl

theorem history_masked (st : CompactionSettings) (host : CompactionHost) (hadd : Reduces add)
    (h : Addressed ms) :
    let update := toStateUpdate (maskObservations st host (plainOf ms))
    Filled (substituted ms (maskObservations st host (plainOf ms)).replaced) (add ms update) ∧
      Addressed (add ms update) := by
  intro update
  have hupdate : update = (maskObservations st host (plainOf ms)).replaced.map .put :=
    toStateUpdate_maskObservations (plainOf ms)
  rw [hupdate]
  apply hadd.replaces ms _ h
  · have hapart : ((stateMasker st host).edits (plainOf ms) 0).Pairwise fun e e' =>
        e.index ≠ e'.index :=
      List.pairwise_map.1 ((stateMasker st host).applicable_edits (plainOf ms) 0).apart
    rw [replaced_eq, List.map_map]
    apply List.pairwise_map.2
    apply hapart.imp_of_mem
    intro e e' he he' hne hids
    obtain ⟨m, x, artifact, hm, _, hx, hnew⟩ := edit_stub he
    obtain ⟨m', x', artifact', hm', _, _, hnew'⟩ := edit_stub he'
    have hsame : m.id = m'.id := by
      have hids' : e.new.id = e'.new.id := hids
      rw [hnew, hnew'] at hids'
      exact hids'
    exact hne (h.index_eq hm hm' hx (hsame ▸ hx))
  · intro n hn
    obtain ⟨e, he, rfl⟩ := mem_replaced.1 hn
    obtain ⟨m, x, artifact, hm, _, hx, hnew⟩ := edit_stub he
    rw [hnew]
    refine ⟨?_, m, List.mem_of_getElem? hm, rfl⟩
    intro hnone
    cases hx.symm.trans hnone

theorem addressed_compact (hadd : Reduces add) (h : Addressed ms) :
    Addressed (add ms (toStateUpdate (compact st host (plainOf ms)))) := by
  by_cases hst : effectiveStrategy st = .maskObservations
  · rw [compact, if_pos hst]
    exact (history_masked st host hadd h).2
  · by_cases hidle : removed st (plainOf ms) = []
    · rw [compact_idle hst hidle]
      exact (hadd.idle h).2
    · exact (history_dropped host hadd h hst hidle).2

end ContextCompactor

end Prismal.Agents
