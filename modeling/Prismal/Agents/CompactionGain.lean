import Prismal.Agents.CompactedHistory

namespace Prismal.Agents
open Prismal.Budget Prismal.Lib Prismal.Providers Prismal.Utils
set_option autoImplicit true

/-! Whether a compaction makes a history smaller. -/

namespace Masker
open ContextCompactor

/-- What each output that the store accepts saves, when it is asked for all that may be masked. -/
def savings (M : Masker σ) (all : List Message) : List Message → σ → List Int
  | [], _ => []
  | m :: rest, t =>
    if M.observation m && M.dispensable all m then
      match M.put t m with
      | (t, none) => savings M all rest t
      | (t, some artifact) =>
        (estimateTokens m.content - estimateTokens (stubOf m artifact).content : Int) ::
          savings M all rest t
    else savings M all rest t

/-- Masking is worth it: nothing is stored, or the stubs are shorter in all than their outputs, or
some of the oldest outputs save enough to reach the low water mark. -/
def Saves (M : Masker σ) (all : List Message) (store : σ) : Prop :=
  let gains := M.savings all (all.take (maskBoundary M.st all)) store
  gains = [] ∨ 0 < gains.sum ∨ ∃ part, part <+: gains ∧ M.spent (estimate all - part.sum) = true

variable {M : Masker σ} {all : List Message}

/-- The loop saves what a part of the outputs saves: all of them, or up to the low water mark. -/
structure Stops (M : Masker σ) (s s' : MaskPass σ) (gains part : List Int) : Prop where
  isPrefix : part <+: gains
  remaining : s'.remaining = s.remaining - part.sum
  count : s'.replacements.length = s.replacements.length + part.length
  stop : part = gains ∨ M.spent s'.remaining = true
  first : ∀ q, q <+: part → q ≠ part → M.spent (s.remaining - q.sum) = false

theorem stops_nil (h : gains = [] ∨ M.spent s.remaining = true) : M.Stops s s gains [] where
  isPrefix := List.nil_prefix
  remaining := by simp
  count := rfl
  stop := h.imp_left Eq.symm
  first q hq hne := absurd (List.prefix_nil.1 hq) hne

theorem visit_savings (M : Masker σ) (all : List Message) (m : Message) (rest : List Message)
    (k : Nat) (s : MaskPass σ) :
    (M.visit all s k m).remaining = s.remaining ∧
      (M.visit all s k m).replacements = s.replacements ∧
      M.savings all (m :: rest) s.store = M.savings all rest (M.visit all s k m).store ∨
    ∃ gain stub, (M.visit all s k m).remaining = s.remaining - gain ∧
      (M.visit all s k m).replacements = s.replacements ++ [stub] ∧
      M.savings all (m :: rest) s.store = gain :: M.savings all rest (M.visit all s k m).store := by
  rw [visit, savings]
  cases M.observation m && M.dispensable all m with
  | false => exact .inl ⟨rfl, rfl, rfl⟩
  | true =>
    cases hput : M.put s.store m with
    | mk store artifact =>
      cases artifact with
      | none => exact .inl ⟨rfl, rfl, rfl⟩
      | some artifact =>
        right
        refine ⟨_, _, ?_, rfl, rfl⟩
        simp only [if_true]
        omega

theorem loop_stops (M : Masker σ) (all messages : List Message) (k : Nat) (s : MaskPass σ) :
    ∃ part, M.Stops s (M.loop all (messages.zipIdx k) s) (M.savings all messages s.store) part := by
  induction messages generalizing k s with
  | nil => exact ⟨[], stops_nil (.inl rfl)⟩
  | cons m rest ih =>
    rw [List.zipIdx_cons, loop]
    split
    · next hspent => exact ⟨[], stops_nil (.inr hspent)⟩
    · next hspent =>
      obtain ⟨part, hpart⟩ := ih (k + 1) (M.visit all s k m)
      cases M.visit_savings all m rest k s with
      | inl hsame =>
        obtain ⟨hremaining, hreplacements, hsavings⟩ := hsame
        rw [hsavings]
        refine ⟨part, hpart.isPrefix, ?_, ?_, hpart.stop, ?_⟩
        · rw [hpart.remaining, hremaining]
        · rw [hpart.count, hreplacements]
        · rw [← hremaining]
          exact hpart.first
      | inr hstub =>
        obtain ⟨gain, stub, hremaining, hreplacements, hsavings⟩ := hstub
        rw [hsavings]
        refine ⟨gain :: part, ?_, ?_, ?_, ?_, ?_⟩
        · exact List.cons_prefix_cons.2 ⟨rfl, hpart.isPrefix⟩
        · rw [hpart.remaining, hremaining, List.sum_cons]
          omega
        · rw [hpart.count, hreplacements, List.length_append, List.length_cons, List.length_cons,
            List.length_nil]
          omega
        · exact hpart.stop.imp_left fun heq => by rw [heq]
        · intro q hq hne
          cases q with
          | nil =>
            rw [List.sum_nil, Int.sub_zero]
            exact Bool.eq_false_iff.2 hspent
          | cons g q =>
            obtain ⟨rfl, hq'⟩ := List.cons_prefix_cons.1 hq
            have hrest := hpart.first q hq' fun heq => hne (by rw [heq])
            rw [hremaining] at hrest
            rw [List.sum_cons, ← Int.sub_sub]
            exact hrest

theorem spent_lt {a b : Int} (ha : M.spent a = true) (hb : M.spent b = false) : a < b := by
  rw [spent] at ha hb
  cases hlow : lowWater M.st with
  | none =>
    rw [hlow] at ha
    cases ha
  | some low =>
    rw [hlow] at ha hb
    have hle : a ≤ low := of_decide_eq_true ha
    have hgt : ¬ b ≤ low := of_decide_eq_false hb
    omega

theorem shrinks_iff (M : Masker σ) (all : List Message) (store : σ) :
    (estimate (M.masked all store) ≤ estimate all ∧
      ((M.mask all store).replacements ≠ [] →
        estimate (M.masked all store) < estimate all)) ↔ M.Saves all store := by
  obtain ⟨part, hpart⟩ := M.loop_stops all (all.take (maskBoundary M.st all)) 0
    { store := store, remaining := estimate all }
  have hestimate : (estimate (M.masked all store) : Int) = estimate all - part.sum := by
    rw [estimate_masked]
    exact hpart.remaining
  have hcount : (M.mask all store).replacements = [] ↔ part = [] := by
    have hlength : (M.mask all store).replacements.length = part.length := by
      rw [mask, hpart.count]
      exact Nat.zero_add _
    rw [← List.length_eq_zero_iff, hlength, List.length_eq_zero_iff]
  have hfirst := hpart.first
  have hstop := hpart.stop
  rw [hpart.remaining] at hstop
  dsimp only at hfirst hstop
  have hbelow (hne : part ≠ []) (hspent : M.spent (estimate all - part.sum) = true) :
      0 < part.sum := by
    have hstart := hfirst [] List.nil_prefix (fun heq => hne heq.symm)
    have hlt := spent_lt hspent hstart
    rw [List.sum_nil] at hlt
    omega
  rw [Saves]
  apply Iff.intro
  · intro h
    obtain ⟨_, hless⟩ := h
    cases hstop with
    | inr hspent => exact .inr (.inr ⟨part, hpart.isPrefix, hspent⟩)
    | inl hall =>
      rw [← hall]
      by_cases hnone : part = []
      · exact .inl hnone
      · have hlt := hless fun hreps => hnone (hcount.1 hreps)
        right
        left
        omega
  · intro hsaves
    have hgain : part = [] ∨ 0 < part.sum := by
      by_cases hnone : part = []
      · exact .inl hnone
      · right
        cases hstop with
        | inr hspent => exact hbelow hnone hspent
        | inl hall =>
          rw [← hall] at hsaves
          cases hsaves with
          | inl hempty => exact absurd hempty hnone
          | inr hsaves =>
            cases hsaves with
            | inl hpos => exact hpos
            | inr hlow =>
              obtain ⟨q, hq, hspent⟩ := hlow
              by_cases heq : q = part
              · rw [heq] at hspent
                exact hbelow hnone hspent
              · rw [hfirst q hq heq] at hspent
                cases hspent
    cases hgain with
    | inl hnone =>
      rw [hnone, List.sum_nil] at hestimate
      exact ⟨by omega, fun hreps => absurd (hcount.2 hnone) hreps⟩
    | inr hpos => exact ⟨by omega, fun _ => by omega⟩

end Masker

namespace ContextCompactor

variable {st : CompactionSettings} {host : CompactionHost} {ms : List LoopMessage}
  {add : List LoopMessage → List MessageUpdate → List LoopMessage}

def Saving (st : CompactionSettings) (host : CompactionHost) (messages : List Message) : Prop :=
  if effectiveStrategy st = .maskObservations then (stateMasker st host).Saves messages 0
  else removed st messages = [] ∨
    estimate (summaryOf st host (older st messages)).toList < estimate (removed st messages)

def Shrinks (st : CompactionSettings) (host : CompactionHost)
    (add : List LoopMessage → List MessageUpdate → List LoopMessage) (ms : List LoopMessage) :
    Prop :=
  let result := compact st host (plainOf ms)
  let out := add ms (toStateUpdate result)
  estimate (plainOf out) ≤ estimate (plainOf ms) ∧
    (result.compacted = true → estimate (plainOf out) < estimate (plainOf ms))

theorem estimate_append (ms ms' : List Message) :
    estimate (ms ++ ms') = estimate ms + estimate ms' := by
  rw [estimate, estimate, estimate, List.map_append, List.sum_append]

theorem estimate_partition (ms : List Message) :
    estimate (ms.filter fun m => !hasId m) + estimate (ms.filter hasId) = estimate ms := by
  induction ms with
  | nil => rfl
  | cons m ms ih =>
    have hcons (m : Message) (ms : List Message) :
        estimate (m :: ms) = estimateTokens m.content + estimate ms := rfl
    cases hid : hasId m with
    | false =>
      rw [List.filter_cons_of_pos (by simp [hid]), List.filter_cons_of_neg (by simp [hid]), hcons,
        hcons]
      omega
    | true =>
      rw [List.filter_cons_of_neg (by simp [hid]), List.filter_cons_of_pos (by simp [hid]), hcons,
        hcons]
      omega

theorem estimate_keptAfter (st : CompactionSettings) (ms : List LoopMessage) :
    estimate (plainOf (keptAfter ms (olderCount st (plainOf ms)))) +
      estimate (removed st (plainOf ms)) = estimate (plainOf ms) := by
  have hkept : plainOf (keptAfter ms (olderCount st (plainOf ms))) =
      (older st (plainOf ms)).filter (fun m => !hasId m) ++
        (plainOf ms).drop (olderCount st (plainOf ms)) := by
    rw [keptAfter, older, plainOf, List.map_append, List.map_drop, plainOf, ← List.map_take,
      List.filter_map]
    rfl
  have hsplit := List.take_append_drop (olderCount st (plainOf ms)) (plainOf ms)
  have hestimate := congrArg estimate hsplit
  have hparts := estimate_partition (older st (plainOf ms))
  rw [estimate_append] at hestimate
  rw [hkept, removed, estimate_append]
  rw [older] at hparts ⊢
  omega

theorem compact_shrinks_iff (hadd : Reduces add) (h : Addressed ms) :
    Shrinks st host add ms ↔ Saving st host (plainOf ms) := by
  rw [Shrinks, Saving]
  by_cases hst : effectiveStrategy st = .maskObservations
  · have hcompact : compact st host (plainOf ms) = maskObservations st host (plainOf ms) :=
      if_pos hst
    have hcompacted : (maskObservations st host (plainOf ms)).compacted = true ↔
        ((stateMasker st host).mask (plainOf ms) 0).replacements ≠ [] := by
      have hempty : (maskObservations st host (plainOf ms)).compacted =
          !(maskObservations st host (plainOf ms)).replaced.isEmpty := rfl
      rw [hempty, replaced_maskObservations]
      simp
    have hestimate := (history_masked st host hadd h).1.estimate_eq
    rw [substituted_masked h] at hestimate
    rw [hcompact, if_pos hst, ← Masker.shrinks_iff]
    rw [hcompacted, hestimate]
  · rw [if_neg hst]
    by_cases hidle : removed st (plainOf ms) = []
    · rw [compact_idle hst hidle]
      apply iff_of_true _ (.inl hidle)
      exact ⟨((hadd.idle h).1.estimate_eq).le, fun hfalse => by cases hfalse⟩
    · have hsummary : plainOf ((summaryOf st host (older st (plainOf ms))).toList.map .ofMessage) =
          (summaryOf st host (older st (plainOf ms))).toList := by
        rw [plainOf, List.map_map]
        exact List.map_id _
      have hout := (history_dropped host hadd h hst hidle).1.estimate_eq
      have happend (ms ms' : List LoopMessage) : plainOf (ms ++ ms') = plainOf ms ++ plainOf ms' :=
        List.map_append
      rw [happend, hsummary, estimate_append] at hout
      have hkept := estimate_keptAfter st ms
      have hcompacted : (compact st host (plainOf ms)).compacted = true := by
        rw [compact_dropped hst hidle]
        exact (dropOlder_eq st host _).1
      rw [or_iff_right hidle]
      apply Iff.intro
      · intro h
        obtain ⟨_, hless⟩ := h
        have hlt := hless hcompacted
        omega
      · intro hlt
        exact ⟨by omega, fun _ => by omega⟩

/-! Hops without new messages. -/

/-- The messages of a session between two hops, and what the compactor remembers. -/
structure HopState where
  run : CompactionRun
  messages : List LoopMessage

abbrev HopInput := CompactionHost × Option Usage

def hop (st : CompactionSettings) (add : List LoopMessage → List MessageUpdate → List LoopMessage)
    (s : HopState) (input : HopInput) : HopState × Bool :=
  let (run, result) := maybeCompactContext st input.1 s.run input.2 (plainOf s.messages)
  ({ run := run, messages := add s.messages (toStateUpdate result) }, result.compacted)

def hops (st : CompactionSettings) (add : List LoopMessage → List MessageUpdate → List LoopMessage)
    (s : HopState) (inputs : List HopInput) : HopState :=
  inputs.foldl (fun s input => (hop st add s input).1) s

def applied (st : CompactionSettings)
    (add : List LoopMessage → List MessageUpdate → List LoopMessage) :
    HopState → List HopInput → Nat
  | _, [] => 0
  | s, input :: inputs =>
    (hop st add s input).2.toNat + applied st add (hop st add s input).1 inputs

def AlwaysSaving (st : CompactionSettings)
    (add : List LoopMessage → List MessageUpdate → List LoopMessage) :
    HopState → List HopInput → Prop
  | _, [] => True
  | s, input :: inputs =>
    Saving st input.1 (plainOf s.messages) ∧ AlwaysSaving st add (hop st add s input).1 inputs

theorem maybeCompactContext_cases (st : CompactionSettings) (host : CompactionHost)
    (run : CompactionRun) (used : Option Usage) (messages : List Message) :
    (maybeCompactContext st host run used messages).2 = { compacted := false } ∨
      (maybeCompactContext st host run used messages).2 = compact st host messages := by
  rw [maybeCompactContext]
  split
  · exact .inl rfl
  · right
    dsimp only
    split <;> rfl

theorem hop_lowers (hadd : Reduces add) {s : HopState} {input : HopInput}
    (h : Addressed s.messages) (hsaving : Saving st input.1 (plainOf s.messages)) :
    Addressed (hop st add s input).1.messages ∧
      (hop st add s input).2.toNat + estimate (plainOf (hop st add s input).1.messages) ≤
        estimate (plainOf s.messages) := by
  rw [hop]
  dsimp only
  cases maybeCompactContext_cases st input.1 s.run input.2 (plainOf s.messages) with
  | inl hidle =>
    rw [hidle]
    have hsame := hadd.idle h
    refine ⟨hsame.2, ?_⟩
    rw [Bool.toNat_false, Nat.zero_add]
    exact hsame.1.estimate_eq.le
  | inr hcompact =>
    rw [hcompact]
    obtain ⟨hle, hlt⟩ := (compact_shrinks_iff hadd h).2 hsaving
    refine ⟨addressed_compact hadd h, ?_⟩
    cases hcompacted : (compact st input.1 (plainOf s.messages)).compacted with
    | false =>
      rw [Bool.toNat_false, Nat.zero_add]
      exact hle
    | true =>
      rw [Bool.toNat_true, Nat.add_comm]
      exact hlt hcompacted

theorem applied_le (hadd : Reduces add) {s : HopState} (inputs : List HopInput)
    (h : Addressed s.messages) (hsaving : AlwaysSaving st add s inputs) :
    applied st add s inputs + estimate (plainOf (hops st add s inputs).messages) ≤
      estimate (plainOf s.messages) := by
  induction inputs generalizing s with
  | nil => exact (Nat.zero_add _).le
  | cons input inputs ih =>
    obtain ⟨hhere, hrest⟩ := hsaving
    obtain ⟨haddressed, hlower⟩ := hop_lowers hadd h hhere
    have hlater := ih haddressed hrest
    have hhops : hops st add s (input :: inputs) = hops st add (hop st add s input).1 inputs := rfl
    rw [applied, hhops]
    omega

/-- Masking and compaction shrink a history exactly if they are worth it; a session whose
compactions always are applies no more of them than its history has tokens. -/
theorem compaction_shrinks_iff (M : Masker σ) (all : List Message) (store : σ)
    (st : CompactionSettings) (add : List LoopMessage → List MessageUpdate → List LoopMessage) :
    ((estimate (M.masked all store) ≤ estimate all ∧
      ((M.mask all store).replacements ≠ [] →
        estimate (M.masked all store) < estimate all)) ↔ M.Saves all store) ∧
    (Reduces add →
      (∀ host ms, Addressed ms → (Shrinks st host add ms ↔ Saving st host (plainOf ms))) ∧
      ∀ s inputs, Addressed s.messages → AlwaysSaving st add s inputs →
        applied st add s inputs + estimate (plainOf (hops st add s inputs).messages) ≤
          estimate (plainOf s.messages)) := by
  apply And.intro
  · exact M.shrinks_iff all store
  · intro hadd
    apply And.intro
    · intro host ms h
      exact compact_shrinks_iff hadd h
    · intro s inputs h hsaving
      exact applied_le hadd inputs h hsaving

/-- A short output becomes a stub that is longer. -/
theorem masked_longer :
    let st : CompactionSettings :=
      { strategy := .maskObservations, maskKeepTurns := 1, tokenEfficiencyEnabled := true }
    let host : CompactionHost := { summarize := fun _ => none, put := fun _ _ => some "a" }
    let ms : List LoopMessage :=
      [{ id := some "t", type := .tool, content := "ok", name := some "search" },
        { id := some "h", type := .human, content := "thanks" }]
    let out := applyUpdates ms (toStateUpdate (compact st host (plainOf ms)))
    (compact st host (plainOf ms)).compacted = true ∧
      estimate (plainOf ms) = 3 ∧ estimate (plainOf out) = 20 := by
  decide

end ContextCompactor

end Prismal.Agents
