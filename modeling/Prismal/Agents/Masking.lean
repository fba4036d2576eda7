import Prismal.Agents.ContextCompaction
import Prismal.Lib.Edits

namespace Prismal.Agents
open Prismal.Budget Prismal.Lib Prismal.Providers Prismal.Utils
set_option autoImplicit true

/-! Masking over an artifact store that has a state. -/

/-- `put` of an artifact store: for an output, the id of the artifact, or none when the call
raised. -/
abbrev ArtifactPort (σ : Type) := σ → Message → σ × Option String

/-- A call of `put` for the message at a position, with its answer. -/
structure Attempt where
  index : Nat
  message : Message
  artifact : Option String

def Attempt.edit? (a : Attempt) : Option (Edit Message) :=
  a.artifact.map fun artifact =>
    ⟨a.index, a.message, ContextCompactor.stubOf a.message artifact⟩

/-- A compactor as `_mask` uses it. -/
structure Masker (σ : Type) where
  st : CompactionSettings
  put : ArtifactPort σ
  relevance : Option (Message → List Message → Rat) := none
  requireId : Bool

/-- The state of the loop. `attempts` is a ghost: the calls of `put` so far. -/
structure MaskPass (σ : Type) where
  store : σ
  remaining : Int
  replacements : List (Nat × Message) := []
  errors : Nat := 0
  attempts : List Attempt := []

namespace Masker
open ContextCompactor

variable (M : Masker σ) (all : List Message)

def dispensable (m : Message) : Bool :=
  M.relevance.all fun f => decide (f m all < M.st.maskRelevanceKeep)

def observation (m : Message) : Bool :=
  decide (m.type = .tool) && !(startsWith m.content maskedPrefix ||
    (M.requireId && !m.id.any fun i => i ≠ ""))

def spent (remaining : Int) : Bool := (lowWater M.st).any fun low => decide (remaining ≤ low)

def visit (s : MaskPass σ) (idx : Nat) (m : Message) : MaskPass σ :=
  if M.observation m && M.dispensable all m then
    match M.put s.store m with
    | (store, none) =>
      { s with
        store := store
        errors := s.errors + 1
        attempts := s.attempts ++ [⟨idx, m, none⟩] }
    | (store, some artifact) =>
      let stub := stubOf m artifact
      { s with
        store := store
        remaining := s.remaining + (estimateTokens stub.content - estimateTokens m.content : Int)
        replacements := s.replacements ++ [(idx, stub)]
        attempts := s.attempts ++ [⟨idx, m, some artifact⟩] }
  else s

def loop : List (Message × Nat) → MaskPass σ → MaskPass σ
  | [], s => s
  | (m, idx) :: rest, s => if M.spent s.remaining then s else loop rest (M.visit all s idx m)

/-- `_mask`; the estimate is only read where there is a low water mark. -/
def mask (store : σ) : MaskPass σ :=
  M.loop all (all.take (maskBoundary M.st all)).zipIdx
    { store := store, remaining := estimate all }

def masked (store : σ) : List Message := setAll all (M.mask all store).replacements

end Masker

def Answers (put : ArtifactPort σ) : σ → List Attempt → σ → Prop
  | t, [], t' => t' = t
  | t, a :: rest, t' => (put t a.message).2 = a.artifact ∧ Answers put (put t a.message).1 rest t'

theorem answers_append {put : ArtifactPort σ} {t t' : σ} {as bs : List Attempt} :
    Answers put t (as ++ bs) t' ↔ ∃ u, Answers put t as u ∧ Answers put u bs t' := by
  induction as generalizing t with
  | nil =>
    apply Iff.intro
    · intro h
      exact ⟨t, rfl, h⟩
    · intro ⟨u, hu, h⟩
      cases hu
      exact h
  | cons a as ih =>
    rw [List.cons_append, Answers, ih]
    apply Iff.intro
    · intro ⟨ha, u, hu, h⟩
      exact ⟨u, ⟨ha, hu⟩, h⟩
    · intro ⟨u, ⟨ha, hu⟩, h⟩
      exact ⟨ha, u, hu, h⟩

namespace Masker
open ContextCompactor

variable {M : Masker σ} {all : List Message} {s : MaskPass σ}

/-- What a part of the loop did, from position `k` on. -/
structure Covers (M : Masker σ) (all : List Message) (messages : List Message) (k : Nat)
    (s s' : MaskPass σ) (tried : List Attempt) : Prop where
  attempts : s'.attempts = s.attempts ++ tried
  answers : Answers M.put s.store tried s'.store
  replacements : s'.replacements =
    s.replacements ++ (tried.filterMap Attempt.edit?).map Edit.replacement
  errors : s'.errors = s.errors + tried.countP fun a => a.artifact.isNone
  remaining : s'.remaining = s.remaining + ((tried.filterMap Attempt.edit?).map fun e =>
    (estimateTokens e.new.content - estimateTokens e.old.content : Int)).sum
  here : ∀ a ∈ tried, k ≤ a.index ∧ messages[a.index - k]? = some a.message ∧
    M.observation a.message = true ∧ M.dispensable all a.message = true
  ordered : (tried.map Attempt.index).Pairwise (· < ·)
  thorough : M.spent s'.remaining = true ∨ ∀ j m, messages[j]? = some m →
    M.observation m = true → M.dispensable all m = true → ∃ a ∈ tried, a.index = k + j

theorem tool_of_observation (h : M.observation m = true) :
    m.type = .tool := by
  rw [observation, Bool.and_eq_true] at h
  exact of_decide_eq_true h.1

theorem covers_spent (h : M.spent s.remaining = true) : M.Covers all messages k s s [] where
  attempts := by simp
  answers := rfl
  replacements := by simp
  errors := rfl
  remaining := by simp
  here a ha := by cases ha
  ordered := .nil
  thorough := .inl h

theorem covers_nil : M.Covers all [] k s s [] where
  attempts := by simp
  answers := rfl
  replacements := by simp
  errors := rfl
  remaining := by simp
  here a ha := by cases ha
  ordered := .nil
  thorough := .inr fun j m hm => by cases hm

theorem visit_skip (h : ¬ (M.observation m = true ∧ M.dispensable all m = true)) (idx : Nat) :
    M.visit all s idx m = s := by
  rw [← Bool.and_eq_true] at h
  exact if_neg h

theorem Covers.skip (h : M.Covers all rest (k + 1) s s' tried)
    (hm : ¬ (M.observation m = true ∧ M.dispensable all m = true)) :
    M.Covers all (m :: rest) k s s' tried where
  attempts := h.attempts
  answers := h.answers
  replacements := h.replacements
  errors := h.errors
  remaining := h.remaining
  here a ha := by
    obtain ⟨hle, hhere, hobs⟩ := h.here a ha
    have hindex : a.index - k = a.index - (k + 1) + 1 := by omega
    rw [hindex, List.getElem?_cons_succ]
    exact ⟨by omega, hhere, hobs⟩
  ordered := h.ordered
  thorough := by
    cases h.thorough with
    | inl hspent => exact .inl hspent
    | inr hall =>
      right
      intro j m' hm' hobs hdisp
      cases j with
      | zero =>
        cases hm'
        exact absurd ⟨hobs, hdisp⟩ hm
      | succ j =>
        obtain ⟨a, ha, hindex⟩ := hall j m' hm' hobs hdisp
        exact ⟨a, ha, by omega⟩

theorem visit_attempt (s : MaskPass σ) (idx : Nat) (hobs : M.observation m = true)
    (hdisp : M.dispensable all m = true) :
    M.Covers all [m] idx s (M.visit all s idx m) [⟨idx, m, (M.put s.store m).2⟩] := by
  have hhere : ∀ a ∈ [(⟨idx, m, (M.put s.store m).2⟩ : Attempt)], idx ≤ a.index ∧
      [m][a.index - idx]? = some a.message ∧
      M.observation a.message = true ∧ M.dispensable all a.message = true := by
    intro a ha
    cases List.mem_singleton.1 ha
    simp [hobs, hdisp]
  have hall : ∀ j m', [m][j]? = some m' → M.observation m' = true → M.dispensable all m' = true →
      ∃ a ∈ [(⟨idx, m, (M.put s.store m).2⟩ : Attempt)], a.index = idx + j := by
    intro j m' hm' _ _
    cases j with
    | zero => exact ⟨_, List.mem_singleton_self _, rfl⟩
    | succ j => cases hm'
  cases hput : M.put s.store m with
  | mk store artifact =>
    cases artifact with
    | none =>
      rw [hput] at hhere hall
      have hvisit : M.visit all s idx m =
          { s with
            store := store
            errors := s.errors + 1
            attempts := s.attempts ++ [⟨idx, m, none⟩] } := by
        simp [visit, hobs, hdisp, hput]
      rw [hvisit]
      apply Covers.mk
      · rfl
      · simp [Answers, hput]
      · simp [Attempt.edit?]
      · simp
      · exact (Int.add_zero s.remaining).symm
      · exact hhere
      · simp
      · exact .inr hall
    | some artifact =>
      rw [hput] at hhere hall
      have hvisit : M.visit all s idx m =
          { s with
            store := store
            remaining := s.remaining + (estimateTokens (stubOf m artifact).content -
              estimateTokens m.content : Int)
            replacements := s.replacements ++ [(idx, stubOf m artifact)]
            attempts := s.attempts ++ [⟨idx, m, some artifact⟩] } := by
        simp [visit, hobs, hdisp, hput]
      rw [hvisit]
      apply Covers.mk
      · rfl
      · simp [Answers, hput]
      · simp [Attempt.edit?, Edit.replacement]
      · simp
      · simp [Attempt.edit?]
      · exact hhere
      · simp
      · exact .inr hall

theorem Covers.append (h : M.Covers all [m] k s s' [a])
    (h' : M.Covers all rest (k + 1) s' s'' tried) (hm : a.index = k) :
    M.Covers all (m :: rest) k s s'' (a :: tried) where
  attempts := by rw [h'.attempts, h.attempts, List.append_assoc]; rfl
  answers := by
    rw [← List.singleton_append, answers_append]
    exact ⟨_, h.answers, h'.answers⟩
  replacements := by
    rw [h'.replacements, h.replacements, List.append_assoc, ← List.map_append,
      ← List.filterMap_append]
    rfl
  errors := by
    rw [h'.errors, h.errors, Nat.add_assoc, ← List.countP_append]
    rfl
  remaining := by
    rw [h'.remaining, h.remaining, Int.add_assoc, ← List.sum_append, ← List.map_append,
      ← List.filterMap_append]
    rfl
  here b hb := by
    cases List.mem_cons.1 hb with
    | inl hb =>
      cases hb
      obtain ⟨hle, hhere, hobs⟩ := h.here a (List.mem_singleton_self a)
      rw [hm, Nat.sub_self] at hhere ⊢
      exact ⟨le_rfl, hhere, hobs⟩
    | inr hb =>
      obtain ⟨hle, hhere, hobs⟩ := h'.here b hb
      have hindex : b.index - k = b.index - (k + 1) + 1 := by omega
      rw [hindex, List.getElem?_cons_succ]
      exact ⟨by omega, hhere, hobs⟩
  ordered := by
    rw [List.map_cons, List.pairwise_cons]
    apply And.intro
    · intro i hi
      obtain ⟨b, hb, rfl⟩ := List.mem_map.1 hi
      have hle := (h'.here b hb).1
      omega
    · exact h'.ordered
  thorough := by
    cases h'.thorough with
    | inl hspent => exact .inl hspent
    | inr hall =>
      right
      intro j m' hm' hobs hdisp
      cases j with
      | zero => exact ⟨a, List.mem_cons_self, hm⟩
      | succ j =>
        obtain ⟨b, hb, hindex⟩ := hall j m' hm' hobs hdisp
        exact ⟨b, List.mem_cons_of_mem a hb, by omega⟩

theorem loop_covers (M : Masker σ) (all messages : List Message) (k : Nat) (s : MaskPass σ) :
    ∃ tried, M.Covers all messages k s (M.loop all (messages.zipIdx k) s) tried := by
  induction messages generalizing k s with
  | nil => exact ⟨[], covers_nil⟩
  | cons m rest ih =>
    rw [List.zipIdx_cons, loop]
    split
    · next hspent => exact ⟨[], covers_spent hspent⟩
    · obtain ⟨tried, hrest⟩ := ih (k + 1) (M.visit all s k m)
      by_cases hm : M.observation m = true ∧ M.dispensable all m = true
      · exact ⟨_, (visit_attempt s k hm.1 hm.2).append hrest rfl⟩
      · rw [visit_skip hm] at hrest ⊢
        exact ⟨tried, hrest.skip hm⟩

theorem mask_covers (M : Masker σ) (all : List Message) (store : σ) :
    M.Covers all (all.take (maskBoundary M.st all)) 0 { store := store, remaining := estimate all }
      (M.mask all store) (M.mask all store).attempts := by
  obtain ⟨tried, h⟩ := M.loop_covers all (all.take (maskBoundary M.st all)) 0
    { store := store, remaining := estimate all }
  have htried : (M.mask all store).attempts = tried := h.attempts
  rw [htried]
  exact h

def edits (M : Masker σ) (all : List Message) (store : σ) : List (Edit Message) :=
  (M.mask all store).attempts.filterMap Attempt.edit?

theorem mem_edits {e : Edit Message} : e ∈ M.edits all store ↔
    ∃ a ∈ (M.mask all store).attempts, ∃ artifact, a.artifact = some artifact ∧
      e = ⟨a.index, a.message, stubOf a.message artifact⟩ := by
  rw [edits, List.mem_filterMap]
  apply Iff.intro
  · intro ⟨a, ha, he⟩
    rw [Attempt.edit?, Option.map_eq_some_iff] at he
    obtain ⟨artifact, hartifact, rfl⟩ := he
    exact ⟨a, ha, artifact, hartifact, rfl⟩
  · intro ⟨a, ha, artifact, hartifact, he⟩
    rw [he]
    exact ⟨a, ha, by simp [Attempt.edit?, hartifact]⟩

theorem masked_eq (M : Masker σ) (all : List Message) (store : σ) :
    M.masked all store = edited all (M.edits all store) := by
  rw [masked, (M.mask_covers all store).replacements, List.nil_append]
  rfl

theorem attempt_here (ha : a ∈ (M.mask all store).attempts) :
    a.index < maskBoundary M.st all ∧ all[a.index]? = some a.message ∧
      M.observation a.message = true ∧ M.dispensable all a.message = true := by
  obtain ⟨_, hhere, hobs⟩ := (M.mask_covers all store).here a ha
  rw [Nat.sub_zero, List.getElem?_take] at hhere
  split at hhere
  · next hlt => exact ⟨hlt, hhere, hobs⟩
  · cases hhere

theorem applicable_edits (M : Masker σ) (all : List Message) (store : σ) :
    Applicable all (M.edits all store) := by
  apply Applicable.mk
  · intro e he
    obtain ⟨a, ha, artifact, _, rfl⟩ := mem_edits.1 he
    exact (attempt_here ha).2.1
  · have hordered := (M.mask_covers all store).ordered
    have hsub : ((M.edits all store).map Edit.index).Sublist
        ((M.mask all store).attempts.map Attempt.index) := by
      rw [edits]
      induction (M.mask all store).attempts with
      | nil => exact .slnil
      | cons a as ih =>
        cases hartifact : a.artifact with
        | none =>
          rw [List.filterMap_cons_none (by rw [Attempt.edit?, hartifact]; rfl)]
          exact ih.cons _
        | some artifact =>
          rw [List.filterMap_cons_some (by rw [Attempt.edit?, hartifact]; rfl)]
          exact ih.cons_cons _
    exact (hordered.imp Nat.ne_of_lt).sublist hsub

theorem masked_cases (M : Masker σ) (all : List Message) (store : σ) (i : Nat) :
    (∃ a ∈ (M.mask all store).attempts, ∃ artifact, a.artifact = some artifact ∧ a.index = i ∧
      (M.masked all store)[i]? = some (stubOf a.message artifact)) ∨
    (M.masked all store)[i]? = all[i]? ∧
      ∀ a ∈ (M.mask all store).attempts, a.index = i → a.artifact = none := by
  rw [masked_eq]
  cases (M.applicable_edits all store).getElem?_edited i with
  | inl h =>
    obtain ⟨e, he, hindex, _, hnew⟩ := h
    obtain ⟨a, ha, artifact, hartifact, rfl⟩ := mem_edits.1 he
    exact .inl ⟨a, ha, artifact, hartifact, hindex, hnew⟩
  | inr h =>
    obtain ⟨hnone, hsame⟩ := h
    refine .inr ⟨hsame, ?_⟩
    intro a ha hindex
    rw [Option.eq_none_iff_forall_ne_some]
    intro artifact hartifact
    exact hnone _ (mem_edits.2 ⟨a, ha, artifact, hartifact, rfl⟩) hindex

theorem estimate_eq (messages : List Message) :
    (estimate messages : Int) = (messages.map fun m => (estimateTokens m.content : Int)).sum := by
  induction messages with
  | nil => rfl
  | cons m messages ih =>
    rw [List.map_cons, List.sum_cons, ← ih, ← Int.natCast_add]
    rfl

theorem estimate_masked (M : Masker σ) (all : List Message) (store : σ) :
    (estimate (M.masked all store) : Int) = (M.mask all store).remaining := by
  rw [masked_eq, estimate_eq, (M.applicable_edits all store).sum_edited, ← estimate_eq,
    (M.mask_covers all store).remaining]
  rfl

end Masker

/-! The turns that are protected. -/

namespace ContextCompactor

def isTurn (m : Message) : Bool := m.type = .human || m.type = .ai

/-- What is protected starts with a turn and has as many turns as are kept, or is everything. -/
structure Protects (turns boundary : Nat) (all : List Message) : Prop where
  none : turns = 0 → boundary = all.length
  few : all.countP isTurn < turns → boundary = 0
  enough : 0 < turns → turns ≤ all.countP isTurn →
    (all.drop boundary).countP isTurn = turns ∧ (all[boundary]?).any isTurn = true

theorem boundaryFrom_few {messages : List Message} (h : seen + messages.countP isTurn < turns) :
    boundaryFrom turns seen messages = 0 := by
  induction messages generalizing seen with
  | nil => rfl
  | cons m earlier ih =>
    rw [List.countP_cons] at h
    rw [boundaryFrom]
    split
    · next hturn =>
      rw [isTurn, if_pos hturn] at h
      rw [if_neg (by omega)]
      exact ih (by omega)
    · exact ih (by omega)

theorem boundaryFrom_enough (messages : List Message) (seen : Nat) (hseen : seen < turns)
    (h : turns ≤ seen + messages.countP isTurn) :
    ∃ later m earlier, messages = later ++ m :: earlier ∧ isTurn m = true ∧
      seen + later.countP isTurn + 1 = turns ∧
      boundaryFrom turns seen messages = earlier.length := by
  induction messages generalizing seen with
  | nil => exact absurd (lt_of_lt_of_le hseen h) (lt_irrefl _)
  | cons m earlier ih =>
    rw [List.countP_cons] at h
    rw [boundaryFrom]
    split
    · next hturn =>
      have hturn' : isTurn m = true := hturn
      split
      · next hlast => exact ⟨[], m, earlier, rfl, hturn, hlast, rfl⟩
      · next hmore =>
        rw [hturn', if_pos rfl] at h
        obtain ⟨later, m', earlier', rfl, hm', hcount, hboundary⟩ :=
          ih (seen + 1) (by omega) (by omega)
        refine ⟨m :: later, m', earlier', rfl, hm', ?_, hboundary⟩
        rw [List.countP_cons_of_pos hturn']
        omega
    · next hturn =>
      have hturn' : ¬ isTurn m = true := hturn
      rw [if_neg hturn'] at h
      obtain ⟨later, m', earlier', rfl, hm', hcount, hboundary⟩ := ih seen hseen (by omega)
      refine ⟨m :: later, m', earlier', rfl, hm', ?_, hboundary⟩
      rw [List.countP_cons_of_neg hturn']
      exact hcount

theorem protects_maskBoundary (st : CompactionSettings) (all : List Message) :
    Protects st.maskKeepTurns (maskBoundary st all) all := by
  apply Protects.mk
  · intro hnone
    exact if_pos hnone
  · intro hfew
    rw [maskBoundary, if_neg (by omega)]
    apply boundaryFrom_few
    rw [List.countP_reverse, Nat.zero_add]
    exact hfew
  · intro hpos henough
    obtain ⟨later, m, earlier, hall, hm, hcount, hboundary⟩ :=
      boundaryFrom_enough all.reverse 0 hpos (by
        rw [List.countP_reverse, Nat.zero_add]
        exact henough)
    have hsplit : all = earlier.reverse ++ m :: later.reverse := by
      rw [← List.reverse_reverse all, hall]
      simp
    have hlength : maskBoundary st all = earlier.reverse.length := by
      rw [maskBoundary, if_neg (by omega), hboundary, List.length_reverse]
    rw [hlength, hsplit]
    apply And.intro
    · rw [List.drop_left, List.countP_cons_of_pos hm, List.countP_reverse]
      omega
    · rw [List.getElem?_append_right le_rfl, Nat.sub_self]
      exact hm

end ContextCompactor

/-! A second pass. -/

namespace Masker
open ContextCompactor

variable {M : Masker σ} {all : List Message}

theorem startsWith_observationStub (tool artifact : String) (tokens : Nat) :
    startsWith (observationStub tool artifact tokens) maskedPrefix = true := by
  have hstart : startsWith "[observation elided: tool=" maskedPrefix = true := by decide
  have htool := startsWith_append_left hstart tool
  have hartifact := startsWith_append_left (startsWith_append_left htool " artifact=") artifact
  have htokens :=
    startsWith_append_left (startsWith_append_left hartifact " tokens≈") (toString tokens)
  exact startsWith_append_left htokens _

theorem observation_stub (m : Message) (artifact : String) :
    M.observation (stubOf m artifact) = false := by
  simp [observation, stubOf, startsWith_observationStub]

theorem masked_same (M : Masker σ) (all : List Message) (store : σ) (i : Nat) :
    (M.masked all store)[i]? = all[i]? ∨ ∃ m artifact, all[i]? = some m ∧
      (M.masked all store)[i]? = some (stubOf m artifact) := by
  cases M.masked_cases all store i with
  | inl h =>
    obtain ⟨a, ha, artifact, _, rfl, hnew⟩ := h
    exact .inr ⟨a.message, artifact, (attempt_here ha).2.1, hnew⟩
  | inr h => exact .inl h.1

theorem types_masked (M : Masker σ) (all : List Message) (store : σ) :
    (M.masked all store).map Message.type = all.map Message.type := by
  apply List.ext_getElem?
  intro i
  rw [List.getElem?_map, List.getElem?_map]
  cases M.masked_same all store i with
  | inl hsame => rw [hsame]
  | inr h =>
    obtain ⟨m, artifact, hm, hnew⟩ := h
    rw [hm, hnew]
    rfl

theorem boundaryFrom_congr (turns seen : Nat)
    (h : messages.map Message.type = messages'.map Message.type) :
    boundaryFrom turns seen messages = boundaryFrom turns seen messages' := by
  induction messages generalizing seen messages' with
  | nil =>
    cases List.map_eq_nil_iff.1 h.symm
    rfl
  | cons m earlier ih =>
    cases messages' with
    | nil => cases h
    | cons m' earlier' =>
      obtain ⟨htype, hearlier⟩ := List.cons.inj h
      have hlength : earlier.length = earlier'.length := by
        rw [← List.length_map Message.type, hearlier, List.length_map]
      rw [boundaryFrom, boundaryFrom, htype, ih (seen + 1) hearlier, ih seen hearlier, hlength]

theorem boundary_masked (M : Masker σ) (all : List Message) (store : σ) :
    maskBoundary M.st (M.masked all store) = maskBoundary M.st all := by
  have htypes := M.types_masked all store
  have hlength : (M.masked all store).length = all.length := by
    rw [← List.length_map Message.type, htypes, List.length_map]
  have hreverse : (M.masked all store).reverse.map Message.type =
      all.reverse.map Message.type := by
    rw [List.map_reverse, List.map_reverse, htypes]
  rw [maskBoundary, maskBoundary, hlength, boundaryFrom_congr _ _ hreverse]

theorem mask_spent (store : σ) (h : M.spent (estimate all) = true) :
    (M.mask all store).attempts = [] := by
  rw [mask]
  cases (all.take (maskBoundary M.st all)).zipIdx with
  | nil => rfl
  | cons p rest =>
    obtain ⟨m, idx⟩ := p
    rw [loop, h]
    rfl

def Refused (M : Masker σ) (all : List Message) (store : σ) (i : Nat) : Prop :=
  ∃ a ∈ (M.mask all store).attempts, a.index = i ∧ a.artifact = none

def Reconsidered (M : Masker σ) (all : List Message) (store : σ) (i : Nat) : Prop :=
  ∃ m, all[i]? = some m ∧ M.dispensable all m = false ∧
    M.dispensable (M.masked all store) m = true

theorem second_pass {store store' : σ} (ha : a ∈ (M.mask (M.masked all store) store').attempts) :
    M.Refused all store a.index ∨ M.Reconsidered all store a.index := by
  obtain ⟨hlt, hhere, hobs, hdisp⟩ := attempt_here ha
  rw [boundary_masked] at hlt
  cases M.masked_cases all store a.index with
  | inl h =>
    obtain ⟨b, _, artifact, _, _, hnew⟩ := h
    rw [hhere] at hnew
    rw [Option.some.inj hnew, observation_stub] at hobs
    cases hobs
  | inr h =>
    obtain ⟨hsame, hrefused⟩ := h
    rw [hsame] at hhere
    cases hfirst : M.dispensable all a.message with
    | false => exact .inr ⟨a.message, hhere, hfirst, hdisp⟩
    | true =>
      left
      cases (M.mask_covers all store).thorough with
      | inl hspent =>
        rw [← estimate_masked] at hspent
        rw [mask_spent store' hspent] at ha
        cases ha
      | inr hall =>
        have htake : (all.take (maskBoundary M.st all))[a.index]? = some a.message := by
          rw [List.getElem?_take_of_lt hlt, hhere]
        obtain ⟨b, hb, hindex⟩ := hall a.index a.message htake hobs hfirst
        rw [Nat.zero_add] at hindex
        exact ⟨b, hb, hindex, hrefused b hb hindex⟩

end Masker

end Prismal.Agents
