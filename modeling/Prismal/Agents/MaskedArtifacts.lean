import Prismal.Agents.ArtifactTenants
import Prismal.Agents.CompactedHistory

namespace Prismal.Agents
open Prismal.Budget Prismal.Lib Prismal.Providers Prismal.Utils
set_option autoImplicit true

/-! What masking keeps, and that it keeps it where it can be read. -/

/-- The run and the tenant that observations are stored for. -/
structure RunScope where
  runId : String
  tenant : String

/-- The call of `put` for an output, with the id that is drawn and the time. -/
def observationPut (scope : RunScope) (m : Message) (draw : String × Rat) : ArtifactPut where
  content := m.content
  runId := scope.runId
  tenant := scope.tenant
  kind := "tool_output"
  tool := some ((m.name.filter fun n => n ≠ "").getD "unknown")
  id := draw.1
  now := draw.2

def storePort (A : ArtifactAdapter τ) (scope : RunScope) (draw : Nat → String × Rat) :
    ArtifactPort (ArtifactStore τ × Nat) := fun s m =>
  match s.1.put A (observationPut scope m (draw s.2)) with
  | (store, .ok ref) => ((store, s.2 + 1), some ref.id)
  | (store, .error _) => ((store, s.2 + 1), none)

/-- The puts of some attempts, from the `n`-th draw on. -/
def putsOf (scope : RunScope) (draw : Nat → String × Rat) : Nat → List Attempt → List ArtifactOp
  | _, [] => []
  | n, a :: rest => .put (observationPut scope a.message (draw n)) :: putsOf scope draw (n + 1) rest

variable {A : ArtifactAdapter τ} {Good : τ → Prop} {scope : RunScope}
  {draw : Nat → String × Rat}

theorem storePort_state (s : ArtifactStore τ) (n : Nat) (m : Message) :
    (storePort A scope draw (s, n) m).1 =
      ((s.put A (observationPut scope m (draw n))).1, n + 1) := by
  rw [storePort]
  split <;> simp_all

theorem storePort_answer {s : ArtifactStore τ}
    (h : (storePort A scope draw (s, n) m).2 = some artifact) :
    0 ≤ s.artifactTtlS ∧ artifact = (draw n).1 := by
  rw [storePort] at h
  dsimp only at h
  split at h
  · next store ref hput =>
    rw [ArtifactStore.put] at hput
    dsimp only at hput
    split at hput
    · cases hput
    · next hpos =>
      split at hput
      · cases hput
      · cases hput
        exact ⟨not_lt.1 hpos, (Option.some.inj h).symm⟩
  · cases h

theorem answers_storePort {s s' : ArtifactStore τ}
    (h : Answers (storePort A scope draw) (s, n) tried (s', n')) :
    s' = s.run A (putsOf scope draw n tried) ∧ ∀ a ∈ tried, ∀ artifact,
      a.artifact = some artifact → 0 ≤ s.artifactTtlS ∧ ∃ k,
        .put (observationPut scope a.message (draw k)) ∈ putsOf scope draw n tried ∧
        artifact = (draw k).1 := by
  induction tried generalizing s n with
  | nil =>
    cases h
    exact ⟨rfl, fun a ha => by cases ha⟩
  | cons b rest ih =>
    obtain ⟨hanswer, hrest⟩ := h
    rw [storePort_state] at hrest
    obtain ⟨hrun, hput⟩ := ih hrest
    have httl : (s.put A (observationPut scope b.message (draw n))).1.artifactTtlS =
        s.artifactTtlS := ArtifactStore.artifactTtlS_run A s [.put _]
    apply And.intro
    · exact hrun
    · intro a ha artifact hartifact
      cases List.mem_cons.1 ha with
      | inl ha =>
        rw [ha] at hartifact ⊢
        rw [hartifact] at hanswer
        obtain ⟨hpos, hid⟩ := storePort_answer hanswer
        exact ⟨hpos, n, List.mem_cons_self, hid⟩
      | inr ha =>
        obtain ⟨hpos, k, hk, hid⟩ := hput a ha artifact hartifact
        rw [httl] at hpos
        exact ⟨hpos, k, List.mem_cons_of_mem _ hk, hid⟩

theorem ArtifactRecord.slice_whole (r : ArtifactRecord) : (r.slice 0 none).content = r.content := by
  simp [ArtifactRecord.slice]

namespace Masker
open ContextCompactor

/-- What masking leaves as it was, and when it replaces an output. -/
structure Framed (M : Masker σ) (all : List Message) (store : σ) : Prop where
  boundary : Protects M.st.maskKeepTurns (maskBoundary M.st all) all
  length : (M.masked all store).length = all.length
  same : ∀ (i : Nat) (m : Message), all[i]? = some m →
    ∃ content, (M.masked all store)[i]? = some { m with content := content }
  others : ∀ (i : Nat) (m : Message), all[i]? = some m → m.type ≠ .tool →
    (M.masked all store)[i]? = some m
  recent : ∀ i : Nat, maskBoundary M.st all ≤ i → (M.masked all store)[i]? = all[i]?
  answers : Answers M.put store (M.mask all store).attempts (M.mask all store).store
  stored : ∀ i : Nat, (M.masked all store)[i]? ≠ all[i]? →
    ∃ a ∈ (M.mask all store).attempts, ∃ artifact, a.artifact = some artifact ∧ a.index = i ∧
      all[i]? = some a.message ∧ (M.masked all store)[i]? = some (stubOf a.message artifact)

/-- What masking the result once more can change, in whatever state the store is then. -/
structure Settled (M : Masker σ) (all : List Message) (store : σ) : Prop where
  again : ∀ store' (i : Nat),
    (M.masked (M.masked all store) store')[i]? ≠ (M.masked all store)[i]? →
    M.Refused all store i ∨ M.Reconsidered all store i
  idempotent : (∀ i, ¬ M.Refused all store i ∧ ¬ M.Reconsidered all store i) →
    ∀ store', M.masked (M.masked all store) store' = M.masked all store ∧
      (M.mask (M.masked all store) store').store = store'

theorem framed (M : Masker σ) (all : List Message) (store : σ) : M.Framed all store where
  boundary := protects_maskBoundary M.st all
  length := by rw [masked_eq, length_edited]
  same i m hm := by
    cases M.masked_same all store i with
    | inl hsame =>
      exact ⟨m.content, hsame.trans hm⟩
    | inr h =>
      obtain ⟨m', artifact, hm', hnew⟩ := h
      cases hm.symm.trans hm'
      exact ⟨_, hnew⟩
  others i m hm htype := by
    cases M.masked_cases all store i with
    | inl h =>
      obtain ⟨a, ha, _, _, rfl, _⟩ := h
      obtain ⟨_, hhere, hobs, _⟩ := attempt_here ha
      cases hm.symm.trans hhere
      exact absurd (tool_of_observation hobs) htype
    | inr h => exact h.1.trans hm
  recent i hi := by
    cases M.masked_cases all store i with
    | inl h =>
      obtain ⟨a, ha, _, _, rfl, _⟩ := h
      exact absurd (attempt_here ha).1 (not_lt.2 hi)
    | inr h => exact h.1
  answers := (M.mask_covers all store).answers
  stored i hi := by
    cases M.masked_cases all store i with
    | inl h =>
      obtain ⟨a, ha, artifact, hartifact, rfl, hnew⟩ := h
      exact ⟨a, ha, artifact, hartifact, rfl, (attempt_here ha).2.1, hnew⟩
    | inr h => exact absurd h.1 hi

theorem settled (M : Masker σ) (all : List Message) (store : σ) : M.Settled all store where
  again store' i hi := by
    cases M.masked_cases (M.masked all store) store' i with
    | inl h =>
      obtain ⟨a, ha, _, _, rfl, _⟩ := h
      exact second_pass ha
    | inr h => exact absurd h.1 hi
  idempotent hnone store' := by
    have hattempts : (M.mask (M.masked all store) store').attempts = [] := by
      rw [List.eq_nil_iff_forall_not_mem]
      intro a ha
      exact (second_pass ha).elim (hnone a.index).1 (hnone a.index).2
    have hcovers := M.mask_covers (M.masked all store) store'
    apply And.intro
    · rw [masked_eq, edits, hattempts]
      rfl
    · have hanswers := hcovers.answers
      rw [hattempts] at hanswers
      exact hanswers

end Masker

/-- The payload of a message is stored under the name that its stub gives, and is read back whole
for as long as the artifact stands. -/
def Recoverable (A : ArtifactAdapter τ) (scope : RunScope) (s : ArtifactStore τ)
    (ops : List ArtifactOp) (m m' : Message) : Prop :=
  ∃ r, m' = ContextCompactor.stubOf m r.ref.id ∧ r.content = m.content ∧ .stored r ∈ s.trace ∧
    ∀ later now, (drawnIds (ops ++ later)).Nodup → Standing (s.run A later).trace r →
      r.expired now = false → ∃ slice, slice.content = m.content ∧ (s.run A later).get A
        { id := r.ref.id, runId := scope.runId, tenant := scope.tenant, now := now } = .ok slice

theorem recoverable {M : Masker (ArtifactStore τ × Nat)} {s : ArtifactStore τ}
    {before : List ArtifactOp} {all : List Message} (hA : A.Lawful Good)
    (h : ArtifactStore.Faithful A Good [] s)
    (hM : M.put = storePort A scope draw) :
    let pass := M.mask all (s.run A before, n)
    let puts := before ++ putsOf scope draw n pass.attempts
    (drawnIds puts).Nodup →
      ∀ i : Nat, (M.masked all (s.run A before, n))[i]? ≠ all[i]? → ∃ m m', all[i]? = some m ∧
        (M.masked all (s.run A before, n))[i]? = some m' ∧
        Recoverable A scope pass.store.1 puts m m' := by
  intro pass puts hfresh i hi
  have hframed := M.framed all (s.run A before, n)
  obtain ⟨a, ha, artifact, hartifact, rfl, hold, hnew⟩ := hframed.stored i hi
  have hanswers : Answers M.put (s.run A before, n) pass.attempts (pass.store.1, pass.store.2) :=
    hframed.answers
  rw [hM] at hanswers
  obtain ⟨hrun, hput⟩ := answers_storePort hanswers
  obtain ⟨hpos, k, hk, hid⟩ := hput a ha artifact hartifact
  have hstate : pass.store.1 = s.run A puts := hrun.trans List.foldl_append.symm
  rw [ArtifactStore.artifactTtlS_run] at hpos
  have hfaithful : ArtifactStore.Faithful A Good puts pass.store.1 := by
    rw [hstate]
    exact h.run hA hfresh
  have httl : pass.store.1.artifactTtlS = s.artifactTtlS := by
    rw [hstate, ArtifactStore.artifactTtlS_run]
  refine ⟨a.message, _, hold, hnew,
    (observationPut scope a.message (draw k)).record s.artifactTtlS, by rw [hid]; rfl, rfl, ?_, ?_⟩
  · rw [hfaithful.stored, httl]
    exact ⟨_, List.mem_append_right _ hk, hpos, rfl⟩
  · intro later now hlater hstanding hfresh'
    have hexact : ArtifactStore.Exact A (pass.store.1.run A later) := by
      have hall : pass.store.1.run A later = s.run A (puts ++ later) := by
        rw [hstate]
        exact List.foldl_append.symm
      rw [hall]
      exact (h.run hA hlater).exact
    refine ⟨_, ?_, hexact.found _ _ ⟨hstanding, rfl, rfl, rfl, hfresh'⟩⟩
    exact ArtifactRecord.slice_whole _

/-- Masking keeps the history but for payloads before the protected turns, each of which is stored
first and can be recovered; masked once more, only what the store refused or the hook reconsiders
can change. A state gets the masked history by the ids, a list of messages by position. -/
theorem mask_observations_frame :
    (∀ {σ : Type} (M : Masker σ) (all : List Message) (store : σ),
      M.Framed all store ∧ M.Settled all store) ∧
    (∀ {τ : Type} (A : ArtifactAdapter τ) (Good : τ → Prop) (scope : RunScope)
      (draw : Nat → String × Rat) (M : Masker (ArtifactStore τ × Nat)) (s : ArtifactStore τ)
      (before : List ArtifactOp) (n : Nat) (all : List Message), A.Lawful Good →
      ArtifactStore.Faithful A Good [] s → M.put = storePort A scope draw →
      let pass := M.mask all (s.run A before, n)
      let puts := before ++ putsOf scope draw n pass.attempts
      (drawnIds puts).Nodup →
        ∀ i : Nat, (M.masked all (s.run A before, n))[i]? ≠ all[i]? → ∃ m m', all[i]? = some m ∧
          (M.masked all (s.run A before, n))[i]? = some m' ∧
          Recoverable A scope pass.store.1 puts m m') ∧
    (∀ add, Reduces add → ∀ st host ms, Addressed ms → ∃ out,
      plainOf out = (ContextCompactor.hostMasker st host true).masked (plainOf ms) 0 ∧
      Filled out (add ms (ContextCompactor.toStateUpdate
        (ContextCompactor.maskObservations st host (plainOf ms))))) ∧
    ∀ st host used ms, ContextCompactor.shouldCompact st used (plainOf ms) = true →
      ContextCompactor.effectiveStrategy st = .maskObservations →
      plainOf (ContextCompactor.compactList st host used ms).messages =
        (ContextCompactor.hostMasker st host false).masked (plainOf ms) 0 := by
  refine ⟨?_, ?_, ?_, ?_⟩
  · intro σ M all store
    exact ⟨M.framed all store, M.settled all store⟩
  · intro τ A Good scope draw M s before n all hA h hM
    exact recoverable hA h hM
  · intro add hadd st host ms h
    have hhistory := ContextCompactor.history_masked st host hadd h
    exact ⟨_, ContextCompactor.substituted_masked h, hhistory.1⟩
  · intro st host used ms hdue hst
    exact ContextCompactor.compactList_masked hdue hst

/-- A store that refuses at first: the second pass masks what the first one kept. -/
theorem masked_later :
    let M : Masker Bool :=
      { st := { maskKeepTurns := 1 }
        put := fun up _ => (true, if up then some "a" else none)
        requireId := true }
    let all : List Message :=
      [{ id := some "t", type := .tool, content := "result", name := some "search" },
        { id := some "h", type := .human, content := "thanks" }]
    let first := M.masked all false
    first = all ∧ M.masked first (M.mask all false).store ≠ first := by
  decide

end Prismal.Agents
