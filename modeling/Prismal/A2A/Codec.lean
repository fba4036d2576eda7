import Prismal.A2A.Types
import Prismal.Lib.Codec

namespace Prismal.A2A
open Prismal.Lib
set_option autoImplicit true

/-! The conversions to v1 lose information, but only the first time. -/

def PartV1.Written (part : PartV1) : Prop :=
  match part.content with
  | .text _ => part.mediaType = none ∧ part.filename = none
  | .data v _ => v.asObject.isSome ∧ part.mediaType = none ∧ part.filename = none
  | .raw _ => True
  | .url _ => True

theorem filePart_ok (h : filePart content v file = .ok part) : ∃ s, part.content = content s := by
  rw [filePart] at h
  obtain ⟨s, -, h⟩ := except_bind_ok h
  obtain ⟨mediaType, -, h⟩ := except_bind_ok h
  obtain ⟨filename, -, h⟩ := except_bind_ok h
  rw [except_pure_ok h]
  exact ⟨s.getD "", rfl⟩

theorem written_file {part : PartV1} (h : part.content = .raw s ∨ part.content = .url s) :
    part.Written := by
  rw [PartV1.Written]
  cases h with
  | inl hraw =>
    rw [hraw]
    exact trivial
  | inr hurl =>
    rw [hurl]
    exact trivial

theorem partFromInternal_written (a : A2APart) (part : PartV1)
    (h : partFromInternal a = .ok part) : part.Written := by
  rw [partFromInternal] at h
  cases hkind : a.kind with
  | text =>
    rw [hkind] at h
    cases h
    exact ⟨rfl, rfl⟩
  | data =>
    rw [hkind] at h
    cases h
    exact ⟨rfl, rfl, rfl⟩
  | file =>
    rw [hkind] at h
    dsimp only at h
    cases hbytes : present (a.file.getD []) "bytes" with
    | some v =>
      rw [hbytes] at h
      obtain ⟨s, hs⟩ := filePart_ok h
      exact written_file (.inl hs)
    | none =>
      rw [hbytes] at h
      dsimp only at h
      cases huri : present (a.file.getD []) "uri" with
      | some v =>
        rw [huri] at h
        obtain ⟨s, hs⟩ := filePart_ok h
        exact written_file (.inr hs)
      | none =>
        rw [huri] at h
        cases h
        exact ⟨rfl, rfl⟩

theorem partFromInternal_partToInternal (part : PartV1) (h : part.Written) :
    partFromInternal (partToInternal part) = .ok part := by
  obtain ⟨content, mediaType, filename⟩ := part
  cases content with
  | text s =>
    obtain ⟨rfl, rfl⟩ := h
    rfl
  | data v hv =>
    obtain ⟨hobject, rfl, rfl⟩ := h
    cases v with
    | object fields => rfl
    | null => cases hobject
    | bool => cases hobject
    | number => cases hobject
    | str => cases hobject
    | list => cases hobject
  | raw s => cases mediaType <;> cases filename <;> rfl
  | url u => cases mediaType <;> cases filename <;> rfl

theorem part_stable : Stable partFromInternal partToInternal :=
  .of_image partFromInternal_written partFromInternal_partToInternal

theorem LegacyRole.toInternal_toV1 (role : LegacyRole) : role.toV1.toInternal = role := by
  cases role <;> rfl

theorem message_stable (contextId taskId : Option String) :
    Stable (messageFromInternal · contextId taskId) messageToInternal := by
  intro m message h
  change messageFromInternal m contextId taskId = .ok message at h
  rw [messageFromInternal] at h
  obtain ⟨parts, hparts, h⟩ := except_bind_ok h
  rw [except_pure_ok h]
  change (List.mapM partFromInternal (parts.map partToInternal) >>= _) = _
  rw [part_stable.mapM _ _ hparts]
  change Except.ok (MessageV1.mk _ m.role.toV1.toInternal.toV1 _ _ _) = _
  rw [LegacyRole.toInternal_toV1]
  rfl

theorem artifact_stable : Stable artifactFromInternal artifactToInternal := by
  intro a artifact h
  rw [artifactFromInternal] at h
  obtain ⟨parts, hparts, h⟩ := except_bind_ok h
  rw [except_pure_ok h]
  change (List.mapM partFromInternal (parts.map partToInternal) >>= _) = _
  rw [part_stable.mapM _ _ hparts]
  rfl

theorem recentHistory_of_length (history : List α) (recent : List β)
    (h : recent.length = (recentHistory history historyLength).length) :
    recentHistory recent historyLength = recent := by
  cases historyLength with
  | none => rfl
  | some n =>
    rw [recentHistory] at h ⊢
    by_cases hn : 0 < n
    · rw [if_pos hn, List.length_drop] at h
      rw [if_pos hn]
      have hzero : recent.length - n.toNat = 0 := by omega
      rw [hzero, List.drop_zero]
    · rw [if_neg hn] at h
      rw [if_neg hn, List.length_eq_zero_iff.1 h]

theorem getD_of_isEmpty (l : List α) : (if l.isEmpty then none else some l).getD [] = l := by
  cases l <;> rfl

theorem artifacts_stable (includeArtifacts : Bool) (task : A2ATask)
    (h : artifactsFromInternal task includeArtifacts = .ok artifacts)
    (hdecoded : decoded.artifacts = (artifacts.getD []).map artifactToInternal) :
    artifactsFromInternal decoded includeArtifacts = .ok artifacts := by
  cases includeArtifacts with
  | false => exact h
  | true =>
    obtain ⟨written, hwritten, h⟩ := except_bind_ok h
    rw [except_pure_ok h] at hdecoded ⊢
    change (some <$> decoded.artifacts.mapM artifactFromInternal) = _
    rw [hdecoded]
    change (some <$> (written.map artifactToInternal).mapM artifactFromInternal) = _
    rw [artifact_stable.mapM _ _ hwritten]
    rfl

theorem task_stable (contextId : String) (timestamp : Option Instant) (includeArtifacts : Bool)
    (historyLength : Option Int) :
    Stable (taskFromInternal · contextId timestamp includeArtifacts historyLength)
      taskToInternal := by
  intro task v h
  change taskFromInternal task contextId timestamp includeArtifacts historyLength = .ok v at h
  rw [taskFromInternal] at h
  obtain ⟨artifacts, hartifacts, h⟩ := except_bind_ok h
  obtain ⟨history, hhistory, h⟩ := except_bind_ok h
  rw [except_pure_ok h]
  beta_reduce
  rw [taskFromInternal]
  have hagain : (taskToInternal
      ⟨task.id, contextId, stateToV1 task.status, timestamp, artifacts,
        if history.isEmpty then none else some history⟩).history =
      history.map messageToInternal := congrArg (List.map messageToInternal) (getD_of_isEmpty _)
  have hrecent := recentHistory_of_length task.history (history.map messageToInternal)
    (by rw [List.length_map, length_of_mapM hhistory])
  rw [artifacts_stable includeArtifacts task hartifacts rfl, hagain, hrecent]
  have hmessages := (message_stable (some contextId) (some task.id)).mapM _ _ hhistory
  change (List.mapM (messageFromInternal · (some contextId) (some task.id))
    (history.map messageToInternal) >>= _) = _
  rw [hmessages]
  change Except.ok (TaskV1.mk _ _ (stateToV1 (stateToInternal (stateToV1 _))) _ _ _) = _
  rw [stateToInternal_stateToV1]
  rfl

/-- Converting to v1, back and to v1 again gives what the first conversion gave. -/
theorem taskFromInternal_round_trip (task : A2ATask) (contextId : String)
    (timestamp : Option Instant) (includeArtifacts : Bool) (historyLength : Option Int) :
    (do
      let v ← taskFromInternal task contextId timestamp includeArtifacts historyLength
      taskFromInternal (taskToInternal v) contextId timestamp includeArtifacts historyLength) =
    taskFromInternal task contextId timestamp includeArtifacts historyLength :=
  (task_stable contextId timestamp includeArtifacts historyLength).bind_eq task

end Prismal.A2A
