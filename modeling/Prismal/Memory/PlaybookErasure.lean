import Prismal.Memory.PlaybookRuns

namespace Prismal.Memory
open Prismal.Lib Prismal.Lib.Run
set_option autoImplicit true

def Uncited (recordIds : List String) (p : Playbook) : Prop :=
  ∀ b ∈ p.bullets, PlaybookStore.cites recordIds b = false

namespace PlaybookCurator

variable {curator : PlaybookCurator} {recordIds : List String}

theorem cites_eq_false {b : PlaybookBullet} :
    PlaybookStore.cites recordIds b = false ↔ ∀ id ∈ b.sourceRecordIds, id ∉ recordIds := by
  rw [PlaybookStore.cites, List.any_eq_false]
  simp

theorem t7Clean_sources (h : curator.t7Clean delta playbook sources = true)
    (hid : rid ∈ delta.sourceRecordIds) : rid ∈ sources := by
  rw [t7Clean, Bool.and_eq_true, List.all_eq_true] at h
  have hc := h.2 rid hid
  rw [citable] at hc
  split at hc
  · cases hc
  next record hget => exact Dict.mem_of_get? hget

def UncitedBy (recordIds : List String) (bullets : Dict String PlaybookBullet) : Prop :=
  ∀ k b, bullets.get? k = some b → PlaybookStore.cites recordIds b = false

theorem UncitedBy.set (h : UncitedBy recordIds bullets)
    (hb : PlaybookStore.cites recordIds b = false) (k : String) :
    UncitedBy recordIds (bullets.set k b) := by
  intro k' b' hget
  rw [Dict.get?_set] at hget
  split at hget
  · cases hget
    exact hb
  · exact h k' b' hget

theorem UncitedBy.apply (h : UncitedBy recordIds bullets)
    (hd : ∀ id ∈ delta.sourceRecordIds, id ∉ recordIds)
    (ha : curator.apply bullets delta = some bullets') : UncitedBy recordIds bullets' := by
  rw [PlaybookCurator.apply] at ha
  dsimp only at ha
  split at ha
  · split at ha
    · cases ha
    · cases ha
      apply h.set
      rw [cites_eq_false]
      exact fun id hid => hd id (List.mem_eraseDups.1 hid)
  · obtain ⟨current, hget, ha⟩ := Option.bind_eq_some_iff.1 ha
    cases ha
    intro k b hb
    exact h k b (Dict.get?_of_get?_erase hb)
  · obtain ⟨current, hget, ha⟩ := Option.bind_eq_some_iff.1 ha
    have hcur := h _ _ hget
    split at ha
    · cases ha
      exact h.set (b := { current with helpful := current.helpful + 1 }) hcur _
    · split at ha
      · cases ha
        exact h.set (b := { current with harmful := current.harmful + 1 }) hcur _
      · cases ha
  · obtain ⟨current, hget, ha⟩ := Option.bind_eq_some_iff.1 ha
    have hcur := cites_eq_false.1 (h _ _ hget)
    split at ha
    · cases ha
    · cases ha
      apply h.set
      rw [cites_eq_false]
      intro id hid
      rcases List.mem_append.1 (List.mem_eraseDups.1 hid) with hid | hid
      · exact hcur id hid
      · exact hd id hid

theorem UncitedBy.merge (h : Uncited recordIds playbook)
    (hs : ∀ id ∈ recordIds, id ∉ sources) (deltas : List PlaybookDelta) :
    UncitedBy recordIds (curator.merge playbook sources deltas).1 := by
  have hstart : UncitedBy recordIds
      (Dict.collect (playbook.bullets.map fun b => (b.bulletId, b))) := by
    intro k b hget
    obtain ⟨b', hb', he⟩ := List.mem_map.1 (Dict.mem_of_get?_collect hget)
    cases he
    exact h _ hb'
  apply List.foldlRecOn (motive := fun acc : Dict String PlaybookBullet × Bool =>
    UncitedBy recordIds acc.1) _ _ hstart
  intro acc hacc delta _
  split
  next ht =>
    split
    · exact hacc
    next bullets ha =>
      apply hacc.apply _ ha
      exact fun rid hid hr => hs rid hr (t7Clean_sources ht hid)
  next => exact hacc

theorem curate_uncited (h : Uncited recordIds playbook) (hs : ∀ id ∈ recordIds, id ∉ sources)
    (hc : curator.curate settings now playbook deltas sources = .ok p) : Uncited recordIds p := by
  rw [curate] at hc
  dsimp only at hc
  split at hc
  · cases hc
  · split at hc
    · cases hc
    · split at hc
      · cases hc
        intro b hb
        obtain ⟨k, hk⟩ := Dict.mem_values.1 hb
        exact UncitedBy.merge h hs deltas k b hk
      · cases hc
        exact h

end PlaybookCurator

namespace PlaybookStore

variable {settings : PlaybookSettings} {st : PlaybookStore} {recordIds : List String}
  {orgId : String}

/-- No version of the tenant that is kept, so that it is current or can be rolled back to, and
none that is pinned, cites one of the records. -/
structure Purged (recordIds : List String) (orgId : String) (st : PlaybookStore) : Prop where
  kept : ∀ agent, ∀ p ∈ st.kept (orgId, agent), Uncited recordIds p
  pinned : ∀ key pinned, st.pins.get? key = some pinned → key.1 = orgId →
    Uncited recordIds pinned.playbook

def BringsNone (recordIds : List String) (orgId : String) (st : PlaybookStore) : Call → Prop
  | .commit p => p.orgId = orgId → (st.current p.orgId p.agent).version < p.version →
      Uncited recordIds p
  | _ => True

def Owned (st : PlaybookStore) : Prop := ∀ key, ∀ p ∈ st.kept key, keyOf p = key

theorem observe_store (w : Watched) (calls : List Call) :
    (final (observe settings) w calls).store = final (call settings) w.store calls := by
  induction calls generalizing w with
  | nil => rfl
  | cons c calls ih => exact ih (observe settings w c)

theorem owned_final (settings : PlaybookSettings) (calls : List Call) :
    Owned (final (call settings) {} calls) := by
  have hordered : Ordered settings (final (observe settings) {} calls) :=
    final_of_invariant ordered_empty (fun _ c h => h.observe c) calls
  rw [← observe_store (w := {})]
  exact hordered.owned

theorem Owned.call (h : Owned st) (c : Call) : Owned (call settings st c) := by
  intro key p hp
  cases hc : committed settings st c with
  | none =>
    obtain ⟨f, hf, hkept⟩ := kept_call hc key
    rw [hkept] at hp
    obtain ⟨q, hq, rfl⟩ := List.mem_map.1 hp
    exact (hf q).2.1.trans (h key q hq)
  | some out =>
    obtain ⟨-, hst⟩ := committed_spec hc
    rw [call_committed hc, hst, kept_set] at hp
    split at hp
    next hk =>
      rcases List.mem_append.1 (List.mem_of_mem_drop hp) with hp | hp
      · exact h key p (hk ▸ hp)
      · rw [List.mem_singleton.1 hp]
        exact hk
    next => exact h key p hp

theorem committed_source (h : committed settings st c = some (p, st')) :
    c = .commit p ∨ ∃ key, ∃ q ∈ st.kept key, p.bullets = q.bullets ∧ keyOf p = keyOf q := by
  cases c with
  | commit q =>
    rw [committed, commit] at h
    dsimp only at h
    split at h
    · cases h
    · cases h
      exact Or.inl rfl
  | rollback orgId agent version now =>
    rw [committed, rollback] at h
    split at h
    · cases h
    next q hq =>
      right
      rw [commit] at h
      dsimp only at h
      split at h
      · cases h
      · cases h
        exact ⟨_, q, List.mem_reverse.1 (List.mem_of_find?_eq_some hq), rfl, rfl⟩
  | pin => cases h
  | release => cases h
  | purgeCiting => cases h

theorem Purged.current (h : Purged recordIds orgId st) (agent : String) :
    Uncited recordIds (st.current orgId agent) := by
  rw [PlaybookStore.current]
  cases hlast : (st.kept (orgId, agent)).getLast? with
  | none =>
    intro b hb
    cases hb
  | some p => exact h.kept agent p (List.mem_of_getLast? hlast)

theorem Purged.kept_committed (h : Purged recordIds orgId st)
    (hc : committed settings st c = some (p, st'))
    (hp : p.orgId = orgId → Uncited recordIds p) (agent : String) :
    ∀ q ∈ (call settings st c).kept (orgId, agent), Uncited recordIds q := by
  obtain ⟨-, hst⟩ := committed_spec hc
  intro q hq
  rw [call_committed hc, hst, kept_set] at hq
  split at hq
  next hk =>
    rcases List.mem_append.1 (List.mem_of_mem_drop hq) with hq | hq
    · exact h.kept agent q (hk ▸ hq)
    · rw [List.mem_singleton.1 hq]
      exact hp (congrArg Prod.fst hk)
  next => exact h.kept agent q hq

theorem Purged.call (h : Purged recordIds orgId st) (ho : Owned st)
    (hb : BringsNone recordIds orgId st c) : Purged recordIds orgId (call settings st c) := by
  constructor
  · intro agent
    cases hc : committed settings st c with
    | none =>
      obtain ⟨f, hf, hkept⟩ := kept_call hc (orgId, agent)
      intro p hp b hbp
      rw [hkept] at hp
      obtain ⟨q, hq, rfl⟩ := List.mem_map.1 hp
      exact h.kept agent q hq b ((hf q).2.2 hbp)
    | some out =>
      obtain ⟨p, st'⟩ := out
      apply h.kept_committed hc
      intro horg
      rcases committed_source hc with rfl | ⟨key, q, hq, hbullets, hkey⟩
      · exact hb horg (committed_spec hc).1
      · rw [Uncited, hbullets]
        have hown : key = (orgId, key.2) := by
          have hfst : key.1 = orgId := by
            rw [← ho key q hq, ← hkey]
            exact horg
          rw [← hfst]
        exact h.kept key.2 q (hown ▸ hq)
  · intro key pinned hget horg
    by_cases hpin : ∀ org agent runId b, c ≠ .pin org agent runId b
    · obtain ⟨-, keep, hpins, -⟩ := pins_call settings st hpin
      rw [hpins, Dict.get?_restrict] at hget
      split at hget
      · exact h.pinned key pinned hget horg
      · cases hget
    · push Not at hpin
      obtain ⟨org, agent, runId, b, rfl⟩ := hpin
      cases hold : st.pins.get? (org, agent, runId) with
      | some old =>
        rw [PlaybookStore.call, pin_held hold, Dict.get?_set] at hget
        split at hget
        next hk =>
          cases hget
          exact h.pinned _ _ hold (hk ▸ horg)
        next hk =>
          rw [Dict.get?_erase, if_neg hk] at hget
          exact h.pinned key pinned hget horg
      | none =>
        rw [PlaybookStore.call, pin, hold] at hget
        have hget := get?_of_evictPins hget
        rw [Dict.get?_set] at hget
        split at hget
        next hk =>
          cases hget
          rw [← hk] at horg
          subst horg
          exact h.current agent
        next hk => exact h.pinned key pinned hget horg

theorem BringsNone.of_purged (h : Purged recordIds orgId (call settings st c)) :
    BringsNone recordIds orgId st c := by
  cases c with
  | commit p =>
    intro horg hlt
    have hc : committed settings st (.commit p) = some (p, { st with
        history := st.history.set (p.orgId, p.agent)
          ((st.kept (p.orgId, p.agent) ++ [p]).rtake settings.keepVersions) }) := by
      rw [committed, commit, if_neg (not_le.2 hlt)]
      rfl
    apply h.kept p.agent
    rw [call_committed hc, kept_set, if_pos (by rw [horg])]
    obtain ⟨n, hn⟩ := Nat.exists_eq_add_of_le' settings.keepVersions_pos
    rw [hn, List.rtake_concat_succ]
    exact List.mem_append_right _ (List.mem_singleton_self p)
  | _ => trivial

theorem purgeCiting_purged (st : PlaybookStore) (recordIds : List String) (orgId : String) :
    Purged recordIds orgId (st.purgeCiting recordIds orgId).2 := by
  by_cases hids : recordIds = []
  · subst hids
    have hnone : ∀ p, Uncited [] p := fun p b _ => by
      rw [PlaybookCurator.cites_eq_false]
      exact fun _ _ => List.not_mem_nil
    exact ⟨fun _ p _ => hnone p, fun _ pinned _ _ => hnone pinned.playbook⟩
  · constructor
    · intro agent p hp b hb
      rw [kept_purge hids, if_pos rfl] at hp
      obtain ⟨q, -, rfl⟩ := List.mem_map.1 hp
      have hkeep := (List.mem_filter.1 hb).2
      rwa [Bool.not_eq_true'] at hkeep
    · intro key pinned hget horg
      rw [purgeCiting, if_neg hids, Dict.get?_restrict, horg] at hget
      simp at hget

/-- After a purge the tenant stays purged exactly as long as no accepted commit brings a bullet
that cites the records; and a curation brings none when neither the playbook it read nor the
sources it was given hold any. -/
theorem purged_stays_out (settings : PlaybookSettings) (before later : List Call)
    (recordIds : List String) (orgId : String) :
    (Along (call settings) (fun st c _ => BringsNone recordIds orgId st c)
        ((final (call settings) {} before).purgeCiting recordIds orgId).2 later ↔
      Along (call settings) (fun st c _ => Purged recordIds orgId (call settings st c))
        ((final (call settings) {} before).purgeCiting recordIds orgId).2 later) ∧
    ∀ curator playbook deltas sources now p, Uncited recordIds playbook →
      (∀ id ∈ recordIds, id ∉ sources) →
        PlaybookCurator.curate curator settings now playbook deltas sources = .ok p →
          Uncited recordIds p := by
  have howned : Owned (call settings (final (call settings) {} before)
      (.purgeCiting recordIds orgId)) := (owned_final settings before).call _
  have hpurged := purgeCiting_purged (final (call settings) {} before) recordIds orgId
  refine ⟨⟨fun h => ?_, fun h => h.mono fun st c _ => BringsNone.of_purged⟩, ?_⟩
  · apply Along.of_invariant (I := fun st _ => Owned st ∧ Purged recordIds orgId st)
      ⟨howned, hpurged⟩ _ h
    intro st c _ hI hb
    have hnext : Purged recordIds orgId (call settings st c) := hI.2.call hI.1 hb
    exact ⟨hnext, hI.1.call c, hnext⟩
  · intro curator playbook deltas sources now p hu hs hc
    exact PlaybookCurator.curate_uncited hu hs hc

def plainCurator : PlaybookCurator where
  nfkc := id
  sha256 := id

/-- A playbook learned from the record `m1`. -/
def learned : Playbook where
  agent := "a"
  orgId := "acme"
  version := 1
  bullets := [{ bulletId := "b-1", section' := "general", text := "tip", sourceRecordIds := ["m1"] }]
  updatedAt := 1

def helpfulVote : PlaybookDelta :=
  { op := .vote, bulletId := some "b-1", section' := "general", text := some "helpful",
    rationale := "" }

instance (recordIds : List String) (p : Playbook) : Decidable (Uncited recordIds p) :=
  inferInstanceAs (Decidable (∀ b ∈ p.bullets, _))

/-- A curation that read the playbook before the purge brings the bullet back after it. -/
theorem curation_undoes_purge : ∃ st p,
    call {} {} (.commit learned) = st ∧
    plainCurator.curate {} 2 (st.current "acme" "a") [helpfulVote] ∅ = .ok p ∧
    ¬Uncited ["m1"]
      ((call {} (st.purgeCiting ["m1"] "acme").2 (.commit p)).current "acme" "a") := by
  let voted : Playbook :=
    { learned with
      version := 2
      bullets := learned.bullets.map fun b => { b with helpful := 1 }
      updatedAt := 2 }
  have hcurate : plainCurator.curate {} 2
      ((call {} {} (.commit learned)).current "acme" "a") [helpfulVote] ∅ = .ok voted := by
    rfl
  refine ⟨_, voted, rfl, hcurate, ?_⟩
  decide

end PlaybookStore
end Prismal.Memory
