import Prismal.Lib.Run
import Prismal.Memory.Playbooks

namespace Prismal.Memory.PlaybookStore
open Prismal.Lib Prismal.Lib.Run
set_option autoImplicit true

def keyOf (p : Playbook) : PlaybookKey := (p.orgId, p.agent)

/-- A store under observation: the playbooks it accepted, in order, and the version that each pin
call answered. -/
structure Watched where
  store : PlaybookStore := {}
  accepted : List Playbook := []
  pinnings : List (PinKey × Int) := []

def pinning (settings : PlaybookSettings) (st : PlaybookStore) : Call → List (PinKey × Int)
  | .pin orgId agent runId budgetTokens =>
    [((orgId, agent, runId), (pin settings st orgId agent runId budgetTokens).1.version)]
  | _ => []

def observe (settings : PlaybookSettings) (w : Watched) (c : Call) : Watched where
  store := call settings w.store c
  accepted := w.accepted ++ ((committed settings w.store c).map Prod.fst).toList
  pinnings := w.pinnings ++ pinning settings w.store c

def Watched.acceptedVersions (w : Watched) (key : PlaybookKey) : List Int :=
  (w.accepted.filter fun p => decide (keyOf p = key)).map Playbook.version

def Watched.pinners (w : Watched) (key : PlaybookKey) (version : Int) : Finset String :=
  ((w.pinnings.filter fun e => decide ((e.1.1, e.1.2.1) = key ∧ e.2 = version)).map
    fun e => e.1.2.2).toFinset

/-- The call takes the pin away: the run ends, its tenant is purged, or it is the least recently
used one of a full table. -/
def Drops (st : PlaybookStore) (c : Call) (key : PinKey) : Prop :=
  match c with
  | .release runId => runId = key.2.2
  | .purgeCiting recordIds orgId => recordIds ≠ [] ∧ orgId = key.1
  | .pin orgId agent runId _ => (orgId, agent, runId) ∉ st.pins ∧
      st.pins.keys.length = maxPinnedRuns ∧ st.pins.keys.head? = some key
  | _ => False

section History

variable {settings : PlaybookSettings} {st : PlaybookStore}

theorem kept_set (d : Dict PlaybookKey (List Playbook)) (key key' : PlaybookKey)
    (versions : List Playbook) :
    kept { st with history := d.set key versions } key' =
      if key = key' then versions else (d.get? key').getD [] := by
  rw [kept, Dict.get?_set]
  split <;> rfl

theorem kept_purge (h : recordIds ≠ []) (key : PlaybookKey) :
    (st.purgeCiting recordIds orgId).2.kept key =
      if key.1 = orgId then (st.kept key).map (withoutCiting recordIds) else st.kept key := by
  rw [purgeCiting, if_neg h, kept, Dict.get?_mapEntries, kept]
  cases st.history.get? key with
  | none => split <;> rfl
  | some versions => rfl

theorem kept_call (h : committed settings st c = none) (key : PlaybookKey) :
    ∃ f : Playbook → Playbook,
      (∀ p, (f p).version = p.version ∧ keyOf (f p) = keyOf p ∧ (f p).bullets ⊆ p.bullets) ∧
      (call settings st c).kept key = (st.kept key).map f := by
  have hsame : ∃ f : Playbook → Playbook,
      (∀ p, (f p).version = p.version ∧ keyOf (f p) = keyOf p ∧ (f p).bullets ⊆ p.bullets) ∧
        st.kept key = (st.kept key).map f :=
    ⟨id, fun p => ⟨rfl, rfl, List.Subset.refl _⟩, (List.map_id _).symm⟩
  cases c with
  | commit p =>
    rw [call, h]
    exact hsame
  | rollback orgId agent version now =>
    rw [call, h]
    exact hsame
  | pin orgId agent runId budgetTokens =>
    rw [call, pin]
    split <;> exact hsame
  | release runId => exact hsame
  | purgeCiting recordIds orgId =>
    by_cases hids : recordIds = []
    · rw [call, purgeCiting, if_pos hids]
      exact hsame
    · by_cases horg : key.1 = orgId
      · refine ⟨withoutCiting recordIds, fun p => ⟨rfl, rfl, List.filter_subset_self _⟩, ?_⟩
        rw [call, kept_purge hids, if_pos horg]
      · rw [call, kept_purge hids, if_neg horg]
        exact hsame

theorem call_committed (h : committed settings st c = some (p, st')) :
    call settings st c = st' := by
  cases c with
  | commit q => rw [call, h]; rfl
  | rollback orgId agent version now => rw [call, h]; rfl
  | pin => cases h
  | release => cases h
  | purgeCiting => cases h

theorem map_rtake (f : α → β) (l : List α) (n : Nat) :
    (l.rtake n).map f = (l.map f).rtake n := by
  rw [List.rtake, List.map_drop, List.rtake, List.length_map]

theorem versions_committed (h : committed settings st c = some (p, st')) (key : PlaybookKey) :
    (call settings st c).versions key =
      if keyOf p = key then (st.versions key ++ [p.version]).rtake settings.keepVersions
      else st.versions key := by
  obtain ⟨-, hst⟩ := committed_spec h
  rw [call_committed h, hst, versions, kept_set]
  by_cases hk : keyOf p = key
  · subst hk
    rw [if_pos (show (p.orgId, p.agent) = keyOf p from rfl), if_pos rfl, map_rtake,
      List.map_append]
    rfl
  · rw [if_neg hk, if_neg (show ¬(p.orgId, p.agent) = key from hk)]
    rfl

theorem rtake_rtake_append (l : List α) (x : α) (h : 0 < n) :
    (l.rtake n ++ [x]).rtake n = (l ++ [x]).rtake n := by
  obtain ⟨n, rfl⟩ := Nat.exists_eq_add_of_le' h
  rw [List.rtake_concat_succ, List.rtake_concat_succ]
  simp only [List.rtake, List.drop_drop, List.length_drop]
  congr 2
  omega

theorem getLast?_rtake (l : List α) (h : 0 < n) : (l.rtake n).getLast? = l.getLast? := by
  cases l using List.reverseRecOn with
  | nil => rw [List.rtake_nil]
  | append_singleton l x =>
    obtain ⟨n, rfl⟩ := Nat.exists_eq_add_of_le' h
    rw [List.rtake_concat_succ, List.getLast?_concat, List.getLast?_concat]

/-- What the history of an observed store looks like. -/
structure Ordered (settings : PlaybookSettings) (w : Watched) : Prop where
  owned : ∀ key, ∀ p ∈ w.store.kept key, keyOf p = key
  increasing : ∀ key, (w.acceptedVersions key).Pairwise (· < ·)
  newest : ∀ key, w.store.versions key = (w.acceptedVersions key).rtake settings.keepVersions

theorem ordered_empty : Ordered settings {} := by
  constructor
  · intro key p hp
    cases hp
  · exact fun _ => List.Pairwise.nil
  · exact fun _ => (List.rtake_nil _).symm

theorem current_version (st : PlaybookStore) (orgId agent : String) :
    (st.current orgId agent).version = (st.versions (orgId, agent)).getLast?.getD 0 := by
  rw [current, versions, List.getLast?_map]
  cases (st.kept (orgId, agent)).getLast? <;> rfl

theorem Ordered.current_version (h : Ordered settings w) (orgId agent : String) :
    (w.store.current orgId agent).version =
      (w.acceptedVersions (orgId, agent)).getLast?.getD 0 := by
  rw [PlaybookStore.current_version, h.newest, getLast?_rtake _ settings.keepVersions_pos]

theorem le_getLast? {l : List Int} (h : l.Pairwise (· < ·)) (hl : l.getLast? = some b)
    (ha : a ∈ l) : a ≤ b := by
  obtain ⟨front, rfl⟩ := List.getLast?_eq_some_iff.1 hl
  rw [List.pairwise_append] at h
  rcases List.mem_append.1 ha with ha | ha
  · exact le_of_lt (h.2.2 a ha b (List.mem_singleton_self b))
  · rw [List.mem_singleton.1 ha]

theorem acceptedVersions_observe (w : Watched) (c : Call) (key : PlaybookKey) :
    (observe settings w c).acceptedVersions key = w.acceptedVersions key ++
      (((committed settings w.store c).map Prod.fst).toList.filter
        fun p => decide (keyOf p = key)).map Playbook.version := by
  rw [Watched.acceptedVersions, observe, List.filter_append, List.map_append]
  rfl

theorem Ordered.observe (h : Ordered settings w) (c : Call) :
    Ordered settings (observe settings w c) := by
  cases hc : committed settings w.store c with
  | none =>
    have hacc : ∀ key, (PlaybookStore.observe settings w c).acceptedVersions key =
        w.acceptedVersions key := by
      intro key
      rw [acceptedVersions_observe, hc]
      exact List.append_nil _
    constructor
    · intro key p hp
      obtain ⟨f, hf, hkept⟩ := kept_call hc key
      change p ∈ (call settings w.store c).kept key at hp
      rw [hkept] at hp
      obtain ⟨q, hq, rfl⟩ := List.mem_map.1 hp
      exact (hf q).2.1.trans (h.owned key q hq)
    · intro key
      rw [hacc]
      exact h.increasing key
    · intro key
      obtain ⟨f, hf, hkept⟩ := kept_call hc key
      rw [hacc, ← h.newest]
      change ((call settings w.store c).kept key).map _ = _
      rw [hkept, List.map_map]
      exact List.map_congr_left fun q _ => (hf q).1
  | some out =>
    obtain ⟨p, st'⟩ := out
    obtain ⟨hlt, hst⟩ := committed_spec hc
    have hacc : ∀ key, (PlaybookStore.observe settings w c).acceptedVersions key =
        w.acceptedVersions key ++ (if keyOf p = key then [p.version] else []) := by
      intro key
      rw [acceptedVersions_observe, hc]
      by_cases hk : keyOf p = key <;> simp [hk]
    constructor
    · intro key q hq
      change q ∈ (call settings w.store c).kept key at hq
      rw [call_committed hc, hst, kept_set] at hq
      split at hq
      next hk =>
        rcases List.mem_append.1 (List.mem_of_mem_drop hq) with hq | hq
        · exact h.owned key q (hk ▸ hq)
        · rw [List.mem_singleton.1 hq]
          exact hk
      next => exact h.owned key q hq
    · intro key
      rw [hacc]
      split
      next hk =>
        apply List.pairwise_append.2
        refine ⟨h.increasing key, List.pairwise_singleton _ _, ?_⟩
        intro v hv v' hv'
        rw [List.mem_singleton.1 hv']
        rw [h.current_version, show (p.orgId, p.agent) = key from hk] at hlt
        obtain ⟨last, hlast⟩ :=
          Option.isSome_iff_exists.1 (List.getLast?_isSome.2 (List.ne_nil_of_mem hv))
        rw [hlast] at hlt
        exact lt_of_le_of_lt (le_getLast? (h.increasing key) hlast hv) hlt
      next =>
        rw [List.append_nil]
        exact h.increasing key
    · intro key
      change (call settings w.store c).versions key = _
      rw [versions_committed hc, hacc]
      split
      next => rw [h.newest, rtake_rtake_append _ _ settings.keepVersions_pos]
      next => rw [List.append_nil, h.newest]

end History

section Pins

variable {settings : PlaybookSettings} {st : PlaybookStore} {pinned : PinnedPlaybook}

theorem pins_call (settings : PlaybookSettings) (st : PlaybookStore)
    (hpin : ∀ orgId agent runId b, c ≠ .pin orgId agent runId b) :
    (call settings st c).stable = st.stable ∧
      ∃ keep : PinKey → Bool, (call settings st c).pins = st.pins.restrict keep ∧
        ∀ key, keep key = false → Drops st c key := by
  have hsame : ∃ keep : PinKey → Bool, st.pins = st.pins.restrict keep ∧
      ∀ key, keep key = false → Drops st c key :=
    ⟨fun _ => true, (Dict.filter_all fun _ _ => rfl).symm, fun _ h => by cases h⟩
  have hcommit : (after st (committed settings st c)).stable = st.stable ∧
      (after st (committed settings st c)).pins = st.pins := by
    cases hc : committed settings st c with
    | none => exact ⟨rfl, rfl⟩
    | some out =>
      obtain ⟨-, hst⟩ := committed_spec hc
      rw [after, hst]
      exact ⟨rfl, rfl⟩
  cases c with
  | commit p =>
    rw [call, hcommit.1, hcommit.2]
    exact ⟨rfl, hsame⟩
  | rollback orgId agent version now =>
    rw [call, hcommit.1, hcommit.2]
    exact ⟨rfl, hsame⟩
  | pin orgId agent runId b => exact absurd rfl (hpin orgId agent runId b)
  | release runId =>
    refine ⟨rfl, fun k => !decide (k.2.2 = runId), rfl, fun key h => ?_⟩
    simp only [Bool.not_eq_false', decide_eq_true_eq] at h
    exact h.symm
  | purgeCiting recordIds orgId =>
    rw [call, purgeCiting]
    split
    · exact ⟨rfl, hsame⟩
    next hids =>
      refine ⟨rfl, fun k => !decide (k.1 = orgId), rfl, fun key h => ?_⟩
      simp only [Bool.not_eq_false', decide_eq_true_eq] at h
      exact ⟨hids, h.symm⟩

theorem entries_evictPins (pins : Dict PinKey PinnedPlaybook) :
    (evictPins pins).entries = pins.entries.drop (pins.entries.length - maxPinnedRuns) :=
  popOldest_eq_drop _ _

theorem length_evictPins (pins : Dict PinKey PinnedPlaybook) :
    (evictPins pins).entries.length ≤ maxPinnedRuns := by
  rw [entries_evictPins, List.length_drop]
  omega

theorem get?_of_evictPins {pins : Dict PinKey PinnedPlaybook}
    (h : (evictPins pins).get? key = some pinned) : pins.get? key = some pinned := by
  rw [Dict.get?_eq_some] at h ⊢
  rw [entries_evictPins] at h
  exact List.mem_of_mem_drop h

theorem get?_evictPins {pins : Dict PinKey PinnedPlaybook}
    (hlen : pins.entries.length ≤ maxPinnedRuns + 1) (h : pins.get? key = some pinned)
    (hd : ¬(pins.entries.length = maxPinnedRuns + 1 ∧ pins.keys.head? = some key)) :
    (evictPins pins).get? key = some pinned := by
  rw [Dict.get?_eq_some] at h ⊢
  rw [entries_evictPins]
  by_cases hfull : pins.entries.length = maxPinnedRuns + 1
  · have hone : pins.entries.length - maxPinnedRuns = 1 := by omega
    rw [hone]
    cases hes : pins.entries with
    | nil => rw [hes] at h; cases h
    | cons e es =>
      rw [hes] at h
      rcases List.mem_cons.1 h with rfl | h
      · refine absurd ⟨hfull, ?_⟩ hd
        rw [Dict.keys, hes]
        rfl
      · exact h
  · have hzero : pins.entries.length - maxPinnedRuns = 0 := by omega
    rw [hzero]
    exact h

theorem keys_set_length {d : Dict PinKey PinnedPlaybook} (h : key ∉ d) :
    (d.set key pinned).entries.length = d.entries.length + 1 := by
  rw [Dict.entries_set_new h, List.length_append]
  rfl

theorem pinned_stays (hlen : st.pins.entries.length ≤ maxPinnedRuns)
    (h : st.pins.get? key = some pinned) (hd : ¬Drops st c key) :
    (call settings st c).pins.get? key = some pinned := by
  by_cases hpin : ∀ orgId agent runId b, c ≠ .pin orgId agent runId b
  · obtain ⟨-, keep, hpins, hkeep⟩ := pins_call settings st hpin
    rw [hpins, Dict.get?_restrict]
    cases hk : keep key with
    | true => exact h
    | false => exact absurd (hkeep key hk) hd
  · push Not at hpin
    obtain ⟨orgId, agent, runId, b, rfl⟩ := hpin
    rw [call, pin]
    cases hold : st.pins.get? (orgId, agent, runId) with
    | some old =>
      change ((st.pins.erase _).set _ old).get? key = some pinned
      rw [Dict.get?_set]
      split
      next hk => rw [← h, ← hk, hold]
      next hk => rw [Dict.get?_erase, if_neg hk, h]
    | none =>
      have hnew := Dict.get?_eq_none.1 hold
      have hne : (orgId, agent, runId) ≠ key := by
        intro hk
        rw [← hk, hold] at h
        cases h
      apply get?_evictPins
      · rw [keys_set_length hnew]
        exact Nat.succ_le_succ hlen
      · rw [Dict.get?_set_ne _ hne, h]
      · rintro ⟨hfull, hhead⟩
        rw [keys_set_length hnew, Nat.succ_inj] at hfull
        apply hd
        refine ⟨hnew, ?_, ?_⟩
        · rw [Dict.keys, List.length_map, hfull]
        · rw [Dict.keys_set_new hnew] at hhead
          cases hkeys : st.pins.keys with
          | nil =>
            have hzero := congrArg List.length hkeys
            rw [Dict.keys, List.length_map, hfull] at hzero
            cases hzero
          | cons k ks =>
            rw [hkeys] at hhead
            exact hhead

theorem mem_pinners {w : Watched} : runId ∈ w.pinners key version ↔
    ((key.1, key.2, runId), version) ∈ w.pinnings := by
  rw [Watched.pinners, List.mem_toFinset, List.mem_map]
  constructor
  · rintro ⟨⟨⟨org, agent, run⟩, v⟩, he, rfl⟩
    obtain ⟨hmem, hkey⟩ := List.mem_filter.1 he
    obtain ⟨hk, hv⟩ := of_decide_eq_true hkey
    cases hk
    cases hv
    exact hmem
  · intro h
    exact ⟨_, List.mem_filter.2 ⟨h, decide_eq_true ⟨rfl, rfl⟩⟩, rfl⟩

theorem pinners_observe (settings : PlaybookSettings) (w : Watched) (c : Call) (key : PlaybookKey)
    (version : Int) :
    w.pinners key version ⊆ (observe settings w c).pinners key version := by
  intro runId h
  rw [mem_pinners] at h ⊢
  exact List.mem_append_left _ h

/-- The counters and the placements rest on pins that were made. -/
structure Counted (settings : PlaybookSettings) (w : Watched) : Prop where
  room : w.store.pins.entries.length ≤ maxPinnedRuns
  counted : ∀ key version runs, w.store.stable.get? key = some (version, runs) →
    runs.Nodup ∧ ∀ runId ∈ runs, runId ∈ w.pinners key version
  placed : ∀ key pinned, w.store.pins.get? key = some pinned →
    pinned.placement = .stablePrefix →
      settings.minStableRuns ≤ (w.pinners (key.1, key.2.1) pinned.version).card

theorem Counted.countedRuns (h : Counted settings w) (key : PlaybookKey) (version : Int) :
    (w.store.countedRuns key version).Nodup ∧
      ∀ r ∈ w.store.countedRuns key version, r ∈ w.pinners key version := by
  rw [PlaybookStore.countedRuns]
  split
  · exact ⟨List.nodup_nil, fun r hr => by cases hr⟩
  next counted runs hget =>
    split
    · exact ⟨List.nodup_nil, fun r hr => by cases hr⟩
    next hv =>
      obtain rfl := not_not.1 hv
      exact h.counted key _ runs hget

theorem Counted.stableRuns (h : Counted settings w) (key : PlaybookKey) (version : Int)
    (runId : String) : (w.store.stableRuns key version runId).Nodup ∧
      ∀ r ∈ w.store.stableRuns key version runId, r = runId ∨ r ∈ w.pinners key version := by
  obtain ⟨hnodup, hmem⟩ := h.countedRuns key version
  rw [PlaybookStore.stableRuns]
  by_cases hold : runId ∈ w.store.countedRuns key version
  · rw [if_pos hold]
    exact ⟨hnodup, fun r hr => Or.inr (hmem r hr)⟩
  · rw [if_neg hold]
    constructor
    · apply List.Nodup.sublist (List.drop_sublist _ _)
      apply List.nodup_append.2
      refine ⟨hnodup, List.nodup_singleton _, ?_⟩
      intro r hr r' hr' he
      rw [List.mem_singleton.1 hr'] at he
      exact hold (he ▸ hr)
    · intro r hr
      rcases List.mem_append.1 (List.mem_of_mem_drop hr) with hr | hr
      · exact Or.inr (hmem r hr)
      · exact Or.inl (List.mem_singleton.1 hr)

theorem pin_held {orgId agent runId : String} (hold : st.pins.get? (orgId, agent, runId) = some old)
    (b : Option Int) : pin settings st orgId agent runId b = (old,
      { st with pins := (st.pins.erase (orgId, agent, runId)).set (orgId, agent, runId) old }) := by
  rw [pin, hold]

theorem room_refresh {d : Dict PinKey PinnedPlaybook} (h : d.get? key = some old) :
    ((d.erase key).set key old).entries.length = d.entries.length := by
  have hgone : key ∉ d.erase key := by simp
  have hperm := (Dict.perm_keys_erase (Dict.mem_of_get? h)).length_eq
  rw [Dict.keys, Dict.keys, List.length_cons, List.length_map, List.length_map] at hperm
  rw [keys_set_length hgone, hperm]

theorem room_call (h : st.pins.entries.length ≤ maxPinnedRuns) (c : Call) :
    (call settings st c).pins.entries.length ≤ maxPinnedRuns := by
  by_cases hpin : ∀ orgId agent runId b, c ≠ .pin orgId agent runId b
  · obtain ⟨-, keep, hpins, -⟩ := pins_call settings st hpin
    rw [hpins]
    exact (List.length_filter_le _ _).trans h
  · push Not at hpin
    obtain ⟨orgId, agent, runId, b, rfl⟩ := hpin
    cases hold : st.pins.get? (orgId, agent, runId) with
    | some old =>
      rw [call, pin_held hold, room_refresh hold]
      exact h
    | none =>
      rw [call, pin, hold]
      exact length_evictPins _

theorem Counted.later (h : Counted settings w) (c : Call) :
    (∀ key version runs, w.store.stable.get? key = some (version, runs) →
      runs.Nodup ∧ ∀ runId ∈ runs, runId ∈ (observe settings w c).pinners key version) ∧
    ∀ key pinned, w.store.pins.get? key = some pinned → pinned.placement = .stablePrefix →
      settings.minStableRuns ≤
        ((observe settings w c).pinners (key.1, key.2.1) pinned.version).card := by
  have hmono := pinners_observe settings w c
  constructor
  · intro key version runs hget
    obtain ⟨hnodup, hmem⟩ := h.counted key version runs hget
    exact ⟨hnodup, fun r hr => hmono _ _ (hmem r hr)⟩
  · intro key pinned hget hplace
    exact (h.placed key pinned hget hplace).trans (Finset.card_le_card (hmono _ _))

theorem Counted.pinned_by (h : Counted settings w) {orgId agent runId : String}
    (hold : w.store.pins.get? (orgId, agent, runId) = none) (b : Option Int) :
    let version := (w.store.current orgId agent).version
    let runs := w.store.stableRuns (orgId, agent) version runId
    runs.Nodup ∧ ∀ r ∈ runs,
      r ∈ (observe settings w (.pin orgId agent runId b)).pinners (orgId, agent) version := by
  intro version runs
  obtain ⟨hnodup, hmem⟩ := h.stableRuns (orgId, agent) version runId
  refine ⟨hnodup, fun r hr => ?_⟩
  rcases hmem r hr with rfl | hr
  · rw [mem_pinners]
    apply List.mem_append_right
    simp only [pinning, pin, hold]
    exact List.mem_singleton_self _
  · exact pinners_observe settings w _ _ _ hr

theorem Counted.observe_new (h : Counted settings w) {orgId agent runId : String}
    (hold : w.store.pins.get? (orgId, agent, runId) = none) (b : Option Int) :
    Counted settings (observe settings w (.pin orgId agent runId b)) := by
  obtain ⟨hcounted, hplaced⟩ := h.later (.pin orgId agent runId b)
  obtain ⟨hnodup, hruns⟩ := h.pinned_by hold b
  have hstore : (PlaybookStore.observe settings w (.pin orgId agent runId b)).store =
      (pin settings w.store orgId agent runId b).2 := rfl
  rw [pin, hold] at hstore
  refine ⟨room_call h.room _, ?_, ?_⟩
  · intro key version runs hget
    rw [hstore, Dict.get?_set] at hget
    split at hget
    next hk =>
      cases hget
      rw [← hk]
      exact ⟨hnodup, hruns⟩
    next hk => exact hcounted key version runs hget
  · intro key pinned hget hplace
    rw [hstore] at hget
    have hget := get?_of_evictPins hget
    rw [Dict.get?_set] at hget
    split at hget
    next hk =>
      cases hget
      rw [← hk]
      have hlen := of_not_not fun hlt => by
        rw [if_neg hlt] at hplace
        cases hplace
      rw [← List.toFinset_card_of_nodup hnodup] at hlen
      exact hlen.trans (Finset.card_le_card fun r hr => hruns r (List.mem_toFinset.1 hr))
    next hk => exact hplaced key pinned hget hplace

theorem Counted.observe_held (h : Counted settings w) {orgId agent runId : String}
    (hold : w.store.pins.get? (orgId, agent, runId) = some old) (b : Option Int) :
    Counted settings (observe settings w (.pin orgId agent runId b)) := by
  obtain ⟨hcounted, hplaced⟩ := h.later (.pin orgId agent runId b)
  have hstore : (PlaybookStore.observe settings w (.pin orgId agent runId b)).store =
      (pin settings w.store orgId agent runId b).2 := rfl
  rw [pin_held hold] at hstore
  refine ⟨room_call h.room _, ?_, ?_⟩
  · rw [hstore]
    exact hcounted
  · intro key pinned hget
    rw [hstore, Dict.get?_set] at hget
    split at hget
    next hk =>
      cases hget
      exact hplaced key old (hk ▸ hold)
    next hk =>
      rw [Dict.get?_erase, if_neg hk] at hget
      exact hplaced key pinned hget

theorem Counted.observe (h : Counted settings w) (c : Call) :
    Counted settings (observe settings w c) := by
  by_cases hpin : ∀ orgId agent runId b, c ≠ .pin orgId agent runId b
  · obtain ⟨hcounted, hplaced⟩ := h.later c
    obtain ⟨hstable, keep, hpins, -⟩ := pins_call settings w.store hpin
    refine ⟨room_call h.room c, ?_, ?_⟩
    · intro key version runs hget
      change (call settings w.store c).stable.get? key = _ at hget
      rw [hstable] at hget
      exact hcounted key version runs hget
    · intro key pinned hget
      change (call settings w.store c).pins.get? key = _ at hget
      rw [hpins, Dict.get?_restrict] at hget
      split at hget
      · exact hplaced key pinned hget
      · cases hget
  · push Not at hpin
    obtain ⟨orgId, agent, runId, b, rfl⟩ := hpin
    cases hold : w.store.pins.get? (orgId, agent, runId) with
    | some old => exact h.observe_held hold b
    | none => exact h.observe_new hold b

theorem not_head {pins : Dict PinKey PinnedPlaybook} (h : key ∉ pins)
    (hfull : pins.entries.length = maxPinnedRuns) : (pins.keys ++ [key]).head? ≠ some key := by
  intro hhead
  cases hkeys : pins.keys with
  | nil =>
    have hzero := congrArg List.length hkeys
    rw [Dict.keys, List.length_map, hfull] at hzero
    cases hzero
  | cons k ks =>
    rw [hkeys] at hhead
    cases hhead
    exact h (Dict.mem_iff_keys.2 (hkeys ▸ List.mem_cons_self))

theorem pin_answer (hlen : st.pins.entries.length ≤ maxPinnedRuns) (orgId agent runId : String)
    (b : Option Int) : (pin settings st orgId agent runId b).2.pins.get? (orgId, agent, runId) =
      some (pin settings st orgId agent runId b).1 := by
  cases hold : st.pins.get? (orgId, agent, runId) with
  | some old =>
    rw [pin_held hold]
    exact Dict.get?_set_self _ _ _
  | none =>
    have hnew := Dict.get?_eq_none.1 hold
    rw [pin, hold]
    apply get?_evictPins
    · rw [keys_set_length hnew]
      exact Nat.succ_le_succ hlen
    · exact Dict.get?_set_self _ _ _
    · rintro ⟨hfull, hhead⟩
      rw [keys_set_length hnew, Nat.succ_inj] at hfull
      rw [Dict.keys_set_new hnew] at hhead
      exact not_head hnew hfull hhead

theorem pinned_final (hlen : st.pins.entries.length ≤ maxPinnedRuns)
    (h : st.pins.get? key = some pinned)
    (hd : Along (call settings) (fun st c _ => ¬Drops st c key) st later) :
    (final (call settings) st later).pins.get? key = some pinned := by
  induction later generalizing st with
  | nil => exact h
  | cons c later ih => exact ih (room_call hlen c) (pinned_stays hlen h hd.1) hd.2

end Pins

structure Sound (settings : PlaybookSettings) (w : Watched) : Prop where
  /-- the versions of a playbook strictly increase -/
  increasing : ∀ key, (w.acceptedVersions key).Pairwise (· < ·)
  /-- the newest of them are kept -/
  bounded : ∀ key, (w.store.versions key).Pairwise (· < ·) ∧
    (w.store.versions key).length ≤ settings.keepVersions
  /-- the current version is the newest kept one, and the last that was accepted -/
  current : ∀ orgId agent, ∀ p ∈ w.store.kept (orgId, agent),
    w.store.current orgId agent ∈ w.store.kept (orgId, agent) ∧
      p.version ≤ (w.store.current orgId agent).version ∧
      (w.acceptedVersions (orgId, agent)).getLast? = some (w.store.current orgId agent).version
  /-- what a run sees is unchanged until its pin is dropped -/
  pinned : ∀ key pinned, w.store.pins.get? key = some pinned → ∀ later,
    Along (call settings) (fun st c _ => ¬Drops st c key) w.store later →
      ∀ b, (pin settings (final (call settings) w.store later) key.1 key.2.1 key.2.2 b).1 = pinned
  /-- a pin call answers what the store then holds for the run -/
  answered : ∀ orgId agent runId b,
    (pin settings w.store orgId agent runId b).2.pins.get? (orgId, agent, runId) =
      some (pin settings w.store orgId agent runId b).1
  /-- a playbook in the stable part of the prompt was pinned by enough distinct runs -/
  placed : ∀ key pinned, w.store.pins.get? key = some pinned →
    pinned.placement = .stablePrefix →
      settings.minStableRuns ≤ (w.pinners (key.1, key.2.1) pinned.version).card

theorem length_rtake (l : List α) (n : Nat) : (l.rtake n).length ≤ n := by
  rw [List.rtake, List.length_drop]
  omega

theorem Ordered.bounded (h : Ordered settings w) (key : PlaybookKey) :
    (w.store.versions key).Pairwise (· < ·) ∧
      (w.store.versions key).length ≤ settings.keepVersions := by
  rw [h.newest]
  exact ⟨(h.increasing key).sublist (List.drop_sublist _ _), length_rtake _ _⟩

theorem Ordered.current (h : Ordered settings w)
    (hp : p ∈ w.store.kept (orgId, agent)) :
    w.store.current orgId agent ∈ w.store.kept (orgId, agent) ∧
      p.version ≤ (w.store.current orgId agent).version ∧
      (w.acceptedVersions (orgId, agent)).getLast? =
        some (w.store.current orgId agent).version := by
  obtain ⟨last, hlast⟩ :=
    Option.isSome_iff_exists.1 (List.getLast?_isSome.2 (List.ne_nil_of_mem hp))
  have hcur : w.store.current orgId agent = last := by
    rw [PlaybookStore.current, hlast]
    rfl
  have hversion : (w.store.versions (orgId, agent)).getLast? = some last.version := by
    rw [versions, List.getLast?_map, hlast]
    rfl
  rw [hcur]
  refine ⟨List.mem_of_getLast? hlast, ?_, ?_⟩
  · exact le_getLast? (h.bounded _).1 hversion (List.mem_map_of_mem hp)
  · rw [← hversion, h.newest, getLast?_rtake _ settings.keepVersions_pos]

/-- Over any calls: versions strictly increase, the newest are kept, the current one is the newest
kept, a pinned run sees the same bytes until its pin is dropped, and the stable part of the prompt
holds only what enough distinct runs pinned. -/
theorem playbook_store_sound (settings : PlaybookSettings) (calls : List Call) :
    Sound settings (final (observe settings) {} calls) := by
  have hordered : Ordered settings (final (observe settings) {} calls) := by
    apply final_of_invariant (I := Ordered settings) ordered_empty
    exact fun w c h => h.observe c
  have hcounted : Counted settings (final (observe settings) {} calls) := by
    apply final_of_invariant (I := Counted settings)
    · constructor
      · exact Nat.zero_le _
      · intro key version runs hget
        cases hget
      · intro key pinned hget
        cases hget
    · exact fun w c h => h.observe c
  refine ⟨hordered.increasing, hordered.bounded, fun _ _ _ hp => hordered.current hp, ?_,
    pin_answer hcounted.room, hcounted.placed⟩
  intro key pinned hget later hd b
  have hheld := pinned_final hcounted.room hget hd
  rw [pin_held hheld]

end Prismal.Memory.PlaybookStore
