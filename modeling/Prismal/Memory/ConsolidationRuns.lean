import Prismal.Memory.Clusters
import Prismal.Memory.Contradictions

namespace Prismal.Memory
open Prismal.Lib
set_option autoImplicit true

/-! The third step of a consolidation run: clusters of episodes are summarized. -/

variable {p p₀ : Process} {host : Host} {scope : MemoryScope}

theorem episodes_stored (hk : records.Keyed) (h : r ∈ episodes records scope window) :
    records.get? r.id = some r := by
  have hm := (List.mem_filter.1 ((List.mem_insertionSort _).1 h)).1
  obtain ⟨q, -, hq⟩ := List.mem_filterMap.1 hm
  have hget := (Records.get_eq_some.1 hq).1
  rw [hk _ _ hget]
  exact hget

theorem clusters_subset (hn : (es.map MemoryRecord.id).Pairwise (· < ·))
    (hc : c ∈ clusters host es) (hr : r ∈ c) : r ∈ es := by
  obtain ⟨f, hgrouped, -, -⟩ := groups_spec host hn
  obtain ⟨g, hg, rfl⟩ := List.mem_map.1 hc
  obtain ⟨k, hk⟩ := Dict.mem_values.1 (List.mem_filter.1 hg).1
  obtain ⟨-, hmem⟩ := hgrouped k
  rw [hk, Option.getD_some] at hmem
  exact ((hmem r).1 ((List.mem_insertionSort _).1 hr)).1

theorem chained_scope (hn : (es.map MemoryRecord.id).Pairwise (· < ·)) (ha : a ∈ es) (hb : b ∈ es)
    (h : Chained host es a b) : a.scope = b.scope := by
  have hinj : ∀ q ∈ es, ∀ r ∈ es, q.id = r.id → q = r :=
    List.inj_on_of_nodup_map (hn.imp fun h => ne_of_lt h)
  have hall : ∀ x y, Relation.EqvGen (Seen host es) x y → x = y ∨
      ∃ q ∈ es, ∃ r ∈ es, q.id = x ∧ r.id = y ∧ q.scope = r.scope := by
    intro x y hxy
    induction hxy with
    | rel x y h =>
      obtain ⟨q, hq, r, hr, hx, hy, -, hs, -⟩ := h
      exact Or.inr ⟨q, hq, r, hr, hx, hy, hs⟩
    | refl x => exact Or.inl rfl
    | symm x y _ ih =>
      rcases ih with he | ⟨q, hq, r, hr, hx, hy, hs⟩
      · exact Or.inl he.symm
      · exact Or.inr ⟨r, hr, q, hq, hy, hx, hs.symm⟩
    | trans x y z _ _ ihxy ihyz =>
      rcases ihxy with rfl | ⟨q, hq, r, hr, hx, hy, hs⟩
      · exact ihyz
      · rcases ihyz with rfl | ⟨q', hq', r', hr', hy', hz, hs'⟩
        · exact Or.inr ⟨q, hq, r, hr, hx, hy, hs⟩
        · obtain rfl := hinj r hr q' hq' (hy.trans hy'.symm)
          exact Or.inr ⟨q, hq, r', hr', hx, hz, hs.trans hs'⟩
  rcases hall a.id b.id h with he | ⟨q, hq, r, hr, hqa, hrb, hs⟩
  · rw [hinj a ha b hb he]
  · rw [← hinj q hq a ha hqa, ← hinj r hr b hb hrb]
    exact hs

theorem clusters_scope (hn : (es.map MemoryRecord.id).Pairwise (· < ·))
    (hc : c ∈ clusters host es) (ha : a ∈ c) (hb : b ∈ c) : a.scope = b.scope := by
  have hae := clusters_subset hn hc ha
  have hbe := clusters_subset hn hc hb
  exact chained_scope hn hae hbe ((clustered_iff hn hae hbe).1 ⟨c, hc, ha, hb⟩).1

theorem commonScope_some {cluster : List MemoryRecord} (hne : cluster ≠ [])
    (hs : ∀ a ∈ cluster, ∀ b ∈ cluster, a.scope = b.scope) : (commonScope cluster).isSome := by
  cases cluster with
  | nil => exact absurd rfl hne
  | cons r rest =>
    have hall : (rest.all fun q => decide (q.scope = r.scope)) = true := by
      rw [List.all_eq_true]
      intro q hq
      exact decide_eq_true (hs q (List.mem_cons_of_mem _ hq) r List.mem_cons_self)
    rw [commonScope, if_pos hall]
    rfl

/-- Clusters that are still to be summarized: stored records of one scope, none of them flagged. -/
def Summarizing (p₀ : Process) (cs : List (List MemoryRecord)) (p : Process) : Prop :=
  Steady p₀ p ∧ ∀ c ∈ cs, (Holds c p ∧ ∀ r ∈ c, r.provenance.tainted = false) ∧
    (commonScope c).isSome

theorem promotable_some (h : promotable host cluster = some c) :
    c = clean cluster ∧ (cluster ≠ [] → c ≠ []) := by
  rw [promotable] at h
  split at h
  · cases h
  · split at h
    · cases h
    next hfew =>
      obtain rfl := Option.some.inj h
      refine ⟨rfl, fun hne hnil => ?_⟩
      have hpos : 0 < cluster.length := List.length_pos_iff.2 hne
      rw [hnil] at hfew
      exact hfew (by simpa [mayPromote] using hpos)

theorem clusters_ne_nil (hc : c ∈ clusters host es) : c ≠ [] := by
  obtain ⟨g, hg, rfl⟩ := List.mem_map.1 hc
  have hlen : minCluster ≤ g.length := of_decide_eq_true (List.mem_filter.1 hg).2
  rintro hnil
  have hperm := (List.perm_insertionSort Records.Earlier g).length_eq
  rw [hnil] at hperm
  rw [← hperm] at hlen
  exact absurd hlen (by decide)

theorem sortedOut_summarizing (h : Steady p₀ p) {window : List MemoryRecord}
    (hw : (window.map MemoryRecord.id).Nodup) :
    Summarizing p₀
      (sortedOut host (clusters host (episodes p.vault.records scope window))).1 p := by
  have hn := episodes_sorted h.reach.keyed hw scope
  refine ⟨h, fun c hc => ?_⟩
  obtain ⟨cluster, hcluster, hprom⟩ := List.mem_filterMap.1 hc
  obtain ⟨rfl, hne⟩ := promotable_some hprom
  refine ⟨⟨fun r hr => ?_, fun r hr => ?_⟩, ?_⟩
  · exact episodes_stored h.reach.keyed (clusters_subset hn hcluster (List.mem_filter.1 hr).1)
  · simpa using (List.mem_filter.1 hr).2
  · apply commonScope_some (hne (clusters_ne_nil hcluster))
    intro a ha b hb
    exact clusters_scope hn hcluster (List.mem_filter.1 ha).1 (List.mem_filter.1 hb).1

theorem summarizes_summaryRecord (hh : Holds cluster p)
    (hclean : ∀ r ∈ cluster, r.provenance.tainted = false) :
    Summarizes p.vault (summaryRecord cluster text sc confidence rid now) where
  untainted := rfl
  trust := by
    change (if _ then Trust.trusted else Trust.unknown) ≠ .untrusted
    split
    · exact fun h => nomatch h
    · exact fun h => nomatch h
  active := rfl
  cites c hc := by
    obtain ⟨r, hr, rfl⟩ := List.mem_map.1 hc
    exact ⟨r, hh r hr, hclean r hr⟩

theorem Summarizing.tail (h : Summarizing p₀ (c :: cs) p) : Summarizing p₀ cs p :=
  ⟨h.1, fun c' hc => h.2 c' (List.mem_cons_of_mem _ hc)⟩

theorem Summarizing.tick (h : Summarizing p₀ cs p) : Summarizing p₀ cs p.tick :=
  ⟨h.1.tick, h.2⟩

theorem putSummaryOf_spec (env : ConsolidationEnv) (cluster : List MemoryRecord)
    (rest : List (List MemoryRecord)) :
    Spec (Summarizing p₀ (cluster :: rest)) (putSummaryOf host env cluster)
      (fun _ => Summarizing p₀ rest) (fun _ _ => False) := by
  rw [putSummaryOf]
  split
  · exact Spec.pure fun _ h => h.tail
  next text _ =>
    split
    · exact Spec.pure fun _ h => h.tail
    · split
      next hnone =>
        intro p h
        have hsome := (h.2 cluster List.mem_cons_self).2
        rw [hnone] at hsome
        cases hsome
      next sc confidence _ =>
        apply Spec.bind (Q := fun rid p => Summarizing p₀ (cluster :: rest) p ∧
          (∃ rand, rid = recordId p.vault.lastId rand) ∧ rid ∉ p.vault.written)
        · rintro p ⟨hs, hc⟩
          obtain ⟨⟨hs', -⟩, hid⟩ := newRecordId_spec host (E := fun _ _ => False) p
            ⟨hs, holds_nil⟩
          exact ⟨⟨hs', hc⟩, hid⟩
        · intro rid
          apply Spec.bind (readClock_spec fun p h => ⟨h.1.tick, h.2⟩)
          intro now
          apply Spec.bind (Q := fun _ => Summarizing p₀ rest)
          · apply Spec.modify
            rintro p ⟨⟨hs, hc⟩, ⟨rand, hid⟩, hnew⟩
            obtain ⟨⟨hh, hclean⟩, -⟩ := hc cluster List.mem_cons_self
            have hput := hs.touch
              (t := .putSummary (summaryRecord cluster (strip text) sc confidence rid now))
              (.putSummary hid hnew (summarizes_summaryRecord hh hclean) rfl) rfl
            refine ⟨hput, fun c hm => ?_⟩
            obtain ⟨⟨hh, hclean⟩, hs'⟩ := hc c (List.mem_cons_of_mem _ hm)
            refine ⟨⟨hh.put fun q hq he => hnew ?_, hclean⟩, hs'⟩
            have hid : rid = q.id := he
            exact hid ▸ hs.mem_written (hh q hq)
          · exact fun _ => Spec.pure fun _ h => h

theorem summarize_spec (env : ConsolidationEnv) {window : List MemoryRecord}
    (hw : (window.map MemoryRecord.id).Nodup) :
    Spec (Steady p₀) (summarize host env scope window) (fun _ => Steady p₀)
      (fun _ _ => False) := by
  apply Spec.bind (Spec.get (Q := fun q p => q = p ∧ Steady p₀ p) fun _ h => ⟨rfl, h⟩)
  intro q
  apply Spec.bind (Q := fun _ => Summarizing p₀ [])
  · apply (countM_spec fun c rest => putSummaryOf_spec env c rest).pre
    rintro p ⟨rfl, h⟩
    exact sortedOut_summarizing h hw
  · exact fun _ => Spec.pure fun _ h => h.1

end Prismal.Memory

namespace Prismal.Memory
open Prismal.Lib
set_option autoImplicit true

/-! What one consolidation run does to the memory. -/

variable {p p₀ : Process} {host : Host} {scope : MemoryScope}

theorem runRetention_spec (settings : RetentionSettings) (env : ConsolidationEnv) :
    Spec (Kept p₀) (runRetention host settings env scope) (fun _ => Kept p₀)
      (fun _ => Kept p₀) := by
  apply Spec.bind (retentionRules_spec host settings (some scope.tenant))
  intro rules
  apply Spec.bind (Q := fun _ => Kept p₀)
  · apply Spec.forM (I := fun _ => Kept p₀)
    intro selector _
    exact Spec.bind (execute_spec selector (some retentionActor) (env.forget selector))
      fun _ => Spec.pure fun _ h => h
  · exact fun _ => Spec.pure fun _ h => h

theorem applyRetention_spec (c : Consolidator) (env : ConsolidationEnv) :
    Spec (Kept p₀) (applyRetention host c env scope) (fun _ => Kept p₀) (fun _ _ => False) := by
  cases hr : c.retention with
  | none =>
    simp only [applyRetention, hr]
    exact Spec.pure fun _ h => h
  | some settings =>
    simp only [applyRetention, hr]
    apply Spec.tryCatch (runRetention_spec settings env)
    exact fun _ => Spec.pure fun _ h => h

def markedBy (scope : MemoryScope) (window : List MemoryRecord) (marks : Dict MemoryScope Rat) :
    Dict MemoryScope Rat :=
  match newest window with
  | none => marks
  | some t => marks.set scope t

structure Ran (c : Consolidator) (scope : MemoryScope) (p q : Process) : Prop
    extends Outcome p q where
  watermarks : q.watermarks = markedBy scope (windowOf c p scope) p.watermarks
  resolved : ∀ r ∈ windowOf c p scope, Resolved q.vault r.id
  spared : c.retention = none → q.vault.purged = p.vault.purged

theorem windowOf_nodup (h : Reach p.vault) (c : Consolidator) (scope : MemoryScope) :
    ((windowOf c p scope).map MemoryRecord.id).Nodup :=
  (Records.list_nodup h.keyed).sublist (List.filter_sublist.map _)

theorem windowOf_visible (h : Reach p.vault) (hr : r ∈ windowOf c p scope) :
    Visible p.vault scope r.id := by
  obtain ⟨hst, hcov⟩ := Records.mem_list h.keyed (List.mem_filter.1 hr).1
  obtain ⟨q, hq, ho⟩ := h.origin hst
  exact ⟨q, hq, by rw [ho.2.1]; exact hcov⟩

theorem moveWatermark_spec (window : List MemoryRecord) {P : Vault → Prop} :
    Spec (fun q => Kept p₀ q ∧ P q.vault) (moveWatermark scope window)
      (fun _ q => (Outcome p₀ q ∧ P q.vault) ∧
        q.watermarks = markedBy scope window p₀.watermarks) (fun _ _ => False) := by
  rw [moveWatermark]
  split
  next hnone =>
    apply Spec.pure
    rintro q ⟨h, hP⟩
    refine ⟨⟨h.toOutcome, hP⟩, ?_⟩
    rw [markedBy, hnone]
    exact h.watermarks
  next t hsome =>
    apply Spec.modify
    rintro q ⟨h, hP⟩
    refine ⟨⟨⟨⟨h.reach, h.issued, h.requests, h.justified, h.purged⟩, h.moves⟩, hP⟩, ?_⟩
    rw [markedBy, hsome, ← h.watermarks]
    rfl

def Settles (window : List MemoryRecord) (v : Vault) : Prop := ∀ r ∈ window, Resolved v r.id

theorem Settles.moves (h : Settles window v') (he : Edged v)
    (hvis : ∀ r ∈ window, Visible v scope r.id) (hm : Moves v v') (hm' : Moves v' v'') :
    Settles window v'' := by
  intro r hr
  obtain ⟨w, hw, -⟩ := hvis r hr
  have hid := hm.later.mem_written (Dict.mem_of_get? hw)
  exact (h r hr).later (hm.edged he) hid hm'.later

theorem merge_spec (c : Consolidator) (env : ConsolidationEnv) (window : List MemoryRecord) :
    Spec (Steady p₀) (countM (mergeDuplicates host c env scope) window) (fun _ => Steady p₀)
      (fun _ _ => False) :=
  countM_spec (I := fun _ => Steady p₀) fun r _ => mergeDuplicates_spec c env r

theorem retained_spec (c : Consolidator) (env : ConsolidationEnv) (hs : Sound p₀) :
    Spec (Steady p₀) (applyRetention host c env scope)
      (fun _ q => Kept p₀ q ∧ (c.retention = none → q.vault.purged = p₀.vault.purged))
      (fun _ _ => False) := by
  intro q hq
  have hkept := (Kept.refl hs).steady hq
  cases hr : c.retention with
  | none =>
    simp only [applyRetention, hr]
    exact ⟨hkept, fun _ => hq.purged⟩
  | some settings =>
    apply (applyRetention_spec c env).post _ q hkept
    exact fun _ _ h => ⟨h, fun h' => nomatch h'⟩

theorem run_spec (host : Host) (c : Consolidator) (scope : MemoryScope) (env : ConsolidationEnv)
    (hs : Sound p) (he : Edged p.vault) :
    Ends (fun _ q => Ran c scope p q) (fun _ _ => False) (c.run host scope env p) := by
  let window := windowOf c p scope
  let sorted := window.insertionSort Records.Earlier
  have hvis : ∀ r ∈ window, Visible p.vault scope r.id := fun r hr => windowOf_visible hs.reach hr
  have hresolve : Spec (Steady p) (countM (resolveContradictions host scope) sorted)
      (fun _ q => Steady p q ∧ Settles window q.vault) (fun _ _ => False) := by
    have hvis' : ∀ r ∈ sorted, Visible p.vault scope r.id :=
      fun r hr => hvis r ((List.mem_insertionSort _).1 hr)
    apply (contradictions_spec he hvis').post
    exact fun _ q h => ⟨h.1, fun r hr => h.2 r ((List.mem_insertionSort _).2 hr)⟩
  have hsummarize : Spec (fun q => Steady p q ∧ Settles window q.vault)
      (summarize host env scope window) (fun _ q => Steady p q ∧ Settles window q.vault)
      (fun _ _ => False) := by
    rintro q ⟨hq, hres⟩
    apply (summarize_spec env (windowOf_nodup hs.reach c scope)).post _ q (Steady.refl hq.reach)
    exact fun _ q' h => ⟨hq.trans h, hres.moves he hvis hq.moves h.moves⟩
  have hretain : Spec (fun q => Steady p q ∧ Settles window q.vault)
      (applyRetention host c env scope)
      (fun _ q => Kept p q ∧ Settles window q.vault ∧
        (c.retention = none → q.vault.purged = p.vault.purged)) (fun _ _ => False) := by
    rintro q ⟨hq, hres⟩
    have hsound := hs.steady hq
    apply (retained_spec c env hsound).post _ q (Steady.refl hq.reach)
    rintro _ q' ⟨hkept, hspared⟩
    refine ⟨⟨⟨hkept.toSound, hq.moves.trans hkept.moves⟩, hkept.watermarks.trans hq.watermarks⟩,
      hres.moves he hvis hq.moves hkept.moves, fun h => (hspared h).trans hq.purged⟩
  have hmark : Spec (fun q => Kept p q ∧ Settles window q.vault ∧
      (c.retention = none → q.vault.purged = p.vault.purged)) (moveWatermark scope window)
      (fun _ q => Ran c scope p q) (fun _ _ => False) := by
    let P : Vault → Prop := fun v => Settles window v ∧
      (c.retention = none → v.purged = p.vault.purged)
    apply (moveWatermark_spec (P := P) window).post
    rintro _ q ⟨⟨houtcome, hres, hspared⟩, hmarks⟩
    exact ⟨houtcome, hmarks, hres, hspared⟩
  have hrun : Spec (fun q => p = q) (c.run host scope env) (fun _ q => Ran c scope p q)
      (fun _ _ => False) := by
    apply Spec.bind (Spec.get (Q := fun q s => p = q ∧ p = s) fun _ h => ⟨h, h⟩)
    rintro q s ⟨rfl, rfl⟩
    apply Spec.bind (merge_spec c env sorted) _ p (Steady.refl hs.reach)
    intro merged
    apply Spec.bind hresolve
    intro superseded
    apply Spec.bind hsummarize
    rintro ⟨summarized, quarantined, asked⟩
    apply Spec.bind hretain
    intro errors
    apply Spec.bind hmark
    exact fun _ => Spec.pure fun _ h => h
  exact hrun p rfl

end Prismal.Memory
