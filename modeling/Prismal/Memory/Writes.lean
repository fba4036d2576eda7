import Prismal.Memory.WriteGate

namespace Prismal.Memory
open Prismal.Lib Prismal.Decisions
set_option autoImplicit true

/-! What one pass of the write gate does to the memory. -/

/-- A verdict that stores a tainted candidate as `EPISODIC` only. -/
def Safe (tainted : Bool) (v : Verdict) : Prop :=
  tainted = true → ∀ type, v.type = some type → type = .episodic

theorem safe_skipped : Safe tainted (skipped backend reason) := by
  intro _ type h
  cases h

theorem downgrade_tainted (type : MemoryType) : downgrade true type = .episodic := by
  cases type <;> rfl

theorem safe_gateOff (candidate : MemoryCandidate) : Safe tainted (gateOff candidate tainted) := by
  rintro rfl type h
  rw [← Option.some.inj h]
  exact downgrade_tainted _

theorem safe_llmVerdict {env : WriteEnv} : Safe tainted (llmVerdict env tainted reason) := by
  rw [llmVerdict]
  split
  · exact safe_skipped
  · exact safe_skipped
  · exact safe_skipped
  next t _ =>
    rintro rfl type h
    rw [← Option.some.inj h]
    exact downgrade_tainted t

theorem safe_lowConfidence {policy : WriteGatePolicy} {env : WriteEnv} :
    Safe tainted (lowConfidence policy env tainted) := by
  rw [lowConfidence]
  split
  · exact safe_llmVerdict
  · exact safe_llmVerdict
  · exact safe_skipped

theorem safe_worthVerdict {policy : WriteGatePolicy} {env : WriteEnv} :
    Safe tainted (worthVerdict policy env tainted) := by
  rw [worthVerdict]
  split
  · exact safe_lowConfidence
  · split
    · exact safe_lowConfidence
    · split
      · intro _ type h
        cases h
      · split
        · intro _ type h
          exact (Option.some.inj h).symm
        next ht =>
          intro h
          exact absurd h ht

theorem safe_decisionVerdict {policy : WriteGatePolicy} {env : WriteEnv} :
    Safe tainted (decisionVerdict policy env neighbors tainted) := by
  rw [decisionVerdict]
  split
  · exact safe_worthVerdict
  · exact safe_worthVerdict

theorem safe_verdict (gate : WriteGate) (env : WriteEnv) (candidate : MemoryCandidate)
    (neighbors : List MemoryRecord) (tainted : Bool) :
    Safe tainted (gate.verdict env candidate neighbors tainted) := by
  rw [WriteGate.verdict]
  split
  · exact safe_gateOff candidate
  · exact safe_llmVerdict
  · exact safe_decisionVerdict

theorem gated_built {candidate : MemoryCandidate} {verdict : Verdict} (h : Safe tainted verdict)
    (ht : verdict.type = some type) :
    Gated (built candidate ctx verdict type tainted sources now rid) where
  tainted_episodic hp := h hp type ht
  untrusted_iff := by
    change trustOf tainted candidate.origin = .untrusted ↔ tainted = true
    rw [trustOf]
    cases tainted
    · by_cases ho : candidate.origin = .legacy
      · simp [ho]
      · simp [ho]
    · simp
  active := rfl

theorem built_edges {candidate : MemoryCandidate} {verdict : Verdict} (now : Rat) (rid : String) :
    (built candidate ctx verdict type tainted sources now rid).edges =
      verdict.relations.map
        (edgeOf (built candidate ctx verdict type tainted sources now rid).id now) := rfl

theorem relations_sublist (policy : WriteGatePolicy) (env : WriteEnv) (ns : List MemoryRecord) :
    ((relations policy env ns).map Relation.neighbor).Sublist ns := by
  have hfst : ∀ (x : MemoryRecord × Nat) (r : Relation),
      relationTo policy env x = some r → r.neighbor = x.1 := by
    intro x r h
    rw [relationTo] at h
    split at h
    · cases h
    · split at h
      · split at h
        · cases h
        · split at h
          · rw [← Option.some.inj h]
          · cases h
      · cases h
  have hsub : ∀ xs : List (MemoryRecord × Nat),
      ((xs.filterMap (relationTo policy env)).map Relation.neighbor).Sublist
        (xs.map Prod.fst) := by
    intro xs
    induction xs with
    | nil => exact List.Sublist.slnil
    | cons x xs ih =>
      rw [List.filterMap_cons]
      split
      · exact ih.cons _
      next r hr =>
        rw [List.map_cons, List.map_cons, hfst x r hr]
        exact ih.cons_cons _
  have h := hsub ns.zipIdx
  rwa [List.zipIdx_map_fst] at h

theorem llmVerdict_relations {env : WriteEnv} : (llmVerdict env tainted reason).relations = [] := by
  rw [llmVerdict]
  split <;> rfl

theorem lowConfidence_relations {policy : WriteGatePolicy} {env : WriteEnv} :
    (lowConfidence policy env tainted).relations = [] := by
  rw [lowConfidence]
  split
  · exact llmVerdict_relations
  · exact llmVerdict_relations
  · rfl

theorem typeVerdict_relations {policy : WriteGatePolicy} {env : WriteEnv} {worth : Decision} :
    (typeVerdict policy env worth).relations = [] := by
  rw [typeVerdict]
  split
  · exact lowConfidence_relations
  · split
    · exact lowConfidence_relations
    · split
      · rfl
      · exact lowConfidence_relations

theorem worthVerdict_relations {policy : WriteGatePolicy} {env : WriteEnv} :
    (worthVerdict policy env tainted).relations = [] := by
  rw [worthVerdict]
  split
  · exact lowConfidence_relations
  · split
    · exact lowConfidence_relations
    · split
      · rfl
      · split
        · rfl
        · exact typeVerdict_relations

theorem verdict_relations_sublist (gate : WriteGate) (env : WriteEnv)
    (candidate : MemoryCandidate) (ns : List MemoryRecord) (tainted : Bool) :
    ((gate.verdict env candidate ns tainted).relations.map Relation.neighbor).Sublist ns := by
  rw [WriteGate.verdict]
  split
  · exact List.nil_sublist ns
  · rw [llmVerdict_relations]
    exact List.nil_sublist ns
  · rw [decisionVerdict]
    split
    · exact relations_sublist gate.policy env ns
    · rw [worthVerdict_relations]
      exact List.nil_sublist ns

section

variable {p₀ p : Process} {host : Host}

theorem neighbors_of_search (h : Steady p₀ p) (policy : WriteGatePolicy) (content : String)
    (ctx : MemoryContext) : Neighbors (neighborsOf host policy content ctx p.vault.records) p where
  holds r hr := by
    obtain ⟨⟨q, score⟩, hq, rfl⟩ := List.mem_map.1 (List.mem_filter.1 hr).1
    exact (Records.mem_search h.reach.keyed hq).1
  nodup := (Records.search_nodup h.reach.keyed).sublist (List.filter_sublist.map _)
  active n hn := by
    obtain ⟨⟨q, score⟩, hq, rfl⟩ := List.mem_map.1 (List.mem_filter.1 hn).1
    exact (Records.mem_search h.reach.keyed hq).2.2.2 rfl

def Sees (scope : MemoryScope) (ns : List MemoryRecord) : Prop :=
  ∀ n ∈ ns, scope.covers n.scope = true

theorem Sees.sublist (h : Sees scope ns) (hs : ms.Sublist ns) : Sees scope ms :=
  fun n hn => h n (hs.subset hn)

theorem neighbors_seen (host : Host) (policy : WriteGatePolicy) (content : String)
    (ctx : MemoryContext) (records : Records) :
    Sees ctx.scope (neighborsOf host policy content ctx records) := by
  intro n hn
  obtain ⟨⟨q, score⟩, hq, rfl⟩ := List.mem_map.1 (List.mem_filter.1 hn).1
  exact (Records.hit_eq_some (Records.hit_of_search hq).2).2.1

def Superseding (p₀ : Process) (record : MemoryRecord)
    (rest : List Relation) (p : Process) : Prop :=
  Steady p₀ p ∧ record.supersededBy = none ∧
    Neighbors (record :: rest.map Relation.neighbor) p

theorem Superseding.tail (h : Superseding p₀ record (r :: rest) p) :
    Superseding p₀ record rest p :=
  ⟨h.1, h.2.1, h.2.2.sublist ((List.sublist_cons_self _ _).cons_cons _)⟩

theorem Superseding.store (h : Superseding p₀ record (r :: rest) p)
    (hmay : supersedeBlockReason record r.neighbor = none) :
    Superseding p₀ record rest
      (p.onVault fun v => v.store (r.neighbor.supersede record.id)) := by
  obtain ⟨hs, ha, hn⟩ := h
  have hr : r.neighbor ∈ record :: (r :: rest).map Relation.neighbor :=
    List.mem_cons_of_mem _ List.mem_cons_self
  have hw := hn.holds record List.mem_cons_self
  have hl := hn.holds r.neighbor hr
  have hmay' : maySupersede record r.neighbor = true := Option.isNone_iff_eq_none.2 hmay
  refine ⟨hs.touch (t := .store _) (.supersede hw hl ha (hn.active _ hr) hmay') rfl, ha, ?_⟩
  have hsub : (record :: rest.map Relation.neighbor).Sublist
      (record :: (r :: rest).map Relation.neighbor) := (List.sublist_cons_self _ _).cons_cons _
  have hrest := hn.sublist hsub
  refine ⟨hrest.holds.store ?_, hrest.nodup, hrest.active⟩
  have hnodup := hn.nodup
  rw [List.map_cons, List.map_cons, List.map_cons, List.nodup_cons, List.nodup_cons,
    List.mem_cons, not_or] at hnodup
  intro q hq
  rcases List.mem_cons.1 hq with rfl | hq
  · exact fun he => hnodup.1.1 he.symm
  · exact fun he => hnodup.2.1 (List.mem_map.2 ⟨q, hq, he.symm⟩)

theorem supersedeNeighbor_spec (record : MemoryRecord) (r : Relation) (rest : List Relation) :
    Spec (Superseding p₀ record (r :: rest)) (supersedeNeighbor record r)
      (fun _ => Superseding p₀ record rest) (fun _ _ => False) := by
  intro p hp
  rw [supersedeNeighbor]
  split
  next h =>
    have hl := hp.2.2.holds r.neighbor (List.mem_cons_of_mem _ List.mem_cons_self)
    rw [update_ok (r := r.neighbor.supersede record.id) hl]
    exact hp.store h.2
  next => exact hp.tail

theorem anchored_relations {rs : List Relation} (h : Steady p₀ p)
    (hn : Neighbors (rs.map Relation.neighbor) p)
    (hsees : Sees record.scope (rs.map Relation.neighbor))
    (he : record.edges = rs.map (edgeOf record.id now)) : Anchored p.vault record := by
  intro e hmem
  rw [he] at hmem
  obtain ⟨r, hr, rfl⟩ := List.mem_map.1 hmem
  have hr' : r.neighbor ∈ rs.map Relation.neighbor := List.mem_map_of_mem hr
  obtain ⟨q, hq, ho⟩ := h.reach.origin (hn.holds r.neighbor hr')
  refine ⟨rfl, ⟨q, hq, ?_⟩, rfl⟩
  rw [ho.2.1]
  exact hsees r.neighbor hr'

theorem persist_spec {record : MemoryRecord} {rs : List Relation} (hg : Gated record)
    (hsees : Sees record.scope (rs.map Relation.neighbor))
    (he : record.edges = rs.map (edgeOf record.id now)) :
    Spec (fun p => (Steady p₀ p ∧ Neighbors (rs.map Relation.neighbor) p) ∧
        (∃ rand, record.id = recordId p.vault.lastId rand) ∧ record.id ∉ p.vault.written)
      (persist record rs) (fun _ => Steady p₀) (fun _ _ => False) := by
  have hput : Spec (fun p => (Steady p₀ p ∧ Neighbors (rs.map Relation.neighbor) p) ∧
        (∃ rand, record.id = recordId p.vault.lastId rand) ∧ record.id ∉ p.vault.written)
      (put record) (fun _ => Superseding p₀ record rs) (fun _ _ => False) := by
    apply Spec.modify
    rintro p ⟨⟨hs, hn⟩, ⟨rand, hid⟩, hnew⟩
    have hne : ∀ q ∈ rs.map Relation.neighbor, record.id ≠ q.id := by
      intro q hq he
      exact hnew (he ▸ hs.mem_written (hn.holds q hq))
    have hput := hs.touch (t := .put record)
      (.put hid hnew hg (anchored_relations hs hn hsees he)) rfl
    refine ⟨hput, hg.active, ?_, ?_, ?_⟩
    · exact Holds.cons (Dict.get?_set_self _ _ _) (hn.holds.put hne)
    · rw [List.map_cons, List.nodup_cons]
      refine ⟨fun hm => ?_, hn.nodup⟩
      obtain ⟨q, hq, he⟩ := List.mem_map.1 hm
      exact hne q hq he.symm
    · intro n hm
      rcases List.mem_cons.1 hm with rfl | hm
      · exact hg.active
      · exact hn.active n hm
  apply Spec.bind hput
  intro _
  exact (Spec.forM fun r rest => supersedeNeighbor_spec record r rest).post fun _ _ h => h.1

theorem store_spec {verdict : Verdict} (hsafe : Safe tainted verdict)
    (hsees : Sees ctx.scope (verdict.relations.map Relation.neighbor))
    (htype : verdict.type = some type) :
    Spec (fun p => Steady p₀ p ∧ Neighbors (verdict.relations.map Relation.neighbor) p)
      (store host candidate ctx verdict type tainted sources) (fun _ => Steady p₀)
      (fun _ _ => False) := by
  apply Spec.bind (readClock_spec fun p h => ⟨h.1.tick, h.2.holds, h.2.nodup, h.2.active⟩)
  intro now
  have hid : Spec (fun p => Steady p₀ p ∧ Neighbors (verdict.relations.map Relation.neighbor) p)
      (newRecordId host)
      (fun id p => (Steady p₀ p ∧ Neighbors (verdict.relations.map Relation.neighbor) p) ∧
        (∃ rand, id = recordId p.vault.lastId rand) ∧ id ∉ p.vault.written)
      (fun _ _ => False) := by
    rintro p ⟨hs, hn⟩
    obtain ⟨⟨hs', hh'⟩, hid⟩ := newRecordId_spec host (E := fun _ _ => False) p
      ⟨hs, hn.holds⟩
    exact ⟨⟨hs', hh', hn.nodup, hn.active⟩, hid⟩
  apply Spec.bind hid
  intro rid
  apply Spec.bind (persist_spec (gated_built hsafe htype) hsees (built_edges now rid))
  intro _
  exact Spec.pure fun _ h => h

theorem admit_spec {gate : WriteGate} {env : WriteEnv} (hsees : Sees ctx.scope ns) :
    Spec (fun p => Steady p₀ p ∧ Neighbors ns p)
      ( WriteGate.admit host gate candidate ctx tainted sources env ns) (fun _ => Steady p₀)
      (fun _ _ => False) := by
  rw [ WriteGate.admit]
  split
  · exact Spec.pure fun _ h => h.1
  · simp only
    split
    · apply Spec.bind
      · apply (store_spec (safe_gateOff candidate) (hsees.sublist (List.nil_sublist _)) rfl).pre
        exact fun p h => ⟨h.1, h.2.sublist (List.nil_sublist _)⟩
      · exact fun _ => Spec.pure fun _ h => h
    · rw [WriteGate.enforce]
      split
      next type _ htype =>
        have hsub := (verdict_relations_sublist gate env candidate _ tainted).trans
          (List.take_sublist gate.policy.relationK ns)
        apply Spec.bind
        · apply (store_spec (safe_verdict gate env candidate _ tainted) (hsees.sublist hsub)
            htype).pre
          exact fun p h => ⟨h.1, h.2.sublist hsub⟩
        · exact fun _ => Spec.pure fun _ h => h
      · exact Spec.pure fun _ h => h.1

theorem evaluate_spec (host : Host) (gate : WriteGate) (candidate : MemoryCandidate)
    (ctx : MemoryContext) (tainted : Bool) (sources : List String) (env : WriteEnv) :
    Spec (Steady p₀) (gate.evaluate host candidate ctx tainted sources env)
      (fun _ => Steady p₀) (fun _ _ => False) := by
  rw [WriteGate.evaluate]
  split
  · exact Spec.pure fun _ h => h
  · apply Spec.bind (Spec.get (Q := fun q p => q = p ∧ Steady p₀ p) fun _ h => ⟨rfl, h⟩)
    intro q
    apply (admit_spec (neighbors_seen host gate.policy _ ctx q.vault.records)).pre
    rintro p ⟨rfl, h⟩
    exact ⟨h, neighbors_of_search h gate.policy _ ctx⟩

end

end Prismal.Memory
