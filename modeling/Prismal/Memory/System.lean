import Prismal.Memory.ConsolidationRuns
import Prismal.Memory.Writes

namespace Prismal.Memory
open Prismal.Lib Prismal.Lib.Run
set_option autoImplicit true

/-- A call to the memory, with the answers that it gets from outside. -/
inductive Action where
  | write (gate : WriteGate) (candidate : MemoryCandidate) (ctx : MemoryContext) (tainted : Bool)
      (taintSources : List String) (env : WriteEnv)
  | consolidate (c : Consolidator) (scope : MemoryScope) (env : ConsolidationEnv)
  | request (selector : ForgetSelector) (requestedBy uuid : String)
  | approve (id principal : String) (approver : Approver)
  | reject (id : String)
  | retentionRules (settings : RetentionSettings) (scope : Option MemoryScope)
  | execute (selector : ForgetSelector) (actor : Option ForgetActor) (env : ForgetEnv)

def Action.run (host : Host) : Action → MemoryM Unit
  | write gate candidate ctx tainted sources env => do
    let _ ← gate.evaluate host candidate ctx tainted sources env
  | consolidate c scope env => do
    let _ ← c.run host scope env
  | request selector requestedBy uuid => do
    let _ ← Memory.request host selector requestedBy uuid
  | approve id principal approver => do
    let _ ← Memory.approve id principal approver
  | reject id => do
    let _ ← Memory.reject id
  | retentionRules settings scope => do
    let _ ← Memory.retentionRules host settings scope
  | execute selector actor env => do
    let _ ← Memory.execute selector actor env

def after : EStateM.Result Fault Process α → Process
  | .ok _ p => p
  | .error _ p => p

def step (host : Host) (p : Process) (a : Action) : Process := after (a.run host p)

theorem after_of_ends {P : Process → Prop} {res : EStateM.Result Fault Process α}
    (h : Ends (fun _ => P) (fun _ => P) res) : P (after res) := by
  cases res with
  | ok a p => exact h
  | error e p => exact h

theorem Outcome.trans (h : Outcome p q) (h' : Outcome q r) : Outcome p r where
  toSound := h'.toSound
  moves := h.moves.trans h'.moves

theorem Outcome.edged (h : Outcome {} p) : Edged p.vault := h.moves.edged edged_empty

theorem run_discard {m : MemoryM α} (hm : Spec (Kept p) m (fun _ => Kept p) fun _ => Kept p) :
    Spec (Kept p) (do let _ ← m) (fun _ => Kept p) (fun _ => Kept p) :=
  Spec.bind hm fun _ => Spec.pure fun _ h => h

theorem consolidate_spec (host : Host) (c : Consolidator) (scope : MemoryScope)
    (env : ConsolidationEnv) (h : Outcome {} p) :
    Ends (fun _ => Ran c scope p) (fun _ _ => False)
      ((Action.consolidate c scope env).run host p) := by
  have hrun : Spec (fun q => p = q) (c.run host scope env) (fun _ => Ran c scope p)
      (fun _ _ => False) := by
    rintro q rfl
    exact run_spec host c scope env h.toSound h.edged
  have hdiscard : Spec (fun q => p = q) ((Action.consolidate c scope env).run host)
      (fun _ => Ran c scope p) (fun _ _ => False) :=
    Spec.bind hrun fun _ => Spec.pure fun _ h => h
  exact hdiscard p rfl

theorem action_spec (host : Host) (a : Action) (h : Outcome {} p) :
    Ends (fun _ => Outcome p) (fun _ => Outcome p) (a.run host p) := by
  have hkept : ∀ {m : MemoryM Unit}, Spec (Kept p) m (fun _ => Kept p) (fun _ => Kept p) →
      Ends (fun _ => Outcome p) (fun _ => Outcome p) (m p) := by
    intro m hm
    exact hm.conseq (fun _ h => h) (fun _ _ h => h.toOutcome) (fun _ _ h => h.toOutcome) p
      (Kept.refl h.toSound)
  cases a with
  | write gate candidate ctx tainted sources env =>
    apply hkept (run_discard _)
    apply (kept_of_steady fun p₀ => @evaluate_spec p₀ host gate candidate ctx tainted
      sources env).conseq (fun _ h => h) (fun _ _ h => h)
    exact fun _ _ h => h.elim
  | consolidate c scope env =>
    exact (consolidate_spec host c scope env h).mono (fun _ _ h => h.toOutcome)
      fun _ _ h => h.elim
  | request selector requestedBy uuid =>
    exact hkept (run_discard (request_spec host selector requestedBy uuid))
  | approve id principal approver => exact hkept (run_discard (approve_spec id principal approver))
  | reject id => exact hkept (run_discard (reject_spec id))
  | retentionRules settings scope =>
    exact hkept (run_discard (retentionRules_spec host settings scope))
  | execute selector actor env => exact hkept (run_discard (execute_spec selector actor env))

theorem outcome_step (host : Host) (h : Outcome {} p) (a : Action) : Outcome p (step host p a) :=
  after_of_ends (action_spec host a h)

theorem ran_step (host : Host) (c : Consolidator) (scope : MemoryScope) (env : ConsolidationEnv)
    (h : Outcome {} p) : Ran c scope p (step host p (.consolidate c scope env)) :=
  after_of_ends ((consolidate_spec host c scope env h).mono (fun _ _ h => h) fun _ _ h => h.elim)

theorem outcome_final (host : Host) (acts : List Action) :
    Outcome {} (final (step host) {} acts) :=
  final_of_invariant ⟨Sound.start, .refl _⟩ (fun _ a h => h.trans (outcome_step host h a)) acts

theorem sound_final (host : Host) (acts : List Action) : Sound (final (step host) {} acts) :=
  (outcome_final host acts).toSound

/-! Every deletion answers to a retention rule or to an approved request. -/

theorem Reach.accounted (h : Reach v) {id : String} (hid : id ∈ v.written) :
    id ∈ v.records ∨ id ∈ v.purged := by
  induction h with
  | empty => exact absurd hid Dict.not_mem_empty
  | drawn _ _ _ ih => exact ih hid
  | gated _ r _ _ _ ih =>
    rcases (Dict.mem_set _).1 hid with rfl | hid
    · exact Or.inl ((Dict.mem_set _).2 (Or.inl rfl))
    · exact (ih hid).imp_left fun h => (Dict.mem_set _).2 (Or.inr h)
  | summary _ r _ _ _ ih =>
    rcases (Dict.mem_set _).1 hid with rfl | hid
    · exact Or.inl ((Dict.mem_set _).2 (Or.inl rfl))
    · exact (ih hid).imp_left fun h => (Dict.mem_set _).2 (Or.inr h)
  | superseded _ _ _ _ _ _ _ _ ih =>
    exact (ih hid).imp_left fun h => (Dict.mem_set _).2 (Or.inr h)
  | edges _ _ _ _ ih => exact (ih hid).imp_left fun h => (Dict.mem_set _).2 (Or.inr h)
  | purged _ ids scope ih =>
    rcases ih hid with h | h
    · obtain ⟨r, hr⟩ := Dict.mem_iff_get?.1 h
      by_cases hm : id ∈ ids
      · exact Or.inr (List.mem_append_left _ hm)
      · exact Or.inl (Dict.mem_of_get? ((Records.get?_purge _ ids scope).2 ⟨hr, Or.inl hm⟩))
    · exact Or.inr (List.mem_append_right _ h)

structure Answerable (p : Process) : Prop where
  justified : Justified p.vault p.forget.history
  accounted : ∀ id ∈ p.vault.written, id ∉ p.vault.records → id ∈ purgedIds p.forget.history

/-- Over any sequence of calls by any actors, `purge` is invoked only under an outstanding
retention selector or an approval of the executor, only for ids inside its scope, and nothing
else removes a record. -/
theorem purges_answerable (host : Host) (acts : List Action) :
    Answerable (final (step host) {} acts) := by
  have h := sound_final host acts
  refine ⟨h.justified, fun id hid hgone => ?_⟩
  rw [← h.purged]
  exact (h.reach.accounted hid).resolve_left hgone

/-! Taint, citation and supersession across writes and consolidation. -/

/-- What every record that was ever put satisfies. -/
structure Admissible (q : MemoryRecord) : Prop where
  tainted_episodic : q.provenance.tainted = true → q.type = .episodic
  untrusted_iff : q.provenance.trust = .untrusted ↔ q.provenance.tainted = true

theorem Gated.admissible (h : Gated r) : Admissible r := ⟨h.tainted_episodic, h.untrusted_iff⟩

theorem Summarizes.admissible (h : Summarizes v r) : Admissible r where
  tainted_episodic ht := by
    rw [h.untainted] at ht
    cases ht
  untrusted_iff := by
    refine ⟨fun ht => absurd ht h.trust, fun ht => ?_⟩
    rw [h.untainted] at ht
    cases ht

theorem Admissible.isTainted (h : Admissible q) : isTainted q = q.provenance.tainted := by
  cases ht : q.provenance.tainted with
  | true => rw [Memory.isTainted, ht, Bool.true_or]
  | false =>
    rw [isTainted_eq_false]
    refine ⟨ht, fun hu => ?_⟩
    rw [h.untrusted_iff.1 hu] at ht
    cases ht

namespace Reach

variable {v : Vault} {id : String}

theorem admissible (h : Reach v) (hq : v.written.get? id = some q) : Admissible q := by
  induction h generalizing id q with
  | empty => cases hq
  | drawn _ _ _ ih => exact ih hq
  | gated _ r _ _ hg ih =>
    change (Records.put _ r).get? id = some q at hq
    rw [Records.get?_put] at hq
    split at hq
    · cases hq
      exact hg.admissible
    · exact ih hq
  | summary _ r _ _ hg ih =>
    change (Records.put _ r).get? id = some q at hq
    rw [Records.get?_put] at hq
    split at hq
    · cases hq
      exact hg.admissible
    · exact ih hq
  | superseded _ _ _ _ _ _ _ _ ih => exact ih hq
  | edges _ _ _ _ ih => exact ih hq
  | purged _ _ _ ih => exact ih hq

theorem cites (h : Reach v) (hid : id ∈ v.summaries) :
    ∃ s, v.written.get? id = some s ∧ ∀ c ∈ s.provenance.sourceMessageIds,
      ∃ q, v.written.get? c = some q ∧ isTainted q = false := by
  induction h generalizing id with
  | empty => cases hid
  | drawn _ _ _ ih => exact ih hid
  | gated _ r _ hnew _ ih =>
    obtain ⟨s, hs, hc⟩ := ih hid
    refine ⟨s, written_put hnew hs, fun c hm => ?_⟩
    obtain ⟨q, hq, ht⟩ := hc c hm
    exact ⟨q, written_put hnew hq, ht⟩
  | summary h r _ hnew hg ih =>
    rcases List.mem_cons.1 hid with rfl | hid
    · refine ⟨r, Dict.get?_set_self _ _ _, fun c hm => ?_⟩
      obtain ⟨q, hq, ht⟩ := hg.cites c hm
      obtain ⟨q', hq', hs⟩ := h.origin hq
      refine ⟨q', written_put hnew hq', ?_⟩
      rw [(h.admissible hq').isTainted, hs.2.2.1]
      exact ht
    · obtain ⟨s, hs, hc⟩ := ih hid
      refine ⟨s, written_put hnew hs, fun c hm => ?_⟩
      obtain ⟨q, hq, ht⟩ := hc c hm
      exact ⟨q, written_put hnew hq, ht⟩
  | superseded _ _ _ _ _ _ _ _ ih => exact ih hid
  | edges _ _ _ _ ih => exact ih hid
  | purged _ _ _ ih => exact ih hid

end Reach

/-- The joint guarantee of the write gate and consolidation. Records may be purged later, so
citations and links are read against everything that was ever written; ids are written once. -/
structure Lineage (v : Vault) : Prop where
  tainted_episodic : ∀ id r, v.records.get? id = some r → r.provenance.tainted = true →
    r.type = .episodic
  summaries_cite_untainted : ∀ id ∈ v.summaries, ∃ s, v.written.get? id = some s ∧
    ∀ c ∈ s.provenance.sourceMessageIds, ∃ q, v.written.get? c = some q ∧ isTainted q = false
  links : ∀ id r w, v.records.get? id = some r → r.supersededBy = some w →
    ∃ q, v.written.get? w = some q ∧ q.scope = r.scope ∧
      provenanceRank r ≤ provenanceRank q ∧ (isTainted q = true → r.provenance.tainted = true)
  origin : ∀ id r, v.records.get? id = some r → ∃ q, v.written.get? id = some q ∧ SameOrigin q r

theorem Reach.lineage (h : Reach v) : Lineage v where
  tainted_episodic id r hr ht := by
    obtain ⟨q, hq, -, -, hp, hty⟩ := h.origin hr
    rw [← hty]
    apply (h.admissible hq).tainted_episodic
    rw [hp]
    exact ht
  summaries_cite_untainted id hid := h.cites hid
  links id r w hr hw := by
    obtain ⟨q, hq, hs⟩ := h.linked hr hw
    refine ⟨q, hq, hs.scope, hs.rank, fun ht => ?_⟩
    obtain ⟨q', hq', ho⟩ := h.origin hr
    have hrt := hs.taint ht
    rw [← ho.isTainted, (h.admissible hq').isTainted, ho.2.2.1] at hrt
    exact hrt
  origin id r hr := h.origin hr

/-- Over any sequence of writes, consolidation runs and deletions. -/
theorem memory_lineage (host : Host) (acts : List Action) :
    Lineage (final (step host) {} acts).vault :=
  (sound_final host acts).reach.lineage

end Prismal.Memory
