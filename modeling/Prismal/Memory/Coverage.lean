import Prismal.Memory.System

namespace Prismal.Memory
open Prismal.Lib Prismal.Lib.Run
set_option autoImplicit true

/-! Which records repeated consolidation runs look at. -/

def waiting (p : Process) (scope : MemoryScope) : List MemoryRecord :=
  (p.vault.records.values.insertionSort Records.Earlier).filter
    (Records.listed scope (p.watermarks.get? scope))

def Untied (c : Consolidator) (scope : MemoryScope) (p : Process) : Prop :=
  ∀ a ∈ windowOf c p scope, ∀ b ∈ waiting p scope,
    b.provenance.createdAt = a.provenance.createdAt → b ∈ windowOf c p scope

instance : Decidable (Untied c scope p) :=
  inferInstanceAs (Decidable (∀ a ∈ _, ∀ b ∈ _, _ → _))

def again (host : Host) (c : Consolidator) (scope : MemoryScope) (p : Process)
    (env : ConsolidationEnv) : Process := step host p (.consolidate c scope env)

def windows (host : Host) (c : Consolidator) (scope : MemoryScope) :
    Process → List ConsolidationEnv → List (List MemoryRecord)
  | _, [] => []
  | p, env :: envs => windowOf c p scope :: windows host c scope (again host c scope p env) envs

def Process.withWatermarks (p : Process) (marks : Dict MemoryScope Rat) : Process :=
  { p with watermarks := marks }

variable {p q : Process} {host : Host} {c : Consolidator} {scope : MemoryScope}

theorem sorted_waiting (p : Process) (scope : MemoryScope) :
    (waiting p scope).Pairwise Records.Earlier := (sorted_values _).filter _

theorem mem_waiting (hk : p.vault.records.Keyed) :
    r ∈ waiting p scope ↔ p.vault.records.get? r.id = some r ∧ scope.covers r.scope = true ∧
      ∀ t, p.watermarks.get? scope = some t → t < r.provenance.createdAt := by
  rw [waiting, List.mem_filter, List.mem_insertionSort, Records.listed, Bool.and_eq_true]
  constructor
  · rintro ⟨hr, hcov, hsince⟩
    refine ⟨hk.stored hr, hcov, fun t ht => ?_⟩
    rw [ht, Option.all_some, decide_eq_true_eq] at hsince
    exact hsince
  · rintro ⟨hr, hcov, hsince⟩
    refine ⟨Dict.mem_values.2 ⟨_, hr⟩, hcov, ?_⟩
    cases ht : p.watermarks.get? scope with
    | none => rfl
    | some t => exact decide_eq_true (hsince t ht)

theorem windowOf_eq_take (c : Consolidator) (p : Process) (scope : MemoryScope) :
    windowOf c p scope = (waiting p scope).take c.maxItems := by
  apply List.filter_eq_self.2
  intro r hr
  have hlisted := (List.mem_filter.1 (List.mem_of_mem_take hr)).2
  rw [Records.listed, Bool.and_eq_true] at hlisted
  exact decide_eq_true (covers_orgId hlisted.1)

theorem newest_mem {window : List MemoryRecord} (h : newest window = some t) :
    ∃ a ∈ window, a.provenance.createdAt = t := by
  have hfold : ∀ (rest : List MemoryRecord) (m : Rat),
      rest.foldl (fun m q => max m q.provenance.createdAt) m = m ∨
        ∃ a ∈ rest, a.provenance.createdAt =
          rest.foldl (fun m q => max m q.provenance.createdAt) m := by
    intro rest
    induction rest with
    | nil => exact fun m => Or.inl rfl
    | cons q rest ih =>
      intro m
      rw [List.foldl_cons]
      rcases ih (max m q.provenance.createdAt) with he | ⟨a, ha, he⟩
      · rw [he]
        rcases max_choice m q.provenance.createdAt with hm | hm
        · exact Or.inl hm
        · exact Or.inr ⟨q, List.mem_cons_self, hm.symm⟩
      · exact Or.inr ⟨a, List.mem_cons_of_mem _ ha, he⟩
  cases window with
  | nil => cases h
  | cons r rest =>
    obtain rfl := Option.some.inj h
    rcases hfold rest r.provenance.createdAt with he | ⟨a, ha, he⟩
    · exact ⟨r, List.mem_cons_self, he.symm⟩
    · exact ⟨a, List.mem_cons_of_mem _ ha, he⟩

def Awaits (scope : MemoryScope) (r : MemoryRecord) (p : Process) : Prop :=
  ∃ r', SameOrigin r r' ∧ r' ∈ waiting p scope

theorem Awaits.after (h : Awaits scope r p) (hp : Outcome {} p) (hq : Ran c scope p q)
    (hu : Untied c scope p) :
    r.id ∈ (windowOf c p scope).map MemoryRecord.id ∨ Awaits scope r q ∨
      c.retention.isSome = true ∧ q.vault.records.get? r.id = none := by
  obtain ⟨r', ho, hw⟩ := h
  obtain ⟨hr', hcov, hsince⟩ := (mem_waiting hp.reach.keyed).1 hw
  by_cases hin : r' ∈ windowOf c p scope
  · refine Or.inl (List.mem_map.2 ⟨r', hin, ho.1.symm⟩)
  refine Or.inr ?_
  rw [← ho.1] at hr'
  cases hst : q.vault.records.get? r.id with
  | none =>
    refine Or.inr ⟨?_, rfl⟩
    cases hret : c.retention with
    | some settings => rfl
    | none =>
      have hkept := hq.moves.kept (hq.spared hret) (Dict.mem_of_get? hr')
      obtain ⟨s, hs⟩ := Dict.mem_iff_get?.1 hkept
      rw [hst] at hs
      cases hs
  | some r'' =>
    obtain ⟨o, hwritten, -⟩ := hp.reach.origin hr'
    obtain ⟨s, hs, haged⟩ := hq.moves.later.stored _ r'' (Dict.mem_of_get? hwritten) hst
    obtain rfl := Option.some.inj (hr'.symm.trans hs)
    have ho' := ho.trans haged.origin
    refine Or.inl ⟨r'', ho', (mem_waiting hq.reach.keyed).2 ⟨ho'.1 ▸ hst, ?_, fun t ht => ?_⟩⟩
    · rw [← haged.origin.2.1]
      exact hcov
    · rw [← haged.origin.2.2.1]
      rw [hq.watermarks, markedBy] at ht
      cases hnew : newest (windowOf c p scope) with
      | none =>
        rw [hnew] at ht
        exact hsince t ht
      | some t' =>
        rw [hnew] at ht
        obtain rfl := Option.some.inj ((Dict.get?_set_self _ _ _).symm.trans ht)
        obtain ⟨a, ha, rfl⟩ := newest_mem hnew
        have hlater : Records.Earlier a r' := by
          rw [windowOf_eq_take] at ha hin
          exact rel_of_take (sorted_waiting p scope) ha hw hin
        rcases hlater with hlt | ⟨heq, -⟩
        · exact hlt
        · exact absurd (hu a ha r' hw heq.symm) hin

theorem Awaits.moves (h : Awaits scope r p) (hp : Outcome {} p) (hq : Ran c scope p q)
    (hc : 1 ≤ c.maxItems) : q.watermarks.get? scope ≠ p.watermarks.get? scope := by
  obtain ⟨r', -, hw⟩ := h
  cases hlist : waiting p scope with
  | nil =>
    rw [hlist] at hw
    cases hw
  | cons a rest =>
    have ha : a ∈ windowOf c p scope := by
      rw [windowOf_eq_take, hlist]
      obtain ⟨n, hn⟩ := Nat.exists_eq_add_of_le' hc
      rw [hn]
      exact List.mem_cons_self
    intro hstop
    rw [hq.watermarks, markedBy] at hstop
    cases hnew : newest (windowOf c p scope) with
    | none =>
      cases hwin : windowOf c p scope with
      | nil =>
        rw [hwin] at ha
        cases ha
      | cons b others =>
        rw [hwin] at hnew
        cases hnew
    | some t =>
      rw [hnew] at hstop
      have hmark := hstop.symm.trans (Dict.get?_set_self _ _ _)
      obtain ⟨b, hb, rfl⟩ := newest_mem hnew
      rw [windowOf_eq_take] at hb
      have hb' := (mem_waiting hp.reach.keyed).1 (List.mem_of_mem_take hb)
      exact lt_irrefl _ (hb'.2.2 _ hmark)

theorem outcome_again (host : Host) (c : Consolidator) (scope : MemoryScope) (hp : Outcome {} p)
    (envs : List ConsolidationEnv) : Outcome p (final (again host c scope) p envs) := by
  induction envs generalizing p with
  | nil => exact ⟨hp.toSound, .refl _⟩
  | cons env envs ih =>
    have hran := (ran_step host c scope env hp).toOutcome
    exact hran.trans (ih (hp.trans hran))

theorem Outcome.gone (h : Outcome p q) {id : String} (hid : id ∈ p.vault.written)
    (hnone : p.vault.records.get? id = none) : q.vault.records.get? id = none := by
  cases hq : q.vault.records.get? id with
  | none => rfl
  | some r' =>
    obtain ⟨r, hr, -⟩ := h.moves.later.stored id r' hid hq
    rw [hnone] at hr
    cases hr

theorem Awaits.written (h : Awaits scope r p) (hp : Reach p.vault) : r.id ∈ p.vault.written := by
  obtain ⟨r', ho, hw⟩ := h
  obtain ⟨o, hwritten, -⟩ := hp.origin ((mem_waiting hp.keyed).1 hw).1
  rw [ho.1]
  exact Dict.mem_of_get? hwritten

theorem covered_of_awaits (hp : Outcome {} p) (hc : 1 ≤ c.maxItems)
    (hu : Along (again host c scope) (fun p _ _ => Untied c scope p) p envs)
    (hstop : (again host c scope (final (again host c scope) p envs) last).watermarks.get? scope =
      (final (again host c scope) p envs).watermarks.get? scope) (h : Awaits scope r p) :
    (∃ w ∈ windows host c scope p envs, r.id ∈ w.map MemoryRecord.id) ∨
      c.retention.isSome = true ∧
        (final (again host c scope) p envs).vault.records.get? r.id = none := by
  induction envs generalizing p with
  | nil => exact absurd hstop (h.moves hp (ran_step host c scope last hp) hc)
  | cons env envs ih =>
    have hran := ran_step host c scope env hp
    have hp' := hp.trans hran.toOutcome
    rcases h.after hp hran hu.1 with hin | hwaits | ⟨hret, hgone⟩
    · exact Or.inl ⟨_, List.mem_cons_self, hin⟩
    · rcases ih hp' hu.2 hstop hwaits with ⟨w, hw, hin⟩ | herased
      · exact Or.inl ⟨w, List.mem_cons_of_mem _ hw, hin⟩
      · exact Or.inr herased
    · have hid := hran.moves.later.mem_written (h.written hp.reach)
      exact Or.inr ⟨hret, (outcome_again host c scope hp' envs).gone hid hgone⟩

/-- From any reachable store and any watermark: when no run's limit cuts between waiting records
of one time, then once the watermark stops every record of the scope that was created after the
first watermark was in a window, unless a retention rule erased it. -/
theorem windows_cover (host : Host) (acts : List Action) (marks : Dict MemoryScope Rat)
    (c : Consolidator) (scope : MemoryScope) (envs : List ConsolidationEnv)
    (last : ConsolidationEnv) (hc : 1 ≤ c.maxItems)
    (hu : Along (again host c scope) (fun p _ _ => Untied c scope p)
      ((final (step host) {} acts).withWatermarks marks) envs)
    (hstop : (again host c scope (final (again host c scope)
        ((final (step host) {} acts).withWatermarks marks) envs) last).watermarks.get? scope =
      (final (again host c scope)
        ((final (step host) {} acts).withWatermarks marks) envs).watermarks.get? scope) :
    ∀ r, (final (step host) {} acts).vault.records.get? r.id = some r →
      scope.covers r.scope = true →
      (∀ t, marks.get? scope = some t → t < r.provenance.createdAt) →
      (∃ w ∈ windows host c scope ((final (step host) {} acts).withWatermarks marks) envs,
        r.id ∈ w.map MemoryRecord.id) ∨
      c.retention.isSome = true ∧ (final (again host c scope)
        ((final (step host) {} acts).withWatermarks marks) envs).vault.records.get? r.id = none := by
  intro r hr hcov hafter
  have hreached := outcome_final host acts
  have hp : Outcome {} ((final (step host) {} acts).withWatermarks marks) :=
    ⟨⟨hreached.reach, hreached.issued, hreached.requests, hreached.justified, hreached.purged⟩,
      hreached.moves⟩
  apply covered_of_awaits hp hc hu hstop
  exact ⟨r, .refl r, (mem_waiting hp.reach.keyed).2 ⟨hr, hcov, hafter⟩⟩

def noteWrites : List Action :=
  [.write openGate ⟨"tea", ["m1"], .conversation, none⟩ acmeContext false [] {},
    .write openGate ⟨"milk", ["m2"], .conversation, none⟩ acmeContext false [] {}]

def oneByOne : Consolidator where
  maxItems := 1

/-- The notes come at different times. -/
theorem windows_cover_notes :
    ∃ r, (final (step plainHost) {} noteWrites).vault.records.get? r.id = some r ∧
      acme.covers r.scope = true ∧
      ∃ w ∈ windows plainHost oneByOne acme
        ((final (step plainHost) {} noteWrites).withWatermarks ∅) [{}, {}],
        r.id ∈ w.map MemoryRecord.id := by
  have hsome : ((final (step plainHost) {} noteWrites).vault.records.values.any fun r =>
      decide ((final (step plainHost) {} noteWrites).vault.records.get? r.id = some r) &&
        acme.covers r.scope) = true := by decide +kernel
  obtain ⟨r, -, hr⟩ := List.any_eq_true.1 hsome
  rw [Bool.and_eq_true, decide_eq_true_eq] at hr
  have hcover := windows_cover plainHost noteWrites ∅ oneByOne acme [{}, {}] {} (Nat.le_refl 1)
    (by decide +kernel) (by decide +kernel) r hr.1 hr.2 (fun t ht => by cases ht)
  rcases hcover with hin | ⟨hret, -⟩
  · exact ⟨r, hr.1, hr.2, hin⟩
  · cases hret

def stoppedHost : Host := { plainHost with clock := fun _ => 0 }

def tiedNotes : Process := final (step stoppedHost) {} noteWrites

/-- The second of two notes of one time is in no window, and the watermark does not move again. -/
theorem tied_note_skipped :
    (again stoppedHost oneByOne acme (again stoppedHost oneByOne acme tiedNotes {}) {}).watermarks.get?
        acme = (again stoppedHost oneByOne acme tiedNotes {}).watermarks.get? acme ∧
      tiedNotes.watermarks.get? acme = none ∧
      ∃ r, tiedNotes.vault.records.get? r.id = some r ∧ acme.covers r.scope = true ∧
        ∀ w ∈ windows stoppedHost oneByOne acme tiedNotes [{}], r.id ∉ w.map MemoryRecord.id := by
  have hskip : (tiedNotes.vault.records.values.any fun r =>
      decide (tiedNotes.vault.records.get? r.id = some r) && acme.covers r.scope &&
        (windows stoppedHost oneByOne acme tiedNotes [{}]).all fun w =>
          decide (r.id ∉ w.map MemoryRecord.id)) = true := by decide +kernel
  refine ⟨by decide +kernel, by decide +kernel, ?_⟩
  obtain ⟨r, -, hr⟩ := List.any_eq_true.1 hskip
  simp only [Bool.and_eq_true, decide_eq_true_eq, List.all_eq_true] at hr
  exact ⟨r, hr.1.1, hr.1.2, hr.2⟩

end Prismal.Memory
