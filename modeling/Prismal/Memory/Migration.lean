import Prismal.Lib.Sweep
import Prismal.Memory.Mv2

namespace Prismal.Memory
open Prismal.Lib Prismal.Lib.Sweep
set_option autoImplicit true

/-! The backfill of legacy facts, batch by batch. -/

/-- One record found in a legacy storage location, and whether it carries `mv2_*`. -/
structure LegacyEntry where
  record : MemoryRecord
  annotated : Bool

/-- The backfill hooks of a backend; a scan has a limit and an offset. -/
structure LegacyAnnotatable (σ : Type) where
  scanLegacy : σ → MemoryScope → Nat → Nat → Except BackendError (List LegacyEntry)
  annotate : σ → MemoryRecord → Bool × σ

/-- `annotated` is would-annotate on a dry run. -/
structure MigrationReport where
  scanned : Nat
  annotated : Nat
  skipped : Nat
  dryRun : Bool
  deriving DecidableEq

inductive Backfill (σ : Type) where
  | returned (report : MigrationReport) (store : σ)
  | raised (e : BackendError) (store : σ)
  | running

namespace LegacyAnnotatable

variable (B : LegacyAnnotatable σ)

def countEntry (dryRun : Bool) (acc : MigrationReport × σ) (entry : LegacyEntry) :
    MigrationReport × σ :=
  let report := { acc.1 with scanned := acc.1.scanned + 1 }
  if entry.annotated then ({ report with skipped := report.skipped + 1 }, acc.2)
  else if dryRun then ({ report with annotated := report.annotated + 1 }, acc.2)
  else
    let (done, store) := B.annotate acc.2 entry.record
    if done then ({ report with annotated := report.annotated + 1 }, store)
    else ({ report with skipped := report.skipped + 1 }, store)

def migrateFrom (scope : MemoryScope) (dryRun : Bool) (batchSize : Nat) :
    Nat → Nat → MigrationReport × σ → Backfill σ
  | 0, _, _ => .running
  | fuel + 1, offset, (report, store) =>
    match B.scanLegacy store scope batchSize offset with
    | .error e => .raised e store
    | .ok batch =>
      let (report, store) := batch.foldl (B.countEntry dryRun) (report, store)
      if batch.length < batchSize then .returned report store
      else migrateFrom scope dryRun batchSize fuel (offset + batch.length) (report, store)

def migrateLegacyRecords (store : σ) (scope : MemoryScope) (dryRun : Bool) (batchSize : Int)
    (fuel : Nat) : Backfill σ :=
  if batchSize ≤ 0 then .raised .batchSize store
  else B.migrateFrom scope dryRun batchSize.toNat fuel 0 (⟨0, 0, 0, dryRun⟩, store)

def Returns (store : σ) (scope : MemoryScope) (dryRun : Bool) (batchSize : Int)
    (report : MigrationReport) (store' : σ) : Prop :=
  ∃ enough, ∀ fuel, enough ≤ fuel →
    B.migrateLegacyRecords store scope dryRun batchSize fuel = .returned report store'

end LegacyAnnotatable

/-- `n` entries more, `a` of them annotated. -/
def MigrationReport.add (report : MigrationReport) (n a : Nat) : MigrationReport where
  scanned := report.scanned + n
  annotated := report.annotated + a
  skipped := report.skipped + (n - a)
  dryRun := report.dryRun

theorem MigrationReport.add_add (report : MigrationReport) (h : a ≤ n) (h' : b ≤ m) :
    (report.add n a).add m b = report.add (n + m) (a + b) := by
  simp only [add, mk.injEq, and_true]
  omega

variable {B : LegacyAnnotatable σ} {scope : MemoryScope}

theorem LegacyAnnotatable.Returns.unique (h : B.Returns store scope dryRun batchSize report store')
    (h' : B.Returns store scope dryRun batchSize other store'') :
    report = other ∧ store' = store'' := by
  obtain ⟨n, hn⟩ := h
  obtain ⟨m, hm⟩ := h'
  have heq := (hn (max n m) (le_max_left n m)).symm.trans (hm (max n m) (le_max_right n m))
  cases heq
  exact ⟨rfl, rfl⟩

theorem migrateFrom_mono (h : B.migrateFrom scope dryRun n fuel offset acc = .returned report s)
    (hle : fuel ≤ more) : B.migrateFrom scope dryRun n more offset acc = .returned report s := by
  induction fuel generalizing more offset acc with
  | zero => cases h
  | succ fuel ih =>
    obtain ⟨more, rfl⟩ := Nat.exists_eq_add_of_le' (Nat.zero_lt_of_lt hle)
    rw [LegacyAnnotatable.migrateFrom] at h ⊢
    cases hscan : B.scanLegacy acc.2 scope n offset with
    | error e =>
      simp only [hscan] at h
      cases h
    | ok batch =>
      simp only [hscan] at h ⊢
      split at h
      next hlast => rw [if_pos hlast, h]
      next hmore =>
        rw [if_neg hmore]
        exact ih h (Nat.le_of_succ_le_succ hle)

theorem LegacyAnnotatable.Returns.of_run (hbatch : 0 < batchSize)
    (h : B.migrateFrom scope dryRun batchSize.toNat fuel 0 (⟨0, 0, 0, dryRun⟩, store) =
      .returned report store') : B.Returns store scope dryRun batchSize report store' := by
  refine ⟨fuel, ?_⟩
  intro more hle
  rw [LegacyAnnotatable.migrateLegacyRecords, if_neg (not_le.2 hbatch)]
  exact migrateFrom_mono h hle

theorem migrateFrom_of_invariant {I : Nat → MigrationReport × σ → Prop}
    (acc : MigrationReport × σ) (hn : 0 < n)
    (hI : I offset acc) (hle : offset ≤ total)
    (hstep : ∀ offset acc, I offset acc → ∃ batch, B.scanLegacy acc.2 scope n offset = .ok batch ∧
      batch.length = min n (total - offset) ∧
      I (offset + batch.length) (batch.foldl (B.countEntry dryRun) acc))
    (hfuel : total < fuel + offset) :
    ∃ acc', B.migrateFrom scope dryRun n fuel offset acc = .returned acc'.1 acc'.2 ∧
      I total acc' := by
  induction fuel generalizing offset acc with
  | zero => omega
  | succ fuel ih =>
    obtain ⟨batch, hscan, hlen, hI'⟩ := hstep offset acc hI
    rw [LegacyAnnotatable.migrateFrom]
    simp only [hscan]
    by_cases hlast : batch.length < n
    · have hend : offset + batch.length = total := by omega
      rw [if_pos hlast]
      rw [hend] at hI'
      exact ⟨_, rfl, hI'⟩
    · rw [if_neg hlast]
      exact ih _ hI' (by omega) (by omega)

/-- Keys whose entries a backend scans in order, with a flag for those that are annotated: a scan
shows the flags of the store it reads, and `annotate` raises a flag that is down. `flag₀` are the
flags at the start. -/
structure Sweeps (B : LegacyAnnotatable σ) (scope : MemoryScope) [DecidableEq κ] (keys : List κ)
    (flag₀ : κ → Bool) (record : κ → MemoryRecord) (R : σ → (κ → Bool) → Prop) : Prop where
  le : R s flag → flag₀ k = true → flag k = true
  scan : R s flag → B.scanLegacy s scope limit offset =
    .ok (((keys.drop offset).take limit).map fun k => ⟨record k, flag k⟩)
  annotate : R s flag → k ∈ keys → flag₀ k = false →
    ∃ s', B.annotate s (record k) = (!flag k, s') ∧ R s' (mark flag k)

variable [DecidableEq κ] {keys : List κ} {flag₀ flag seen : κ → Bool} {record : κ → MemoryRecord}
  {R : σ → (κ → Bool) → Prop}

theorem countEntry_fst (report : MigrationReport) (store : σ) (entry : LegacyEntry)
    (h : dryRun = true ∨ entry.annotated = true) :
    B.countEntry dryRun (report, store) entry =
      (report.add 1 (if entry.annotated then 0 else 1), store) := by
  rw [LegacyAnnotatable.countEntry]
  cases hentry : entry.annotated with
  | true => rfl
  | false =>
    cases h with
    | inl hdry => simp [hdry, MigrationReport.add]
    | inr hann => cases hentry.symm.trans hann

theorem foldl_idle (batch : List LegacyEntry) (report : MigrationReport) (store : σ)
    (h : ∀ entry ∈ batch, dryRun = true ∨ entry.annotated = true) :
    batch.foldl (B.countEntry dryRun) (report, store) =
      (report.add batch.length (batch.countP fun entry => !entry.annotated), store) := by
  induction batch generalizing report with
  | nil => rfl
  | cons entry batch ih =>
    have hone : (if entry.annotated then 0 else 1) ≤ 1 := by split <;> omega
    have hrest := ih (report.add 1 (if entry.annotated then 0 else 1)) fun e he =>
      h e (List.mem_cons_of_mem _ he)
    rw [List.foldl_cons, countEntry_fst report store entry (h entry List.mem_cons_self), hrest,
      MigrationReport.add_add _ hone List.countP_le_length, List.length_cons, List.countP_cons,
      Nat.add_comm 1, Nat.add_comm (ite _ _ _)]
    cases entry.annotated <;> rfl

theorem Sweeps.foldl_real (h : Sweeps B scope keys flag₀ record R) (hR : R s flag)
    (hseen : ∀ k, flag₀ k = true → seen k = true) (hup : ∀ k, seen k = true → flag k = true)
    (hks : ∀ k ∈ ks, k ∈ keys) (report : MigrationReport) :
    ∃ s', (ks.map fun k => LegacyEntry.mk (record k) (seen k)).foldl (B.countEntry false)
        (report, s) = (report.add ks.length (risen flag ks), s') ∧ R s' (markAll flag ks) := by
  induction ks generalizing s flag report with
  | nil => exact ⟨s, rfl, hR⟩
  | cons k ks ih =>
    have hstep : ∃ s', B.countEntry false (report, s) ⟨record k, seen k⟩ =
        (report.add 1 (if flag k then 0 else 1), s') ∧ R s' (mark flag k) := by
      cases hk : seen k with
      | true =>
        refine ⟨s, ?_, ?_⟩
        · rw [countEntry_fst report s _ (Or.inr rfl), hup k hk]
        · rw [mark_of_up (hup k hk)]
          exact hR
      | false =>
        have hdown : flag₀ k = false := by
          rw [Bool.eq_false_iff]
          intro h₀
          rw [hseen k h₀] at hk
          cases hk
        obtain ⟨s', hann, hR'⟩ := h.annotate hR (hks k List.mem_cons_self) hdown
        refine ⟨s', ?_, hR'⟩
        rw [LegacyAnnotatable.countEntry]
        simp only [hann]
        cases flag k <;> rfl
    obtain ⟨s', hcount, hR'⟩ := hstep
    have hone : (if flag k then 0 else 1) ≤ 1 := by split <;> omega
    obtain ⟨s'', hrest, hR''⟩ := ih hR' (fun j hj => le_mark (hup j hj))
      (fun j hj => hks j (List.mem_cons_of_mem _ hj)) (report.add 1 (if flag k then 0 else 1))
    refine ⟨s'', ?_, hR''⟩
    rw [List.map_cons, List.foldl_cons, hcount, hrest,
      MigrationReport.add_add _ hone (risen_le_length _ _), Nat.add_comm 1]
    rfl

omit [DecidableEq κ] in
theorem take_scan (keys : List κ) (n offset : Nat) :
    keys.take (offset + ((keys.drop offset).take n).length) =
      keys.take offset ++ (keys.drop offset).take n := by
  rw [List.take_add, List.length_take, ← List.take_eq_take_min]

omit [DecidableEq κ] in
theorem length_scan (keys : List κ) (n offset : Nat) (f : κ → LegacyEntry) :
    (((keys.drop offset).take n).map f).length = min n (keys.length - offset) := by
  rw [List.length_map, List.length_take, List.length_drop]

theorem Sweeps.run_idle (h : Sweeps B scope keys flag₀ record R) (hR : R s flag)
    (hidle : ∀ k ∈ keys, dryRun = true ∨ flag k = true) (hbatch : 0 < batchSize) :
    B.Returns s scope dryRun batchSize (MigrationReport.add ⟨0, 0, 0, dryRun⟩ keys.length
      (keys.countP fun k => !flag k)) s := by
  have hstep : ∀ offset acc, acc = (MigrationReport.add ⟨0, 0, 0, dryRun⟩ (keys.take offset).length
        ((keys.take offset).countP fun k => !flag k), s) →
      ∃ batch, B.scanLegacy acc.2 scope batchSize.toNat offset = .ok batch ∧
        batch.length = min batchSize.toNat (keys.length - offset) ∧
        batch.foldl (B.countEntry dryRun) acc =
          (MigrationReport.add ⟨0, 0, 0, dryRun⟩ (keys.take (offset + batch.length)).length
            ((keys.take (offset + batch.length)).countP fun k => !flag k), s) := by
    intro offset acc hacc
    rw [hacc]
    refine ⟨_, h.scan hR, length_scan keys _ offset _, ?_⟩
    have hmem : ∀ e ∈ ((keys.drop offset).take batchSize.toNat).map
        (fun k => LegacyEntry.mk (record k) (flag k)), dryRun = true ∨ e.annotated = true := by
      intro e he
      obtain ⟨k, hk, rfl⟩ := List.mem_map.1 he
      exact hidle k (List.mem_of_mem_drop (List.mem_of_mem_take hk))
    rw [foldl_idle _ _ _ hmem,
      MigrationReport.add_add _ List.countP_le_length List.countP_le_length, List.countP_map,
      List.length_map, take_scan, List.length_append, List.countP_append]
    rfl
  obtain ⟨acc, hrun, hacc⟩ := migrateFrom_of_invariant _ (Int.lt_toNat.2 hbatch) rfl
    (Nat.zero_le keys.length) hstep (Nat.lt_succ_self _)
  rw [List.take_length] at hacc
  rw [hacc] at hrun
  exact LegacyAnnotatable.Returns.of_run hbatch hrun

theorem Sweeps.run_real (h : Sweeps B scope keys flag₀ record R) (hR : R s flag)
    (hbatch : 0 < batchSize) :
    ∃ s', B.Returns s scope false batchSize
        (MigrationReport.add ⟨0, 0, 0, false⟩ keys.length (risen flag keys)) s' ∧
      R s' (markAll flag keys) := by
  have hstep : ∀ offset (acc : MigrationReport × σ),
      (acc.1 = MigrationReport.add ⟨0, 0, 0, false⟩ (keys.take offset).length
        (risen flag (keys.take offset)) ∧ R acc.2 (markAll flag (keys.take offset))) →
      ∃ batch, B.scanLegacy acc.2 scope batchSize.toNat offset = .ok batch ∧
        batch.length = min batchSize.toNat (keys.length - offset) ∧
        (batch.foldl (B.countEntry false) acc).1 = MigrationReport.add ⟨0, 0, 0, false⟩
          (keys.take (offset + batch.length)).length
          (risen flag (keys.take (offset + batch.length))) ∧
        R (batch.foldl (B.countEntry false) acc).2
          (markAll flag (keys.take (offset + batch.length))) := by
    intro offset acc hacc
    obtain ⟨report, store⟩ := acc
    obtain ⟨hreport, hstore⟩ := hacc
    have hks : ∀ k ∈ (keys.drop offset).take batchSize.toNat, k ∈ keys := fun k hk =>
      List.mem_of_mem_drop (List.mem_of_mem_take hk)
    obtain ⟨s', hfold, hR'⟩ := h.foldl_real hstore (fun k => h.le hstore) (fun k hk => hk) hks
      report
    refine ⟨_, h.scan hstore, length_scan keys _ offset _, ?_⟩
    simp only at hreport
    rw [hfold, List.length_map, take_scan, List.length_append, risen_append, markAll_append,
      hreport, MigrationReport.add_add _ (risen_le_length _ _) (risen_le_length _ _)]
    exact ⟨rfl, hR'⟩
  obtain ⟨acc, hrun, hreport, hstore⟩ := migrateFrom_of_invariant (⟨0, 0, 0, false⟩, s)
    (Int.lt_toNat.2 hbatch) ⟨rfl, hR⟩ (Nat.zero_le keys.length) hstep (Nat.lt_succ_self _)
  rw [List.take_length] at hreport hstore
  rw [hreport] at hrun
  exact ⟨acc.2, LegacyAnnotatable.Returns.of_run hbatch hrun, hstore⟩

end Prismal.Memory

namespace Prismal.Memory
open Prismal.Lib Prismal.Lib.Sweep
set_option autoImplicit true

/-! What a backfill has to do. -/

/-- A backend whose legacy facts can be annotated, as its readers see it: `cell` is what it stores
at a place, `pending` are the places of the un-annotated legacy facts that a scope sees, and
`annotated` is what such a place holds once the fact is annotated. -/
structure LegacyBackend (σ κ ν : Type) extends LegacyAnnotatable σ where
  get : σ → String → MemoryScope → Except BackendError (Option MemoryRecord)
  list : σ → MemoryScope → Option Rat → Int → Except BackendError (List MemoryRecord)
  cell : σ → κ → ν
  pending : σ → MemoryScope → List κ
  annotated : σ → κ → ν

variable {σ κ ν : Type} [DecidableEq κ] {B : LegacyBackend σ κ ν} {scope : MemoryScope}

/-- A real run and a dry run. The readers do not see that every pending fact is annotated, each
once, and nothing else is touched; the dry run has the numbers of the real one, and a second real
run annotates nothing. -/
structure Backfilled (B : LegacyBackend σ κ ν) (store : σ) (scope : MemoryScope) (batchSize : Int)
    (real dry : MigrationReport) (store' : σ) : Prop where
  returned : B.Returns store scope false batchSize real store'
  get : B.get store' = B.get store
  list : B.list store' = B.list store
  cells : ∀ k, B.cell store' k =
    if k ∈ B.pending store scope then B.annotated store k else B.cell store k
  once : real.annotated = (B.pending store scope).length
  rehearsed : B.Returns store scope true batchSize dry store
  scanned : dry.scanned = real.scanned
  annotated : dry.annotated = real.annotated
  skipped : dry.skipped = real.skipped
  again : ∃ again, B.Returns store' scope false batchSize again store' ∧ again.annotated = 0

def Exact (B : LegacyBackend σ κ ν) (store : σ) (scope : MemoryScope) (batchSize : Int) : Prop :=
  ∃ real dry store', Backfilled B store scope batchSize real dry store'

/-- A store and its keys, as a backfill leaves them for the readers. -/
structure Veiled (B : LegacyBackend σ κ ν) (store : σ) (scope : MemoryScope) (keys : List κ)
    (flag₀ : κ → Bool) (record : κ → MemoryRecord) (R : σ → (κ → Bool) → Prop) : Prop extends
    Sweeps B.toLegacyAnnotatable scope keys flag₀ record R where
  start : R store flag₀
  get : R s flag → B.get s = B.get store
  list : R s flag → B.list s = B.list store
  cells : R s flag → ∀ k, B.cell s k =
    if flag k = true ∧ flag₀ k = false then B.annotated store k else B.cell store k
  nodup : (B.pending store scope).Nodup
  pending : ∀ k, k ∈ B.pending store scope ↔ k ∈ keys ∧ flag₀ k = false

variable {store : σ} {keys : List κ} {flag₀ : κ → Bool} {record : κ → MemoryRecord}
  {R : σ → (κ → Bool) → Prop}

theorem Veiled.exact_iff (h : Veiled B store scope keys flag₀ record R) (hbatch : 0 < batchSize) :
    Exact B store scope batchSize ↔ (keys.filter fun k => !flag₀ k).Nodup := by
  obtain ⟨store', hreal, hR⟩ := h.run_real h.start hbatch
  have hrehearsal : ∀ k ∈ keys, true = true ∨ flag₀ k = true := fun _ _ => Or.inl rfl
  have hdry := h.run_idle h.start hrehearsal hbatch
  rw [← risen_eq_countP_iff]
  apply Iff.intro
  · intro hexact
    obtain ⟨real, dry, store'', hfilled⟩ := hexact
    have hannotated := hfilled.annotated
    rw [(hfilled.returned.unique hreal).1, (hfilled.rehearsed.unique hdry).1] at hannotated
    simp only [MigrationReport.add, Nat.zero_add] at hannotated
    exact hannotated.symm
  · intro hcount
    have hup : ∀ k ∈ keys, markAll flag₀ keys k = true := by
      intro k hk
      rw [markAll_eq, decide_eq_true hk, Bool.or_true]
    have hidle : ∀ k ∈ keys, false = true ∨ markAll flag₀ keys k = true := fun k hk =>
      Or.inr (hup k hk)
    have hagain := h.run_idle hR hidle hbatch
    have hnone : (keys.countP fun k => !markAll flag₀ keys k) = 0 := by
      rw [List.countP_eq_zero]
      intro k hk
      simp [hup k hk]
    refine ⟨_, _, store', hreal, h.get hR, h.list hR, ?_, ?_, hdry, rfl, ?_, ?_, _, hagain, ?_⟩
    · intro k
      have hraised : markAll flag₀ keys k = true ∧ flag₀ k = false ↔ k ∈ B.pending store scope := by
        rw [h.pending, markAll_eq]
        cases flag₀ k <;> simp
      rw [h.cells hR]
      exact if_congr hraised rfl rfl
    · simp only [MigrationReport.add, Nat.zero_add]
      exact risen_eq_length h.nodup h.pending
    · simp only [MigrationReport.add, hcount]
    · simp only [MigrationReport.add, hcount]
    · simp only [MigrationReport.add, hnone]

end Prismal.Memory
