import Prismal.Budget.Guard
import Prismal.Lib.Dict
import Prismal.Lib.Run

namespace Prismal.Budget
open Prismal.Lib
set_option autoImplicit true

abbrev QuotaKey := String × String

def quotaUsage (usage : Usage) : Usage where
  promptTokens := usage.promptTokens
  completionTokens := usage.completionTokens
  calls := usage.calls
  costUsd := usage.costUsd
  wallClockS := usage.wallClockS

@[simp] theorem column_quotaUsage (u : Usage) (c : Column) :
    (quotaUsage u).column c = u.column c := by
  cases c <;> rfl

structure TenantQuotaStore where
  totals : Dict QuotaKey Usage := ∅

namespace TenantQuotaStore

def get (store : TenantQuotaStore) (key : QuotaKey) : Usage := (store.totals.get? key).getD {}

def added (store : TenantQuotaStore) (key : QuotaKey) (usage : Usage) : Usage :=
  quotaUsage (store.get key + quotaUsage usage)

def add (store : TenantQuotaStore) (key : QuotaKey) (usage : Usage) : TenantQuotaStore where
  totals := store.totals.set key (store.added key usage)

theorem get_add (store : TenantQuotaStore) (key key' : QuotaKey) (usage : Usage) :
    (store.add key usage).get key' = if key = key' then store.added key usage else store.get key' := by
  rw [get, add, Dict.get?_set]
  split <;> rfl

theorem column_added (store : TenantQuotaStore) (key : QuotaKey) (usage : Usage) (c : Column) :
    (store.added key usage).column c = (store.get key).column c + usage.column c := by
  rw [added, column_quotaUsage, Usage.column_add, column_quotaUsage]

end TenantQuotaStore

/-- A meter whose usage is the window total of its tenant. -/
structure TenantCostMeter where
  key : QuotaKey
  usage : Usage

/-- `replace(local, **{name: getattr(total, name) for name in _COLUMNS})` -/
def adopt (own total : Usage) : Usage :=
  { own with
    promptTokens := total.promptTokens
    completionTokens := total.completionTokens
    calls := total.calls
    costUsd := total.costUsd
    wallClockS := total.wallClockS }

@[simp] theorem column_adopt (own total : Usage) (c : Column) :
    (adopt own total).column c = total.column c := by
  cases c <;> rfl

namespace TenantCostMeter

def create (store : TenantQuotaStore) (key : QuotaKey) (getFails : Bool) : TenantCostMeter where
  key := key
  usage := if getFails then {} else store.get key

/-- Record one call: add its delta to the store and adopt the total, or keep the local sum when
the store fails. -/
def record (m : TenantCostMeter) (store : TenantQuotaStore) (usage : Usage) (addFails : Bool) :
    TenantCostMeter × TenantQuotaStore :=
  let own := m.usage + usage
  if addFails then ({ m with usage := own }, store)
  else ({ m with usage := adopt own (store.added m.key usage) }, store.add m.key usage)

end TenantCostMeter

/-- One finished call of `record`. -/
structure Recorded where
  meter : Nat
  key : QuotaKey
  delta : Spend
  saved : Bool

structure Fleet where
  store : TenantQuotaStore := {}
  meters : List TenantCostMeter := []
  log : List Recorded := []

/-- A meter shares nothing but the store, which it enters once in a call: interleavings of calls
are sequences of whole calls. -/
inductive MeterAction where
  | create (key : QuotaKey) (getFails : Bool)
  | record (meter : Nat) (delta : Spend) (addFails : Bool)

namespace Fleet

def step (s : Fleet) : MeterAction → Fleet
  | .create key getFails => { s with meters := s.meters ++ [.create s.store key getFails] }
  | .record i delta addFails =>
    match s.meters[i]? with
    | none => s
    | some m =>
      let (m', store) := m.record s.store delta.usage addFails
      { s with
        store := store
        meters := s.meters.set i m'
        log := s.log ++ [⟨i, m.key, delta, !addFails⟩] }

def run (acts : List MeterAction) : Fleet := Run.final step {} acts

end Fleet

def total (p : Recorded → Bool) (c : Column) (log : List Recorded) : Rat :=
  ((log.filter p).map fun e => e.delta.usage.column c).sum

def unsaved (i : Nat) (c : Column) (log : List Recorded) : Rat :=
  log.foldl (fun sum e =>
    if e.meter = i then if e.saved then 0 else sum + e.delta.usage.column c else sum) 0

def ownSaved (i : Nat) (e : Recorded) : Bool := decide (e.meter = i) && e.saved

def savedUnder (key : QuotaKey) (e : Recorded) : Bool := decide (e.key = key) && e.saved

theorem total_append (p : Recorded → Bool) (c : Column) (log : List Recorded) (e : Recorded) :
    total p c (log ++ [e]) = total p c log + if p e then e.delta.usage.column c else 0 := by
  rw [total, total, List.filter_append, List.map_append, List.sum_append]
  by_cases hp : p e
  · rw [List.filter_cons_of_pos hp, if_pos hp]
    simp
  · rw [List.filter_cons_of_neg hp, if_neg hp]
    simp

theorem total_nonneg (p : Recorded → Bool) (c : Column) (log : List Recorded) :
    0 ≤ total p c log := by
  apply List.sum_nonneg
  intro x hx
  obtain ⟨e, -, rfl⟩ := List.mem_map.1 hx
  exact e.delta.nonneg c

theorem unsaved_append (i : Nat) (c : Column) (log : List Recorded) (e : Recorded) :
    unsaved i c (log ++ [e]) =
      if e.meter = i then if e.saved then 0 else unsaved i c log + e.delta.usage.column c
      else unsaved i c log := by
  rw [unsaved, List.foldl_append]
  rfl

theorem unsaved_nonneg (i : Nat) (c : Column) (log : List Recorded) : 0 ≤ unsaved i c log := by
  induction log using List.reverseRecOn with
  | nil => exact le_refl _
  | append_singleton log e ih =>
    rw [unsaved_append]
    split
    · split
      · exact le_refl _
      · have hd := e.delta.nonneg c
        linarith
    · exact ih

/-- The books of a fleet: what the store and every meter hold of the finished calls. -/
structure Accounted (s : Fleet) : Prop where
  owned : ∀ e ∈ s.log, ∃ m, s.meters[e.meter]? = some m ∧ m.key = e.key
  store : ∀ key c, (s.store.get key).column c = total (savedUnder key) c s.log
  covered : ∀ i m, s.meters[i]? = some m → ∀ c,
    total (ownSaved i) c s.log + unsaved i c s.log ≤ m.usage.column c
  behind : ∀ i m, s.meters[i]? = some m → ∀ c,
    m.usage.column c ≤ (s.store.get m.key).column c + unsaved i c s.log

theorem accounted_nil : Accounted {} := by
  constructor
  · intro e he
    cases he
  · intro key c
    exact Usage.column_zero c
  · intro i m hm
    cases hm
  · intro i m hm
    cases hm

theorem unowned (h : Accounted s) (hi : s.meters.length ≤ i) (c : Column) :
    total (ownSaved i) c s.log = 0 ∧ unsaved i c s.log = 0 := by
  have hne : ∀ e ∈ s.log, e.meter ≠ i := by
    intro e he hei
    obtain ⟨m, hm, -⟩ := h.owned e he
    rw [hei, List.getElem?_eq_none hi] at hm
    cases hm
  constructor
  · have hnil : s.log.filter (ownSaved i) = [] := by
      apply List.filter_eq_nil_iff.2
      intro e he
      simp [ownSaved, hne e he]
    rw [total, hnil]
    rfl
  · have hfold : ∀ log : List Recorded, (∀ e ∈ log, e.meter ≠ i) → unsaved i c log = 0 := by
      intro log
      induction log using List.reverseRecOn with
      | nil =>
        intro _
        rfl
      | append_singleton log e ih =>
        intro hl
        rw [unsaved_append, if_neg (hl e (by simp))]
        exact ih fun e' he' => hl e' (List.mem_append_left _ he')
    exact hfold s.log hne

theorem accounted_create (h : Accounted s) (key : QuotaKey) (getFails : Bool) :
    Accounted (s.step (.create key getFails)) := by
  have hold : ∀ i m, (s.meters ++ [.create s.store key getFails])[i]? = some m →
      s.meters[i]? = some m ∨ (i = s.meters.length ∧ m = .create s.store key getFails) := by
    intro i m hm
    rcases Nat.lt_trichotomy i s.meters.length with hi | hi | hi
    · rw [List.getElem?_append_left hi] at hm
      exact .inl hm
    · subst hi
      rw [List.getElem?_concat_length] at hm
      exact .inr ⟨rfl, (Option.some.inj hm).symm⟩
    · rw [List.getElem?_eq_none (by simp; omega)] at hm
      cases hm
  constructor
  · intro e he
    obtain ⟨m, hm, hk⟩ := h.owned e he
    obtain ⟨hi, -⟩ := List.getElem?_eq_some_iff.1 hm
    exact ⟨m, by rw [Fleet.step, List.getElem?_append_left hi]; exact hm, hk⟩
  · exact h.store
  · intro i m hm c
    rcases hold i m hm with hm | ⟨rfl, rfl⟩
    · exact h.covered i m hm c
    · obtain ⟨hown, huns⟩ := unowned h (le_refl _) c
      have hstore := h.store key c
      have hnn := total_nonneg (savedUnder key) c s.log
      simp only [Fleet.step, hown, huns, TenantCostMeter.create]
      split
      · simp
      · linarith
  · intro i m hm c
    rcases hold i m hm with hm | ⟨rfl, rfl⟩
    · exact h.behind i m hm c
    · obtain ⟨-, huns⟩ := unowned h (le_refl _) c
      have hstore := h.store key c
      have hnn := total_nonneg (savedUnder key) c s.log
      simp only [Fleet.step, huns, TenantCostMeter.create]
      split
      · simp only [Usage.column_zero]
        linarith
      · linarith

theorem total_mono {p q : Recorded → Bool} {log : List Recorded} (c : Column)
    (h : ∀ e ∈ log, p e = true → q e = true) : total p c log ≤ total q c log := by
  induction log using List.reverseRecOn with
  | nil => exact le_refl _
  | append_singleton log e ih =>
    have hlog := ih fun e' he' => h e' (List.mem_append_left _ he')
    have he := h e (by simp)
    have hd := e.delta.nonneg c
    rw [total_append, total_append]
    split <;> split
    · linarith
    next hp hq => exact absurd (he hp) hq
    · linarith
    · linarith

theorem ownSaved_le_store (h : Accounted s) (hm : s.meters[i]? = some m) (c : Column) :
    total (ownSaved i) c s.log ≤ (s.store.get m.key).column c := by
  rw [h.store m.key c]
  apply total_mono
  intro e he hown
  rw [ownSaved, Bool.and_eq_true, decide_eq_true_eq] at hown
  obtain ⟨m', hm', hk⟩ := h.owned e he
  rw [hown.1, hm, Option.some.injEq] at hm'
  subst hm'
  rw [savedUnder, hown.2, hk]
  simp

structure Recording (s : Fleet) (i : Nat) (delta : Spend) (saved : Bool) (m : TenantCostMeter)
    (s' : Fleet) : Prop where
  meters : s'.meters = s.meters.set i ⟨m.key,
    if saved then adopt (m.usage + delta.usage) (s.store.added m.key delta.usage)
    else m.usage + delta.usage⟩
  store : s'.store = if saved then s.store.add m.key delta.usage else s.store
  log : s'.log = s.log ++ [⟨i, m.key, delta, saved⟩]

theorem recording_step (hm : s.meters[i]? = some m) (delta : Spend) (addFails : Bool) :
    Recording s i delta (!addFails) m (s.step (.record i delta addFails)) := by
  simp only [Fleet.step, hm, TenantCostMeter.record]
  cases addFails <;> exact ⟨rfl, rfl, rfl⟩

theorem step_unknown {s : Fleet} (hm : s.meters[i]? = none) (delta : Spend) (addFails : Bool) :
    s.step (.record i delta addFails) = s := by
  simp only [Fleet.step, hm]

namespace Recording

theorem get_store (h : Recording s i delta saved m s') (key : QuotaKey) (c : Column) :
    (s'.store.get key).column c = (s.store.get key).column c +
      if savedUnder key ⟨i, m.key, delta, saved⟩ then delta.usage.column c else 0 := by
  rw [h.store, savedUnder]
  cases saved with
  | false => simp
  | true =>
    rw [if_pos rfl, TenantQuotaStore.get_add, Bool.and_true]
    by_cases hk : m.key = key
    · subst hk
      rw [if_pos rfl, TenantQuotaStore.column_added]
      simp
    · simp [hk]

theorem get_self (h : Recording s i delta saved m s') (hm : s.meters[i]? = some m) :
    ∃ m', s'.meters[i]? = some m' ∧ m'.key = m.key ∧ ∀ c, m'.usage.column c =
      (if saved then (s.store.get m.key).column c else m.usage.column c) +
        delta.usage.column c := by
  obtain ⟨hi, -⟩ := List.getElem?_eq_some_iff.1 hm
  have hget := List.getElem?_set_self (a := TenantCostMeter.mk m.key
    (if saved then adopt (m.usage + delta.usage) (s.store.added m.key delta.usage)
    else m.usage + delta.usage)) hi
  rw [← h.meters] at hget
  refine ⟨_, hget, rfl, ?_⟩
  intro c
  cases saved with
  | false => simp
  | true => simp [TenantQuotaStore.column_added]

theorem get_other (h : Recording s i delta saved m s') (hj : j ≠ i) :
    s'.meters[j]? = s.meters[j]? := by
  rw [h.meters, List.getElem?_set_ne hj.symm]

theorem accounted (h : Recording s i delta saved m s') (hs : Accounted s)
    (hm : s.meters[i]? = some m) : Accounted s' := by
  obtain ⟨m', hm', hkey, huse⟩ := h.get_self hm
  constructor
  · intro e he
    rw [h.log] at he
    rcases List.mem_append.1 he with he | he
    · obtain ⟨o, ho, hk⟩ := hs.owned e he
      by_cases hei : e.meter = i
      · rw [hei, hm, Option.some.injEq] at ho
        subst ho
        exact ⟨m', hei ▸ hm', hkey.trans hk⟩
      · exact ⟨o, (h.get_other hei).trans ho, hk⟩
    · cases List.mem_singleton.1 he
      exact ⟨m', hm', hkey⟩
  · intro key c
    rw [h.get_store, h.log, total_append, hs.store]
  · intro j mj hmj c
    rw [h.log, total_append, unsaved_append]
    by_cases hj : j = i
    · subst hj
      rw [hm', Option.some.injEq] at hmj
      subst hmj
      have hcov := hs.covered j m hm c
      have hown := ownSaved_le_store hs hm c
      rw [huse c]
      cases saved with
      | false =>
        simp [ownSaved]
        linarith
      | true =>
        simp [ownSaved]
        linarith
    · rw [h.get_other hj] at hmj
      have hcov := hs.covered j mj hmj c
      have hij : i ≠ j := Ne.symm hj
      simp [ownSaved, hij]
      linarith
  · intro j mj hmj c
    rw [h.get_store, h.log, unsaved_append]
    have hdelta := delta.nonneg c
    by_cases hj : j = i
    · subst hj
      rw [hm', Option.some.injEq] at hmj
      subst hmj
      have hbeh := hs.behind j m hm c
      rw [huse c, hkey]
      cases saved with
      | false =>
        simp [savedUnder]
        linarith
      | true => simp [savedUnder]
    · rw [h.get_other hj] at hmj
      have hbeh := hs.behind j mj hmj c
      have hij : i ≠ j := Ne.symm hj
      rw [if_neg hij]
      split <;> linarith

end Recording

theorem accounted_step (hs : Accounted s) (a : MeterAction) : Accounted (s.step a) := by
  cases a with
  | create key getFails => exact accounted_create hs key getFails
  | record i delta addFails =>
    cases hm : s.meters[i]? with
    | none =>
      rw [step_unknown hm]
      exact hs
    | some m => exact (recording_step hm delta addFails).accounted hs hm

theorem accounted_run (acts : List MeterAction) : Accounted (Fleet.run acts) :=
  Run.final_of_invariant accounted_nil (fun _ a hs => accounted_step hs a) acts

theorem usage_step (hs : Accounted s) (a : MeterAction) (hm : s.meters[i]? = some m)
    (hm' : (s.step a).meters[i]? = some m') (c : Column) :
    m.usage.column c - unsaved i c s.log ≤ m'.usage.column c := by
  have hun := unsaved_nonneg i c s.log
  have hsame : m' = m → m.usage.column c - unsaved i c s.log ≤ m'.usage.column c := by
    rintro rfl
    linarith
  cases a with
  | create key getFails =>
    obtain ⟨hi, -⟩ := List.getElem?_eq_some_iff.1 hm
    simp only [Fleet.step, List.getElem?_append_left hi, hm, Option.some.injEq] at hm'
    exact hsame hm'.symm
  | record j delta addFails =>
    cases hmj : s.meters[j]? with
    | none =>
      rw [step_unknown hmj, hm, Option.some.injEq] at hm'
      exact hsame hm'.symm
    | some mj =>
      have hrec := recording_step hmj delta addFails
      by_cases hij : i = j
      · subst hij
        rw [hm, Option.some.injEq] at hmj
        subst hmj
        obtain ⟨m'', hm'', -, huse⟩ := hrec.get_self hm
        rw [hm', Option.some.injEq] at hm''
        subst hm''
        have hbeh := hs.behind i m hm c
        have hd := delta.nonneg c
        rw [huse c]
        split <;> linarith
      · rw [hrec.get_other hij, hm, Option.some.injEq] at hm'
        exact hsame hm'.symm

theorem total_all {log : List Recorded} (h : ∀ e ∈ log, e.saved = true) (key : QuotaKey)
    (c : Column) : total (savedUnder key) c log = total (fun e => decide (e.key = key)) c log := by
  apply le_antisymm
  · apply total_mono
    intro e _ hp
    rw [savedUnder, Bool.and_eq_true] at hp
    exact hp.1
  · apply total_mono
    intro e he hp
    rw [savedUnder, hp, h e he]
    rfl

theorem unsaved_all {log : List Recorded} (h : ∀ e ∈ log, e.saved = true) (i : Nat) (c : Column) :
    unsaved i c log = 0 := by
  induction log using List.reverseRecOn with
  | nil => rfl
  | append_singleton log e ih =>
    have hlog := ih fun e' he' => h e' (List.mem_append_left _ he')
    rw [unsaved_append, hlog, h e (by simp)]
    split <;> rfl

/-- What the meters of a store guarantee after any calls, and over the next one. -/
structure QuotaContract (s : Fleet) (a : MeterAction) : Prop where
  store : ∀ key c, (s.store.get key).column c = total (savedUnder key) c s.log
  covered : ∀ i m, s.meters[i]? = some m → ∀ c,
    total (ownSaved i) c s.log + unsaved i c s.log ≤ m.usage.column c
  steady : ∀ i m m', s.meters[i]? = some m → (s.step a).meters[i]? = some m' → ∀ c,
    m.usage.column c - unsaved i c s.log ≤ m'.usage.column c
  lossless : (∀ e ∈ s.log, e.saved = true) → ∀ c,
    (∀ key, (s.store.get key).column c = total (fun e => decide (e.key = key)) c s.log) ∧
      ∀ i m, s.meters[i]? = some m →
        total (fun e => decide (e.meter = i)) c s.log ≤ m.usage.column c ∧
          ∀ m', (s.step a).meters[i]? = some m' → m.usage.column c ≤ m'.usage.column c

/-- The books balance after any interleaving of calls, failed additions apart. -/
theorem tenant_quota (acts : List MeterAction) (a : MeterAction) :
    QuotaContract (Fleet.run acts) a := by
  have hs := accounted_run acts
  constructor
  · exact hs.store
  · exact hs.covered
  · intro i m m' hm hm' c
    exact usage_step hs a hm hm' c
  · intro hall c
    constructor
    · intro key
      rw [hs.store, total_all hall]
    · intro i m hm
      have hun := unsaved_all hall i c
      have hcov := hs.covered i m hm c
      rw [hun, add_zero] at hcov
      constructor
      · apply le_trans (total_mono c _) hcov
        intro e he hp
        rw [ownSaved, hp, hall e he]
        rfl
      · intro m' hm'
        have hstep := usage_step hs a hm hm' c
        rw [hun] at hstep
        linarith

def tokens (n : Nat) : Spend where
  usage := { promptTokens := n, calls := 1 }
  nonneg c := by
    cases c <;> simp [Usage.column]

def recovery : List MeterAction :=
  [.create ("acme", "2026-10") false, .record 0 (tokens 10) true, .record 0 (tokens 1) false]

/-- After a failed addition and a successful one, the usage has dropped below the spend. -/
theorem tenant_quota_recovery :
    ((Fleet.run (recovery.take 2)).meters.map fun m => m.usage.promptTokens) = [10] ∧
      ((Fleet.run recovery).meters.map fun m => m.usage.promptTokens) = [1] ∧
      (Fleet.run recovery).log.map (fun e => e.delta.usage.promptTokens) = [10, 1] ∧
      ((Fleet.run recovery).store.get ("acme", "2026-10")).promptTokens = 1 := by
  decide +kernel

end Prismal.Budget
