import Mathlib.Algebra.Order.BigOperators.Group.List
import Mathlib.Algebra.Order.Field.Rat
import Mathlib.Tactic.Linarith
import Mathlib.Tactic.NormNum
import Prismal.Lib.Dict

namespace Prismal.Providers
open Prismal.Lib
set_option autoImplicit true

/-! The ledger of the flat-fee gateways: usage is tracked locally, and a call is refused before it
is made when it would exceed a window. Instants are microseconds, amounts are exact. -/

inductive WindowName where
  | fiveHours
  | week
  | month
  | day
  deriving DecidableEq, Repr

inductive QuotaUnit where
  | usd
  | requests
  deriving DecidableEq, Repr

inductive QuotaAction where
  | allow
  | refuse
  | downgrade
  deriving DecidableEq, Repr

def hours (n : Int) : Int := n * 3600000000

/-- `_ROLLING`; the calendar window is not rolling. -/
def WindowName.duration : WindowName → Int
  | .fiveHours => hours 5
  | .week => hours (7 * 24)
  | .month => hours (30 * 24)
  | .day => 0

def retention : Int := hours (30 * 24)

structure QuotaWindow where
  name : WindowName
  limit : Rat
  unit : QuotaUnit
  rolling : Bool
  deriving DecidableEq, Repr

structure QuotaVerdict where
  allowed : Bool
  action : QuotaAction
  exhaustedWindow : Option WindowName := none
  downgradeModel : Option String := none
  deriving DecidableEq, Repr

structure QuotaEvent where
  at' : Int
  model : String
  equivalentUsd : Rat
  requests : Nat
  deriving DecidableEq, Repr

abbrev QuotaKey := Option String × String

structure QuotaSettings where
  opencodeGoMonthlyCapUsd : Rat := 0
  opencodeGoWindow5hRatio : Rat := 1 / 5
  opencodeGoWindowWeekRatio : Rat := 1 / 2
  opencodeGoDowngrade : Bool := false
  opencodeGoDowngradeModel : Option String := none
  cap_nonneg : 0 ≤ opencodeGoMonthlyCapUsd := by norm_num
  ratio5h : 0 < opencodeGoWindow5hRatio ∧ opencodeGoWindow5hRatio ≤ 1 := by norm_num
  ratioWeek : 0 < opencodeGoWindowWeekRatio ∧ opencodeGoWindowWeekRatio ≤ 1 := by norm_num

def opencodeGo : String := "opencode-go"

def openrouter : String := "openrouter"

def openrouterFreeDailyLimit : Rat := 50

def isFree (model : String) : Bool := ":free".toList.isSuffixOf model.toList

/-! The store. -/

abbrev QuotaStore := Dict QuotaKey (List QuotaEvent)

namespace QuotaStore

def events (store : QuotaStore) (key : QuotaKey) : List QuotaEvent := (store.get? key).getD []

def add (store : QuotaStore) (key : QuotaKey) (e : QuotaEvent) : QuotaStore :=
  store.set key (events store key ++ [e])

def prune (store : QuotaStore) (key : QuotaKey) (before : Int) : QuotaStore :=
  match (events store key).filter fun e => decide (before ≤ e.at') with
  | [] => store.erase key
  | kept => store.set key kept

end QuotaStore

/-! The windows. -/

namespace QuotaWindow

/-- The beginning of the window: a rolling one moves with the clock, the other begins at midnight. -/
def start (w : QuotaWindow) (now : Int) : Int :=
  if w.rolling then now - w.name.duration else now - now % hours 24

/-- An event exactly as old as a rolling window has aged out; the cap on requests is one on the
calls of free models. -/
def counts (w : QuotaWindow) (now : Int) (e : QuotaEvent) : Bool :=
  (if w.rolling then decide (w.start now < e.at') else decide (w.start now ≤ e.at')) &&
    (w.unit != .requests || isFree e.model)

def inWindow (w : QuotaWindow) (events : List QuotaEvent) (now : Int) : List QuotaEvent :=
  events.filter (w.counts now)

def amount (w : QuotaWindow) (e : QuotaEvent) : Rat :=
  match w.unit with
  | .requests => e.requests
  | .usd => e.equivalentUsd

def used (w : QuotaWindow) (events : List QuotaEvent) (now : Int) : Rat :=
  ((w.inWindow events now).map w.amount).sum

def exceeds (w : QuotaWindow) (used estimate : Rat) : Bool :=
  match w.unit with
  | .requests => decide (w.limit < used + 1)
  | .usd => decide (w.limit ≤ used) || decide (w.limit < used + max estimate 0)

end QuotaWindow

/-! The ledger. -/

namespace QuotaSettings

variable (s : QuotaSettings)

def gatewayWindows (gateway : String) : List QuotaWindow :=
  if gateway = opencodeGo then
    if s.opencodeGoMonthlyCapUsd ≤ 0 then []
    else
      [⟨.fiveHours, s.opencodeGoMonthlyCapUsd * s.opencodeGoWindow5hRatio, .usd, true⟩,
        ⟨.week, s.opencodeGoMonthlyCapUsd * s.opencodeGoWindowWeekRatio, .usd, true⟩,
        ⟨.month, s.opencodeGoMonthlyCapUsd, .usd, true⟩]
  else if gateway = openrouter then [⟨.day, openrouterFreeDailyLimit, .requests, false⟩]
  else []

def windowsFor (gateway model : String) : List QuotaWindow :=
  if gateway = openrouter && !isFree model then [] else s.gatewayWindows gateway

/-- `_deny` -/
def deny (gateway : String) (w : QuotaWindow) : QuotaVerdict :=
  match s.opencodeGoDowngradeModel.filter (· ≠ "") with
  | some model =>
    if gateway = opencodeGo && s.opencodeGoDowngrade then ⟨false, .downgrade, w.name, model⟩
    else ⟨false, .refuse, w.name, none⟩
  | none => ⟨false, .refuse, w.name, none⟩

def preflight (store : QuotaStore) (key : QuotaKey) (model : String) (estimate : Rat)
    (now : Int) : QuotaVerdict :=
  let exhausted := (s.windowsFor key.2 model).find? fun w =>
    w.exceeds (w.used (QuotaStore.events store key) now) estimate
  match exhausted with
  | none => { allowed := true, action := .allow }
  | some w => s.deny key.2 w

def record (store : QuotaStore) (key : QuotaKey) (model : String) (usage : Rat) (requests : Nat)
    (now : Int) : QuotaStore :=
  if s.windowsFor key.2 model = [] then store
  else
    QuotaStore.add (QuotaStore.prune store key (now - retention)) key ⟨now, model, usage, requests⟩

end QuotaSettings

/-! What the ledger guarantees of a sequence of calls. -/

/-- A call: what it asks for, when it passes the preflight and when its usage is recorded. What is
asked for covers what is used. -/
structure Call where
  key : QuotaKey
  model : String
  estimate : Rat
  usage : Rat
  requests : Nat := 1
  asked : Int
  landed : Int
  usage_nonneg : 0 ≤ usage
  usage_le : usage ≤ estimate
  requests_le : requests ≤ 1
  asked_le : asked ≤ landed

/-- The store, with everything that was ever recorded. -/
structure Account where
  store : QuotaStore
  recorded : List (QuotaKey × QuotaEvent)

def Call.event (c : Call) : QuotaEvent := ⟨c.landed, c.model, c.usage, c.requests⟩

namespace QuotaSettings

variable (s : QuotaSettings)

def call (a : Account) (c : Call) : Account :=
  if (s.preflight a.store c.key c.model c.estimate c.asked).allowed then
    { store := s.record a.store c.key c.model c.usage c.requests c.landed
      recorded :=
        if s.windowsFor c.key.2 c.model = [] then a.recorded
        else a.recorded ++ [(c.key, c.event)] }
  else a

def calls (cs : List Call) : Account := cs.foldl s.call ⟨∅, []⟩

end QuotaSettings

def Account.history (a : Account) (key : QuotaKey) : List QuotaEvent :=
  (a.recorded.filter fun p => decide (p.1 = key)).map Prod.snd

def Sequential (cs : List Call) : Prop := cs.Pairwise fun c d => c.landed ≤ d.asked

variable {s : QuotaSettings} {a : Account} {c : Call} {w : QuotaWindow} {now t : Int}
  {events : List QuotaEvent} {key : QuotaKey} {gateway model : String}

/-! Windows move forward with the clock. -/

theorem duration_le (name : WindowName) : name.duration ≤ retention := by
  cases name <;> decide

theorem QuotaWindow.start_mono (w : QuotaWindow) (h : now ≤ t) : w.start now ≤ w.start t := by
  rw [start, start]
  split
  · omega
  · have hday : hours 24 = 86400000000 := rfl
    rw [hday]
    omega

theorem QuotaWindow.counts_mono (h : now ≤ t) (hc : w.counts t e = true) :
    w.counts now e = true := by
  have hstart := w.start_mono h
  rw [counts, Bool.and_eq_true] at hc ⊢
  refine ⟨?_, hc.2⟩
  have hfirst := hc.1
  split at hfirst
  · next hroll =>
    rw [if_pos hroll]
    rw [decide_eq_true_eq] at hfirst ⊢
    exact hstart.trans_lt hfirst
  · next hroll =>
    rw [if_neg hroll]
    rw [decide_eq_true_eq] at hfirst ⊢
    exact hstart.trans hfirst

theorem QuotaWindow.retained (h : now ≤ t) (hc : w.counts t e = true) : now - retention ≤ e.at' := by
  have hstart : now - retention ≤ w.start t := by
    rw [start]
    split
    · have hle := duration_le w.name
      omega
    · have hday : hours 24 = 86400000000 := rfl
      have hkeep : retention = 2592000000000 := rfl
      rw [hday, hkeep]
      omega
  rw [counts, Bool.and_eq_true] at hc
  have hfirst := hc.1
  split at hfirst
  · rw [decide_eq_true_eq] at hfirst
    omega
  · rw [decide_eq_true_eq] at hfirst
    omega

/-! The usage of a window. -/

def AllNonneg (events : List QuotaEvent) : Prop := ∀ e ∈ events, 0 ≤ e.equivalentUsd

theorem QuotaWindow.amount_nonneg (w : QuotaWindow) (h : 0 ≤ e.equivalentUsd) : 0 ≤ w.amount e := by
  rw [amount]
  split
  · exact Nat.cast_nonneg _
  · exact h

theorem QuotaWindow.used_mono (w : QuotaWindow) (hnonneg : AllNonneg events) (h : now ≤ t) :
    w.used events t ≤ w.used events now := by
  have hsub : (w.inWindow events t).Sublist (w.inWindow events now) :=
    List.monotone_filter_right events fun e he => QuotaWindow.counts_mono h he
  apply (hsub.map w.amount).sum_le_sum
  intro x hx
  obtain ⟨e, he, rfl⟩ := List.mem_map.1 hx
  exact w.amount_nonneg (hnonneg e (List.mem_of_mem_filter he))

theorem QuotaWindow.used_append (w : QuotaWindow) (events : List QuotaEvent) (e : QuotaEvent)
    (now : Int) : w.used (events ++ [e]) now = w.used events now + w.used [e] now := by
  rw [used, inWindow, List.filter_append, List.map_append, List.sum_append]
  rfl

theorem QuotaWindow.used_single_le (w : QuotaWindow) (h : 0 ≤ e.equivalentUsd) (now : Int) :
    w.used [e] now ≤ w.amount e := by
  have hnonneg := w.amount_nonneg h
  rw [used, inWindow]
  by_cases hc : w.counts now e = true
  · rw [List.filter_cons_of_pos hc, List.filter_nil, List.map_singleton, List.sum_singleton]
  · rw [List.filter_cons_of_neg hc, List.filter_nil, List.map_nil, List.sum_nil]
    exact hnonneg

/-! The preflight. -/

theorem fits_of_allowed (h : (s.preflight store key model estimate now).allowed = true)
    (hw : w ∈ s.windowsFor key.2 model) :
    w.exceeds (w.used (QuotaStore.events store key) now) estimate = false := by
  rw [QuotaSettings.preflight] at h
  split at h
  · next hnone =>
    rw [List.find?_eq_none] at hnone
    exact Bool.eq_false_iff.2 (hnone w hw)
  · rw [QuotaSettings.deny] at h
    split at h
    · split at h <;> cases h
    · cases h

theorem QuotaWindow.room (w : QuotaWindow) (c : Call) (h : w.exceeds sum c.estimate = false) :
    sum + w.amount c.event ≤ w.limit := by
  rw [exceeds] at h
  rw [amount]
  split at h
  · rw [decide_eq_false_iff_not, not_lt] at h
    have hone : (c.event.requests : Rat) ≤ 1 := Nat.cast_le_one.2 c.requests_le
    linarith
  · rw [Bool.or_eq_false_iff, decide_eq_false_iff_not, decide_eq_false_iff_not, not_lt] at h
    have hmax := le_max_left c.estimate 0
    have husage : c.event.equivalentUsd ≤ c.estimate := c.usage_le
    linarith [h.2]

theorem windowsFor_eq (h : s.windowsFor gateway model ≠ []) :
    s.windowsFor gateway model = s.gatewayWindows gateway := by
  rw [QuotaSettings.windowsFor] at h ⊢
  split
  · next hfree => exact absurd (if_pos hfree) h
  · rfl

theorem windowsFor_subset (hw : w ∈ s.windowsFor gateway model) :
    w ∈ s.gatewayWindows gateway := by
  rw [← windowsFor_eq (List.ne_nil_of_mem hw)]
  exact hw

theorem limit_nonneg (hw : w ∈ s.gatewayWindows gateway) : 0 ≤ w.limit := by
  have hcap := s.cap_nonneg
  have h5h := s.ratio5h.1.le
  have hweek := s.ratioWeek.1.le
  rw [QuotaSettings.gatewayWindows] at hw
  split at hw
  · split at hw
    · cases hw
    · simp only [List.mem_cons, List.not_mem_nil, or_false] at hw
      rcases hw with rfl | rfl | rfl
      · exact mul_nonneg hcap h5h
      · exact mul_nonneg hcap hweek
      · exact hcap
  · split at hw
    · rw [List.mem_singleton] at hw
      subst hw
      decide
    · cases hw

/-! The store. -/

theorem events_add (store : QuotaStore) (key other : QuotaKey) (e : QuotaEvent) :
    QuotaStore.events (QuotaStore.add store key e) other =
      if key = other then QuotaStore.events store key ++ [e] else QuotaStore.events store other := by
  rw [QuotaStore.events, QuotaStore.add, Dict.get?_set]
  split <;> rfl

theorem events_prune (store : QuotaStore) (key other : QuotaKey) (before : Int) :
    QuotaStore.events (QuotaStore.prune store key before) other =
      if key = other then (QuotaStore.events store key).filter fun e => decide (before ≤ e.at')
      else QuotaStore.events store other := by
  rw [QuotaStore.events, QuotaStore.prune]
  split
  · next hnil =>
    rw [Dict.get?_erase, hnil]
    split <;> rfl
  · rw [Dict.get?_set]
    split <;> rfl

theorem inWindow_prune (w : QuotaWindow) (events : List QuotaEvent) (h : now ≤ t) :
    w.inWindow (events.filter fun e => decide (now - retention ≤ e.at')) t =
      w.inWindow events t := by
  rw [QuotaWindow.inWindow, QuotaWindow.inWindow, List.filter_filter]
  apply List.filter_congr
  intro e _
  by_cases hc : w.counts t e = true
  · rw [hc, decide_eq_true (QuotaWindow.retained h hc)]
    rfl
  · rw [Bool.eq_false_iff.2 hc]
    rfl

/-! Runs. -/

/-- Every window is within its limit, now and later, and the store has all that a window counts. -/
structure Account.Sound (s : QuotaSettings) (now : Int) (a : Account) : Prop where
  nonneg : ∀ key, AllNonneg (a.history key)
  kept : ∀ key (w : QuotaWindow) t, now ≤ t →
    w.inWindow (QuotaStore.events a.store key) t = w.inWindow (a.history key) t
  capped : ∀ key, ∀ w ∈ s.gatewayWindows key.2, ∀ t, now ≤ t →
    w.used (a.history key) t ≤ w.limit

theorem Account.Sound.mono (h : a.Sound s now) (hle : now ≤ t) : a.Sound s t := by
  constructor
  · exact h.nonneg
  · intro key w u hu
    exact h.kept key w u (hle.trans hu)
  · intro key w hw u hu
    exact h.capped key w hw u (hle.trans hu)

theorem history_append (recorded : List (QuotaKey × QuotaEvent)) (store store' : QuotaStore)
    (key other : QuotaKey) (e : QuotaEvent) :
    (Account.mk store' (recorded ++ [(key, e)])).history other =
      (Account.mk store recorded).history other ++ if key = other then [e] else [] := by
  rw [Account.history, List.filter_append, List.map_append]
  congr 1
  by_cases h : key = other
  · have hkeep : [(key, e)].filter (fun p => decide (p.1 = other)) = [(key, e)] :=
      List.filter_cons_of_pos (decide_eq_true h)
    rw [if_pos h, hkeep]
    rfl
  · have hdrop : [(key, e)].filter (fun p => decide (p.1 = other)) = [] :=
      List.filter_cons_of_neg fun hd => h (of_decide_eq_true hd)
    rw [if_neg h, hdrop]
    rfl

theorem Account.Sound.recorded (h : a.Sound s now) (hle : now ≤ c.asked)
    (hwindows : s.windowsFor c.key.2 c.model ≠ [])
    (hallowed : (s.preflight a.store c.key c.model c.estimate c.asked).allowed = true) :
    Account.Sound s c.landed
      ⟨QuotaStore.add (QuotaStore.prune a.store c.key (c.landed - retention)) c.key c.event,
        a.recorded ++ [(c.key, c.event)]⟩ := by
  have hlanded := hle.trans c.asked_le
  constructor
  · intro key
    rw [history_append _ a.store]
    split
    · intro e he
      rcases List.mem_append.1 he with he | he
      · exact h.nonneg key e he
      · rw [List.mem_singleton.1 he]
        exact c.usage_nonneg
    · rw [List.append_nil]
      exact h.nonneg key
  · intro key w t ht
    have hkept := h.kept key w t (hlanded.trans ht)
    rw [history_append _ a.store, events_add, events_prune, events_prune]
    split
    · next heq =>
      subst heq
      rw [if_pos rfl, QuotaWindow.inWindow, QuotaWindow.inWindow, List.filter_append,
        List.filter_append]
      congr 1
      exact (inWindow_prune w _ ht).trans hkept
    · next hne =>
      rw [List.append_nil]
      exact hkept
  · intro key w hw t ht
    rw [history_append _ a.store]
    have hcapped := h.capped key w hw
    split
    · next heq =>
      subst heq
      have hasked := h.kept c.key w c.asked hle
      have hfits := fits_of_allowed (w := w) hallowed (windowsFor_eq hwindows ▸ hw)
      rw [QuotaWindow.used, hasked, ← QuotaWindow.used] at hfits
      calc w.used (a.history c.key ++ [c.event]) t
          = w.used (a.history c.key) t + w.used [c.event] t := w.used_append _ _ t
        _ ≤ w.used (a.history c.key) c.asked + w.amount c.event := by
          apply add_le_add
          · exact w.used_mono (h.nonneg c.key) (c.asked_le.trans ht)
          · exact w.used_single_le c.usage_nonneg t
        _ ≤ w.limit := w.room c hfits
    · rw [List.append_nil]
      exact hcapped t (hlanded.trans ht)

theorem Account.Sound.call (h : a.Sound s now) (hle : now ≤ c.asked) :
    (s.call a c).Sound s c.landed := by
  have hidle := h.mono (hle.trans c.asked_le)
  rw [QuotaSettings.call]
  split
  · next hallowed =>
    rw [QuotaSettings.record]
    split
    · exact hidle
    · next hwindows => exact h.recorded hle hwindows hallowed
  · exact hidle

theorem sound_nil (s : QuotaSettings) (now : Int) : Account.Sound s now ⟨∅, []⟩ := by
  constructor
  · intro key e he
    cases he
  · intro key w t _
    rfl
  · intro key w hw t _
    exact limit_nonneg hw

theorem sound_calls (s : QuotaSettings) (cs : List Call) (hcs : Sequential cs)
    (hnow : ∀ c ∈ cs, c.landed ≤ now) : (s.calls cs).Sound s now := by
  induction cs using List.reverseRecOn generalizing now with
  | nil => exact sound_nil s now
  | append_singleton cs c ih =>
    obtain ⟨hinit, -, hlast⟩ := List.pairwise_append.1 hcs
    have hbefore : (s.calls cs).Sound s c.asked :=
      ih hinit fun b hb => hlast b hb c (List.mem_singleton_self c)
    rw [QuotaSettings.calls, List.foldl_append]
    exact (hbefore.call (le_refl c.asked)).mono (hnow c (List.mem_append_right _ (List.mem_singleton_self c)))

def dollarCall (asked : Int) : Call where
  key := (none, opencodeGo)
  model := "kimi-k2"
  estimate := 1
  usage := 1
  asked := asked
  landed := asked + 1
  usage_nonneg := by decide
  usage_le := by decide
  requests_le := by decide
  asked_le := by omega

end Prismal.Providers
