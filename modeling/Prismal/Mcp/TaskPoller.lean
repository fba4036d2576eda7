import Mathlib.Algebra.Order.Archimedean.Basic
import Mathlib.Algebra.Order.Ring.Unbundled.Rat
import Mathlib.Data.Rat.Floor
import Mathlib.Tactic.Linarith
import Prismal.Lib.Lists
import Prismal.Lib.Run

namespace Prismal.Mcp
open Prismal.Lib
set_option autoImplicit true

/-! Polling a task until it is done. Times are exact, in seconds; they pass in the sleeps only. -/

/-- The `mcp_task_*` settings with the bounds that are checked when they are read. -/
structure PollSettings where
  interval : Rat
  maxInterval : Rat
  timeout : Rat
  interval_pos : 0 < interval
  max_pos : 0 < maxInterval
  timeout_pos : 0 < timeout
  interval_le_max : interval ≤ maxInterval

structure McpTaskStatus (ρ : Type) where
  status : String
  result : Option ρ := none
  statusMessage : Option String := none
  pollIntervalMs : Option Int := none

/-- What each `tasks/get` is answered, the moment the run is cancelled, and the one at which the
wait begins. -/
structure World (ρ ε : Type) where
  answer : Nat → Except ε (McpTaskStatus ρ)
  cancelAt : Option Rat := none
  start : Rat := 0

inductive PollExit (ρ ε : Type) where
  | returned (result : ρ)
  | failed (status : String) (message : Option String)
  | cancelledByRun
  | timedOut
  | raised (err : ε)

def PollExit.label : PollExit ρ ε → String
  | .returned _ => "completed"
  | .failed status _ => status
  | .cancelledByRun => "cancelled"
  | .timedOut => "timeout"
  | .raised _ => "error"

def PollExit.owed : PollExit ρ ε → Nat
  | .cancelledByRun => 1
  | .timedOut => 1
  | _ => 0

/-- A `tasks/get` that was sent, and its answer. -/
structure Request (ρ ε : Type) where
  time : Rat
  answer : Except ε (McpTaskStatus ρ)

/-- The loop with its clock and what it has sent and slept so far. -/
structure Polling (ρ ε : Type) where
  now : Rat
  interval : Rat
  requests : List (Request ρ ε) := []
  slept : Rat := 0
  cancels : Nat := 0

abbrev Turn (ρ ε : Type) := (PollExit ρ ε × Polling ρ ε) ⊕ Polling ρ ε

def World.isSet (w : World ρ ε) (t : Rat) : Bool := w.cancelAt.any fun c => decide (c ≤ t)

def McpTaskStatus.hint (st : McpTaskStatus ρ) : Rat := (st.pollIntervalMs.getD 0 : Int) / 1000

/-- `_cancel` -/
def Polling.cancel (s : Polling ρ ε) : Polling ρ ε := { s with cancels := s.cancels + 1 }

def pause (cfg : PollSettings) (interval hint remaining : Rat) : Rat :=
  min (min (max interval hint) cfg.maxInterval) (max remaining 0)

def Polling.sleep (cfg : PollSettings) (s : Polling ρ ε) (delay : Rat) : Polling ρ ε :=
  { s with
    now := s.now + delay
    slept := s.slept + delay
    interval := min (s.interval * 2) cfg.maxInterval }

section
variable [EmptyCollection ρ] (cfg : PollSettings) (w : World ρ ε)

def answered (s : Polling ρ ε) : Except ε (McpTaskStatus ρ) → Turn ρ ε
  | .error err => .inl (.raised err, s)
  | .ok st =>
    if st.status = "completed" then .inl (.returned (st.result.getD ∅), s)
    else if st.status = "failed" ∨ st.status = "cancelled" then
      .inl (.failed st.status st.statusMessage, s)
    else
      .inr (s.sleep cfg (pause cfg s.interval st.hint (cfg.timeout - (s.now - w.start))))

/-- One turn of the loop of `_poll`. -/
def turn (s : Polling ρ ε) : Turn ρ ε :=
  if w.isSet s.now then .inl (.cancelledByRun, s.cancel)
  else if cfg.timeout ≤ s.now - w.start then .inl (.timedOut, s.cancel)
  else
    let answer := w.answer s.requests.length
    answered cfg w { s with requests := s.requests ++ [⟨s.now, answer⟩] } answer

/-- `_poll`, of at most so many turns. -/
def poll : Nat → Polling ρ ε → Option (PollExit ρ ε × Polling ρ ε) := Loop.iterate (turn cfg w)

end

def Polling.begin (cfg : PollSettings) (w : World ρ ε) : Polling ρ ε where
  now := w.start
  interval := cfg.interval

def McpTaskStatus.working (st : McpTaskStatus ρ) : Prop :=
  st.status ≠ "completed" ∧ st.status ≠ "failed" ∧ st.status ≠ "cancelled"

/-- The `pollIntervalMs` of an answer, in seconds. -/
def Request.hint (r : Request ρ ε) : Rat :=
  match r.answer with
  | .ok st => st.hint
  | .error _ => 0

def Over (cfg : PollSettings) (w : World ρ ε) (t : Rat) : Prop :=
  w.isSet t = true ∨ cfg.timeout ≤ t - w.start

structure Kept [EmptyCollection ρ] (cfg : PollSettings) (x : PollExit ρ ε) (s : Polling ρ ε) :
    Prop where
  spaced : s.requests.IsChain fun p q => p.time + p.hint ≤ q.time
  slept_le : s.slept ≤ cfg.timeout
  returned : ∀ r ∈ s.requests, ∀ st, r.answer = .ok st → st.status = "completed" →
    x = .returned (st.result.getD ∅)
  cancels : s.cancels = x.owed

/-- The `pollIntervalMs` is one that the ceiling leaves alone, or the wait is
over when the ceiling is. -/
def Bearable (cfg : PollSettings) (w : World ρ ε) (r : Request ρ ε) : Prop :=
  r.hint ≤ cfg.maxInterval ∨ Over cfg w (r.time + cfg.maxInterval)

def Request.Unfinished (r : Request ρ ε) : Prop := ∃ st, r.answer = .ok st ∧ st.working

structure Going (cfg : PollSettings) (w : World ρ ε) (s : Polling ρ ε) : Prop where
  interval_ge : cfg.interval ≤ s.interval
  interval_le : s.interval ≤ cfg.maxInterval
  slept_eq : s.slept = s.now - w.start
  slept_le : s.slept ≤ cfg.timeout
  cancels_eq : s.cancels = 0
  unfinished : ∀ r ∈ s.requests, r.Unfinished
  linked : s.requests.IsChain fun p q => (p.time + p.hint ≤ q.time ↔ Bearable cfg w p)
  late : Over cfg w s.now → ∀ r ∈ s.requests.getLast?, Bearable cfg w r
  pending : ¬ Over cfg w s.now → ∀ r ∈ s.requests.getLast?,
    (r.time + r.hint ≤ s.now ↔ Bearable cfg w r)

theorem going_begin (cfg : PollSettings) (w : World ρ ε) : Going cfg w (.begin cfg w) where
  interval_ge := le_refl _
  interval_le := cfg.interval_le_max
  slept_eq := (sub_self _).symm
  slept_le := le_of_lt cfg.timeout_pos
  cancels_eq := rfl
  unfinished _ hr := absurd hr List.not_mem_nil
  linked := .nil
  late _ _ hr := by cases hr
  pending _ _ hr := by cases hr

section
variable {cfg : PollSettings} {w : World ρ ε} {s s' : Polling ρ ε}

def Polling.ask (w : World ρ ε) (s : Polling ρ ε) : Polling ρ ε :=
  { s with requests := s.requests ++ [⟨s.now, w.answer s.requests.length⟩] }

inductive Turned [EmptyCollection ρ] (cfg : PollSettings) (w : World ρ ε) (s : Polling ρ ε) :
    Turn ρ ε → Prop
  | guarded : Over cfg w s.now → x.owed = 1 →
      (∀ result, x ≠ .returned result) → Turned cfg w s (.inl (x, s.cancel))
  | raised : ¬ Over cfg w s.now → w.answer s.requests.length = .error err →
      Turned cfg w s (.inl (.raised err, s.ask w))
  | completed : ¬ Over cfg w s.now → w.answer s.requests.length = .ok st →
      st.status = "completed" → Turned cfg w s (.inl (.returned (st.result.getD ∅), s.ask w))
  | failed : ¬ Over cfg w s.now → w.answer s.requests.length = .ok st →
      st.status ≠ "completed" → ¬ st.working →
      Turned cfg w s (.inl (.failed st.status st.statusMessage, s.ask w))
  | again : ¬ Over cfg w s.now → w.answer s.requests.length = .ok st → st.working →
      Turned cfg w s (.inr ((s.ask w).sleep cfg
        (pause cfg s.interval st.hint (cfg.timeout - (s.now - w.start)))))

theorem turn_turned [EmptyCollection ρ] (cfg : PollSettings) (w : World ρ ε) (s : Polling ρ ε) :
    Turned cfg w s (turn cfg w s) := by
  by_cases hset : w.isSet s.now = true
  · rw [turn, if_pos hset]
    exact .guarded (Or.inl hset) rfl fun _ h => by cases h
  · by_cases htime : cfg.timeout ≤ s.now - w.start
    · rw [turn, if_neg hset, if_pos htime]
      exact .guarded (Or.inr htime) rfl fun _ h => by cases h
    · have hover : ¬ Over cfg w s.now := not_or.2 ⟨hset, htime⟩
      rw [turn, if_neg hset, if_neg htime]
      show Turned cfg w s (answered cfg w (s.ask w) (w.answer s.requests.length))
      cases hanswer : w.answer s.requests.length with
      | error err => exact .raised hover hanswer
      | ok st =>
        by_cases hdone : st.status = "completed"
        · rw [answered, if_pos hdone]
          exact .completed hover hanswer hdone
        · by_cases hend : st.status = "failed" ∨ st.status = "cancelled"
          · rw [answered, if_neg hdone, if_pos hend]
            apply Turned.failed hover hanswer hdone
            intro hworking
            rcases hend with hend | hend
            · exact hworking.2.1 hend
            · exact hworking.2.2 hend
          · rw [answered, if_neg hdone, if_neg hend]
            exact .again hover hanswer ⟨hdone, not_or.1 hend⟩

theorem pause_nonneg (cfg : PollSettings) (hi : 0 ≤ i) : 0 ≤ pause cfg i hint remaining :=
  le_min (le_min (le_max_of_le_left hi) (le_of_lt cfg.max_pos)) (le_max_right _ _)

theorem pause_le (cfg : PollSettings) (i hint : Rat) (h : 0 ≤ remaining) :
    pause cfg i hint remaining ≤ remaining := by
  apply le_trans (min_le_right _ _)
  rw [max_eq_left h]

theorem pause_le_max (cfg : PollSettings) : pause cfg i hint remaining ≤ cfg.maxInterval :=
  le_trans (min_le_left _ _) (min_le_right _ _)

theorem pause_cases (cfg : PollSettings) (i hint : Rat) (h : 0 ≤ remaining) :
    pause cfg i hint remaining = min (max i hint) cfg.maxInterval ∨
      pause cfg i hint remaining = remaining := by
  rw [pause, max_eq_left h]
  exact min_choice _ _

theorem hint_le_pause {cfg : PollSettings} :
    hint ≤ min (max i hint) cfg.maxInterval ↔ hint ≤ cfg.maxInterval := by
  rw [le_min_iff, and_iff_right (le_max_right i hint)]

theorem Over.mono (h : Over cfg w t) (hle : t ≤ t') : Over cfg w t' := by
  apply Or.imp _ _ h
  · intro hset
    rw [World.isSet, Option.any_eq_true] at hset ⊢
    obtain ⟨c, hc, hct⟩ := hset
    exact ⟨c, hc, decide_eq_true (le_trans (of_decide_eq_true hct) hle)⟩
  · intro htime
    linarith

theorem hint_le_iff_bearable {r : Request ρ ε}
    (hover : ¬ Over cfg w (r.time + pause cfg i r.hint (cfg.timeout - (r.time - w.start))))
    (hremaining : 0 ≤ cfg.timeout - (r.time - w.start)) :
    r.hint ≤ pause cfg i r.hint (cfg.timeout - (r.time - w.start)) ↔ Bearable cfg w r := by
  rcases pause_cases cfg i r.hint hremaining with heq | heq
  · rw [heq] at hover ⊢
    rw [hint_le_pause]
    apply Iff.intro
    · exact Or.inl
    · intro hbearable
      rcases hbearable with hle | hafter
      · exact hle
      · by_contra hlt
        apply hover
        rw [min_eq_right (le_max_of_le_right (le_of_lt (not_le.1 hlt)))]
        exact hafter
  · apply absurd _ hover
    rw [heq]
    apply Or.inr
    linarith

theorem Going.remaining (hs : Going cfg w s) : 0 ≤ cfg.timeout - (s.now - w.start) := by
  have hslept := hs.slept_le
  rw [hs.slept_eq] at hslept
  linarith

theorem Going.again (hs : Going cfg w s) (hover : ¬ Over cfg w s.now)
    (hanswer : w.answer s.requests.length = .ok st) (hworking : st.working) :
    Going cfg w ((s.ask w).sleep cfg
      (pause cfg s.interval st.hint (cfg.timeout - (s.now - w.start)))) := by
  have hlast : (s.ask w).requests.getLast? = some ⟨s.now, .ok st⟩ := by
    rw [Polling.ask, List.getLast?_concat, hanswer]
  have hremaining := hs.remaining
  have hpause := pause_le cfg s.interval st.hint hremaining
  have hpos := cfg.interval_pos
  exact {
    interval_ge := by
      have hge := hs.interval_ge
      have htwice : cfg.interval ≤ s.interval * 2 := by linarith
      exact le_min htwice cfg.interval_le_max
    interval_le := min_le_right _ _
    slept_eq := by
      show s.slept + _ = s.now + _ - w.start
      rw [hs.slept_eq]
      ring
    slept_le := by
      show s.slept + _ ≤ cfg.timeout
      rw [hs.slept_eq]
      linarith
    cancels_eq := hs.cancels_eq
    unfinished := by
      exact List.forall_mem_append.2
        ⟨hs.unfinished, List.forall_mem_singleton.2 ⟨st, hanswer, hworking⟩⟩
    linked := isChain_concat.2 ⟨hs.linked, hs.pending hover⟩
    late := by
      intro hafter r hr
      cases hlast.symm.trans hr
      exact Or.inr (hafter.mono (add_le_add_right (pause_le_max cfg) s.now))
    pending := by
      intro hafter r hr
      cases hlast.symm.trans hr
      exact (add_le_add_iff_left s.now).trans
        (hint_le_iff_bearable (r := ⟨s.now, .ok st⟩) hafter hremaining) }

/-- The condition on a run: after each request that leaves the task unfinished, its hint can be
borne. -/
def Patient (cfg : PollSettings) (w : World ρ ε) (s : Polling ρ ε) : Prop :=
  ∀ r ∈ s.requests, r.Unfinished → Bearable cfg w r

theorem Going.spaced_iff (hs : Going cfg w s) (hover : Over cfg w s.now) :
    (s.requests.IsChain fun p q => p.time + p.hint ≤ q.time) ↔ Patient cfg w s := by
  rw [isChain_iff_dropLast hs.linked]
  apply Iff.intro
  · intro h r hr _
    by_cases hnil : s.requests = []
    · rw [hnil] at hr
      cases hr
    · rw [← List.dropLast_append_getLast hnil] at hr
      rcases List.mem_append.1 hr with hr | hr
      · exact h r hr
      · cases List.mem_singleton.1 hr
        exact hs.late hover _ (List.getLast?_eq_getLast_of_ne_nil hnil)
  · intro h r hr
    have hmem := List.dropLast_subset _ hr
    exact h r hmem (hs.unfinished r hmem)

theorem Going.ask_spaced_iff (hs : Going cfg w s) (hover : ¬ Over cfg w s.now)
    (hend : ∀ st, w.answer s.requests.length = .ok st → ¬ st.working) :
    ((s.ask w).requests.IsChain fun p q => p.time + p.hint ≤ q.time) ↔
      Patient cfg w (s.ask w) := by
  have hlinked : (s.ask w).requests.IsChain
      fun p q => (p.time + p.hint ≤ q.time ↔ Bearable cfg w p) :=
    isChain_concat.2 ⟨hs.linked, hs.pending hover⟩
  have hdrop : (s.ask w).requests.dropLast = s.requests := List.dropLast_concat
  rw [isChain_iff_dropLast hlinked, hdrop]
  apply Iff.intro
  · intro h r hr hunfinished
    rcases List.mem_append.1 hr with hr | hr
    · exact h r hr
    · cases List.mem_singleton.1 hr
      obtain ⟨st, hanswer, hworking⟩ := hunfinished
      exact absurd hworking (hend st hanswer)
  · intro h r hr
    exact h r (List.mem_append_left _ hr) (hs.unfinished r hr)

theorem Going.not_completed (hs : Going cfg w s) (hr : r ∈ s.requests)
    (hanswer : r.answer = .ok st) : st.status ≠ "completed" := by
  obtain ⟨st', hanswer', hworking⟩ := hs.unfinished r hr
  cases hanswer.symm.trans hanswer'
  exact hworking.1

theorem Going.leave [EmptyCollection ρ] (hs : Going cfg w s) (hturn : turn cfg w s = .inl (x, s')) :
    Kept cfg x s' ↔ Patient cfg w s' := by
  have hcases := turn_turned cfg w s
  rw [hturn] at hcases
  have hrest : (∀ r ∈ s'.requests, ∀ st, r.answer = .ok st → st.status = "completed" →
      x = .returned (st.result.getD ∅)) ∧ s'.slept ≤ cfg.timeout ∧ s'.cancels = x.owed ∧
      ((s'.requests.IsChain fun p q => p.time + p.hint ≤ q.time) ↔ Patient cfg w s') := by
    have hask (hlast : ∀ st, w.answer s.requests.length = .ok st → st.status = "completed" →
          x = .returned (st.result.getD ∅)) : ∀ r ∈ (s.ask w).requests, ∀ st,
        r.answer = .ok st → st.status = "completed" → x = .returned (st.result.getD ∅) := by
      intro r hr st hanswer hdone
      rcases List.mem_append.1 hr with hr | hr
      · exact absurd hdone (hs.not_completed hr hanswer)
      · cases List.mem_singleton.1 hr
        exact hlast st hanswer hdone
    cases hcases with
    | guarded hover howed hx =>
      refine ⟨fun r hr st hanswer hdone => absurd hdone (hs.not_completed hr hanswer),
        hs.slept_le, ?_, hs.spaced_iff hover⟩
      rw [howed, Polling.cancel, hs.cancels_eq]
    | raised hover hanswer =>
      refine ⟨hask fun st h => ?_, hs.slept_le, hs.cancels_eq, hs.ask_spaced_iff hover ?_⟩
      · cases hanswer.symm.trans h
      · intro st h
        cases hanswer.symm.trans h
    | completed hover hanswer hdone =>
      refine ⟨hask fun st h _ => ?_, hs.slept_le, hs.cancels_eq, hs.ask_spaced_iff hover ?_⟩
      · cases hanswer.symm.trans h
        rfl
      · intro st h hworking
        cases hanswer.symm.trans h
        exact hworking.1 hdone
    | failed hover hanswer hdone hend =>
      refine ⟨hask fun st h hst => ?_, hs.slept_le, hs.cancels_eq, hs.ask_spaced_iff hover ?_⟩
      · cases hanswer.symm.trans h
        exact absurd hst hdone
      · intro st h
        cases hanswer.symm.trans h
        exact hend
  obtain ⟨hreturned, hslept, hcancels, hspaced⟩ := hrest
  rw [← hspaced]
  exact ⟨fun h => h.spaced, fun h => ⟨h, hslept, hreturned, hcancels⟩⟩

end

section
variable [EmptyCollection ρ] {cfg : PollSettings} {w : World ρ ε} {s : Polling ρ ε} {n : Nat}

theorem Going.turn_again (hs : Going cfg w s) (h : turn cfg w s = .inr s') :
    Going cfg w s' ∧ (s.slept + cfg.interval ≤ s'.slept ∨ s'.slept = cfg.timeout) := by
  have hcases := turn_turned cfg w s
  rw [h] at hcases
  cases hcases with
  | @again st hover hanswer hworking =>
    refine ⟨hs.again hover hanswer hworking, ?_⟩
    show s.slept + cfg.interval ≤ s.slept + _ ∨ s.slept + _ = cfg.timeout
    rcases pause_cases cfg s.interval st.hint hs.remaining with heq | heq
    · left
      rw [heq]
      have hge : cfg.interval ≤ min (max s.interval st.hint) cfg.maxInterval :=
        le_min (le_max_of_le_left hs.interval_ge) cfg.interval_le_max
      linarith
    · right
      rw [heq, hs.slept_eq]
      ring

theorem Going.not_again (hs : Going cfg w s) (htime : cfg.timeout ≤ s.slept) :
    turn cfg w s ≠ .inr s' := by
  intro hturn
  have hcases := turn_turned cfg w s
  rw [hturn] at hcases
  cases hcases with
  | again hover _ _ =>
    apply hover
    right
    rw [← hs.slept_eq]
    exact htime

theorem Going.ends (hs : Going cfg w s) (hleft : cfg.timeout - s.slept ≤ n * cfg.interval) :
    ∃ r, (∀ m > n, poll cfg w m s = some r) ∧ (Kept cfg r.1 r.2 ↔ Patient cfg w r.2) := by
  apply Loop.iterate_ends
    (I := fun n s => Going cfg w s ∧ cfg.timeout - s.slept ≤ n * cfg.interval) _ _ _ ⟨hs, hleft⟩
  · intro s t ⟨hs, hleft⟩
    rw [Nat.cast_zero, zero_mul] at hleft
    exact hs.not_again (sub_nonpos.1 hleft)
  · intro n s t ⟨hs, hleft⟩ hturn
    obtain ⟨ht, hslept⟩ := hs.turn_again hturn
    refine ⟨ht, ?_⟩
    rcases hslept with hmore | hall
    · rw [Nat.cast_succ, add_mul, one_mul] at hleft
      linarith
    · rw [hall, sub_self]
      exact mul_nonneg n.cast_nonneg (le_of_lt cfg.interval_pos)
  · intro n s r ⟨hs, _⟩ hturn
    exact hs.leave hturn

end

/-- Every wait ends, and it keeps to everything exactly when each `pollIntervalMs` that the ceiling
cuts short is followed by no further request. -/
theorem poll_kept_iff [EmptyCollection ρ] (cfg : PollSettings) (w : World ρ ε) :
    ∃ n x s, (∀ m > n, poll cfg w m (.begin cfg w) = some (x, s)) ∧
      (Kept cfg x s ↔ Patient cfg w s) := by
  obtain ⟨n, hn⟩ := exists_nat_ge (cfg.timeout / cfg.interval)
  have hleft : cfg.timeout - (Polling.begin cfg w).slept ≤ n * cfg.interval := by
    rw [Polling.begin, sub_zero]
    exact (div_le_iff₀ cfg.interval_pos).1 hn
  obtain ⟨⟨x, s⟩, hpoll, hkept⟩ := (going_begin cfg w).ends hleft
  exact ⟨n, x, s, hpoll, hkept⟩

def slowServer : World (List Nat) Empty where
  answer n := .ok (if n = 0 then { status := "working", pollIntervalMs := some 60000 }
    else { status := "completed" })

def defaultPolling : PollSettings where
  interval := 1
  maxInterval := 15
  timeout := 900
  interval_pos := by norm_num
  max_pos := by norm_num
  timeout_pos := by norm_num
  interval_le_max := by norm_num

/-- A server that asks for a minute between two requests is asked again after 15 seconds. -/
theorem poll_rushed : ∃ n x s,
    poll defaultPolling slowServer n (.begin defaultPolling slowServer) = some (x, s) ∧
      ¬ Kept defaultPolling x s := by
  have hrun : (poll defaultPolling slowServer 2 (.begin defaultPolling slowServer)).map
      (fun p => p.2.requests.map fun r => (r.time, r.hint)) = some [(0, 60), (15, 0)] := by
    decide +kernel
  obtain ⟨⟨x, s⟩, hpoll, hlog⟩ := Option.map_eq_some_iff.1 hrun
  refine ⟨2, x, s, hpoll, fun h => ?_⟩
  have hspaced : (s.requests.map fun r => (r.time, r.hint)).IsChain
      fun p q => p.1 + p.2 ≤ q.1 := (List.isChain_map _).2 h.spaced
  rw [hlog, List.isChain_cons_cons] at hspaced
  exact absurd hspaced.1 (by norm_num)

end Prismal.Mcp
