import Mathlib.Algebra.Order.Ring.Unbundled.Rat
import Prismal.Lib.Run

namespace Prismal.Events.Webhooks
open Prismal.Lib
set_option autoImplicit true

/-! Webhook deliveries that run side by side, over one table of subscribers. -/

def webhookEvents : List String :=
  ["chat.completed", "skill.executed", "cron.triggered", "security.blocked"]

structure Webhook where
  id : String
  url : String
  secret : String
  events : List String
  active : Bool
  deriving DecidableEq

/-- How a request ends; an exception that is no transport error ends its task. -/
inductive Answer where
  | success
  | refused (status : Nat)
  | transportError
  | crash
  deriving DecidableEq

def Answer.failed : Answer → Bool
  | refused _ | transportError => true
  | _ => false

structure Post where
  url : String
  body : String
  signature : String
  event : String
  answer : Answer

inductive Stage where
  | running
  | exhausted
  | ended (marked : Bool)
  deriving DecidableEq

/-- One `_deliver_with_retry`, and the requests that it has sent. -/
structure Delivery where
  webhook : Webhook
  event : String
  payload : String
  posts : List Post := []
  stage : Stage := .running

/-- The text of a payload at a time, and its signature under a secret. -/
structure Crypto where
  dumps : String → String → Rat → String
  hmac : String → String → String

structure Dispatcher where
  rows : List Webhook
  deliveries : List Delivery := []

inductive Action where
  | dispatch (event payload : String)
  | post (task : Nat) (now : Rat) (answer : Answer)
  | mark (task : Nat) (saved : Bool)

def retryDelays : List Rat := [1, 4, 16]

/-- `_get_matching_webhooks` -/
def matching (rows : List Webhook) (event : String) : List Webhook :=
  rows.filter fun w => w.active && decide (event ∈ w.events)

variable (C : Crypto)

def Delivery.body (d : Delivery) (now : Rat) : String :=
  match d.posts with
  | [] => C.dumps d.event d.payload now
  | p :: _ => p.body

def Delivery.attempt (d : Delivery) (now : Rat) (answer : Answer) : Delivery :=
  if d.webhook.secret = "" then { d with stage := .ended false }
  else
    let body := d.body C now
    let posts := d.posts ++ [⟨d.webhook.url, body, C.hmac d.webhook.secret body, d.event, answer⟩]
    { d with
      posts := posts
      stage := if answer.failed then
        if posts.length < retryDelays.length then .running else .exhausted
      else .ended false }

def markInactive (rows : List Webhook) (id : String) : List Webhook :=
  rows.map fun w => if w.id = id then { w with active := false } else w

namespace Dispatcher

def step (s : Dispatcher) : Action → Dispatcher
  | .dispatch event payload =>
    if event ∈ webhookEvents then
      { s with
        deliveries := s.deliveries ++
          (matching s.rows event).map fun w => { webhook := w, event := event, payload := payload } }
    else s
  | .post task now answer =>
    match s.deliveries[task]? with
    | none => s
    | some d =>
      if d.stage = .running then
        { s with deliveries := s.deliveries.set task (d.attempt C now answer) }
      else s
  | .mark task saved =>
    match s.deliveries[task]? with
    | none => s
    | some d =>
      if d.stage = .exhausted then
        { rows := if saved then markInactive s.rows d.webhook.id else s.rows
          deliveries := s.deliveries.set task { d with stage := .ended saved } }
      else s

def gaveUp (ds : List Delivery) (id : String) : Bool :=
  ds.any fun d => decide (d.stage = .ended true) && decide (d.webhook.id = id)

end Dispatcher

def Progress (posts : List Post) : Stage → Prop
  | .running => posts.length < retryDelays.length ∧ ∀ p ∈ posts, p.answer.failed = true
  | .exhausted | .ended true =>
    posts.length = retryDelays.length ∧ ∀ p ∈ posts, p.answer.failed = true
  | .ended false =>
    posts.length ≤ retryDelays.length ∧ ∀ p ∈ posts.dropLast, p.answer.failed = true

/-- What holds of every delivery: each request carries the one body under the signature of its
subscriber, and each but the last has failed. -/
structure Lawful (d : Delivery) : Prop where
  sent : ∀ p ∈ d.posts, p.url = d.webhook.url ∧ p.event = d.event ∧
    p.signature = C.hmac d.webhook.secret p.body
  same : ∀ p ∈ d.posts, ∀ q ∈ d.posts, p.body = q.body
  secret : d.webhook.secret = "" → d.posts = []
  progress : Progress d.posts d.stage

/-- The delivery goes to a subscriber of its event that was active when the event came. -/
structure Owed (rows : List Webhook) (d : Delivery) : Prop where
  row : d.webhook ∈ rows
  active : d.webhook.active = true
  subscribed : d.event ∈ d.webhook.events
  known : d.event ∈ webhookEvents

variable {C} {d : Delivery} {now : Rat} {answer : Answer} {rows : List Webhook} {s : Dispatcher}
  {task : Nat}

theorem body_eq (h : Lawful C d) (hp : p ∈ d.posts) : p.body = d.body C now := by
  rw [Delivery.body]
  cases hposts : d.posts with
  | nil =>
    rw [hposts] at hp
    cases hp
  | cons q posts => exact h.same p hp q (by rw [hposts]; exact List.mem_cons_self)

theorem Lawful.attempt (h : Lawful C d) (hrunning : d.stage = .running) (now : Rat)
    (answer : Answer) : Lawful C (d.attempt C now answer) := by
  have hprogress := h.progress
  rw [hrunning] at hprogress
  obtain ⟨hlen, hfailed⟩ := hprogress
  rw [Delivery.attempt]
  split
  · next hsecret =>
    rw [h.secret hsecret] at hlen hfailed
    refine ⟨h.sent, h.same, h.secret, ?_⟩
    rw [h.secret hsecret]
    exact ⟨Nat.zero_le _, nofun⟩
  · next hsecret =>
    have hbody : ∀ p ∈ d.posts, p.body = d.body C now := fun p hp => body_eq h hp
    refine ⟨?_, ?_, fun hempty => absurd hempty hsecret, ?_⟩
    · intro p hp
      rcases List.mem_append.1 hp with hp | hp
      · exact h.sent p hp
      · obtain rfl := List.mem_singleton.1 hp
        exact ⟨rfl, rfl, rfl⟩
    · have hall : ∀ p ∈ d.posts ++ [(⟨d.webhook.url, d.body C now,
          C.hmac d.webhook.secret (d.body C now), d.event, answer⟩ : Post)],
          p.body = d.body C now := by
        intro p hp
        rcases List.mem_append.1 hp with hp | hp
        · exact hbody p hp
        · obtain rfl := List.mem_singleton.1 hp
          rfl
      intro p hp q hq
      exact (hall p hp).trans (hall q hq).symm
    · simp only
      rw [List.length_append, List.length_singleton]
      have hmore : answer.failed = true → ∀ p ∈ d.posts ++ [(⟨d.webhook.url, d.body C now,
          C.hmac d.webhook.secret (d.body C now), d.event, answer⟩ : Post)],
          p.answer.failed = true := by
        intro hanswer p hp
        rcases List.mem_append.1 hp with hp | hp
        · exact hfailed p hp
        · obtain rfl := List.mem_singleton.1 hp
          exact hanswer
      split
      · next hanswer =>
        split
        · next hleft => exact ⟨by rw [List.length_append]; exact hleft, hmore hanswer⟩
        · next hfull =>
          refine ⟨?_, hmore hanswer⟩
          rw [List.length_append, List.length_singleton]
          omega
      · refine ⟨?_, ?_⟩
        · rw [List.length_append, List.length_singleton]
          exact hlen
        · rw [List.dropLast_concat]
          exact hfailed

theorem attempt_frame (C : Crypto) (d : Delivery) (now : Rat) (answer : Answer) :
    (d.attempt C now answer).webhook = d.webhook ∧ (d.attempt C now answer).event = d.event := by
  rw [Delivery.attempt]
  split <;> exact ⟨rfl, rfl⟩

theorem attempt_stage (C : Crypto) (d : Delivery) (now : Rat) (answer : Answer) :
    (d.attempt C now answer).stage ≠ .ended true := by
  rw [Delivery.attempt]
  split
  · exact nofun
  · simp only
    split
    · split <;> exact nofun
    · exact nofun

def switchedOff (rows : List Webhook) (ds : List Delivery) : List Webhook :=
  rows.map fun w => if Dispatcher.gaveUp ds w.id then { w with active := false } else w

structure Sound (C : Crypto) (rows : List Webhook) (s : Dispatcher) : Prop where
  lawful : ∀ d ∈ s.deliveries, Lawful C d
  owed : ∀ d ∈ s.deliveries, Owed rows d
  rows : s.rows = switchedOff rows s.deliveries

theorem sound_start (C : Crypto) (rows : List Webhook) : Sound C rows { rows := rows } where
  lawful := nofun
  owed := nofun
  rows := (List.map_id _).symm

theorem any_set {ds : List Delivery} {k : Nat} {d d' : Delivery} (p : Delivery → Bool)
    (h : ds[k]? = some d) (hd : p d = false) : (ds.set k d').any p = (ds.any p || p d') := by
  obtain ⟨hlt, hget⟩ := List.getElem?_eq_some_iff.1 h
  have hsplit : ds = ds.take k ++ d :: ds.drop (k + 1) := by
    rw [← hget, ← List.drop_eq_getElem_cons hlt, List.take_append_drop]
  have hany : ds.any p = ((ds.take k).any p || (ds.drop (k + 1)).any p) := by
    conv_lhs => rw [hsplit]
    rw [List.any_append, List.any_cons, hd, Bool.false_or]
  rw [List.set_eq_take_append_cons_drop, if_pos hlt, List.any_append, List.any_cons, hany,
    Bool.or_comm (p d'), Bool.or_assoc]

theorem gaveUp_set {ds : List Delivery} {k : Nat} {d d' : Delivery} (h : ds[k]? = some d)
    (hd : d.stage ≠ .ended true) (id' : String) : Dispatcher.gaveUp (ds.set k d') id' =
      (Dispatcher.gaveUp ds id' || decide (d'.stage = .ended true) && decide (d'.webhook.id = id')) :=
  any_set _ h (by rw [decide_eq_false hd, Bool.false_and])

theorem mem_of_active {ds : List Delivery} {w : Webhook} (h : w ∈ switchedOff rows ds)
    (hactive : w.active = true) : w ∈ rows := by
  obtain ⟨w', hw', rfl⟩ := List.mem_map.1 h
  split at hactive
  · cases hactive
  · next hkept =>
    rw [if_neg hkept]
    exact hw'

theorem Sound.dispatch (h : Sound C rows s) (event payload : String) :
    Sound C rows (s.step C (.dispatch event payload)) := by
  rw [Dispatcher.step]
  split
  · next hknown =>
    have hnew : ∀ id', Dispatcher.gaveUp (s.deliveries ++ (matching s.rows event).map fun w =>
        ({ webhook := w, event := event, payload := payload } : Delivery)) id' =
        Dispatcher.gaveUp s.deliveries id' := by
      intro id'
      rw [Dispatcher.gaveUp, List.any_append, List.any_map]
      have hnone : (matching s.rows event).any ((fun d : Delivery => decide (d.stage = .ended true) &&
          decide (d.webhook.id = id')) ∘ fun w => { webhook := w, event := event, payload := payload })
          = false := List.any_eq_false.2 fun w _ => Bool.false_ne_true
      rw [hnone, Bool.or_false]
      rfl
    refine ⟨?_, ?_, ?_⟩
    · intro d hd
      rcases List.mem_append.1 hd with hd | hd
      · exact h.lawful d hd
      · obtain ⟨w, -, rfl⟩ := List.mem_map.1 hd
        exact ⟨nofun, nofun, fun _ => rfl, Nat.zero_lt_succ _, nofun⟩
    · intro d hd
      rcases List.mem_append.1 hd with hd | hd
      · exact h.owed d hd
      · obtain ⟨w, hw, rfl⟩ := List.mem_map.1 hd
        obtain ⟨hrow, hmatch⟩ := List.mem_filter.1 hw
        rw [Bool.and_eq_true, decide_eq_true_eq] at hmatch
        rw [h.rows] at hrow
        exact ⟨mem_of_active hrow hmatch.1, hmatch.1, hmatch.2, hknown⟩
    · rw [switchedOff]
      simp only [hnew]
      exact h.rows
  · exact h

theorem Sound.post (h : Sound C rows s) (task : Nat) (now : Rat) (answer : Answer) :
    Sound C rows (s.step C (.post task now answer)) := by
  rw [Dispatcher.step]
  cases hget : s.deliveries[task]? with
  | none => exact h
  | some d =>
    simp only
    split
    · next hrunning =>
      have hd : d ∈ s.deliveries := List.mem_of_getElem? hget
      obtain ⟨hwebhook, hevent⟩ := attempt_frame C d now answer
      have howed := h.owed d hd
      refine ⟨?_, ?_, ?_⟩
      · intro d' hd'
        rcases List.mem_or_eq_of_mem_set hd' with hd' | rfl
        · exact h.lawful d' hd'
        · exact (h.lawful d hd).attempt hrunning now answer
      · intro d' hd'
        rcases List.mem_or_eq_of_mem_set hd' with hd' | rfl
        · exact h.owed d' hd'
        · exact ⟨hwebhook ▸ howed.row, hwebhook ▸ howed.active, by
            rw [hevent, hwebhook]
            exact howed.subscribed, hevent ▸ howed.known⟩
      · have hsame : ∀ id', Dispatcher.gaveUp (s.deliveries.set task (d.attempt C now answer)) id' =
            Dispatcher.gaveUp s.deliveries id' := by
          intro id'
          rw [gaveUp_set hget (by rw [hrunning]; exact nofun),
            decide_eq_false (attempt_stage C d now answer), Bool.false_and, Bool.or_false]
        rw [switchedOff]
        simp only [hsame]
        exact h.rows
    · exact h

theorem Sound.mark (h : Sound C rows s) (task : Nat) (saved : Bool) :
    Sound C rows (s.step C (.mark task saved)) := by
  rw [Dispatcher.step]
  cases hget : s.deliveries[task]? with
  | none => exact h
  | some d =>
    simp only
    split
    · next hexhausted =>
      have hd : d ∈ s.deliveries := List.mem_of_getElem? hget
      have howed := h.owed d hd
      have hlaw := h.lawful d hd
      have hprogress := hlaw.progress
      rw [hexhausted] at hprogress
      have hended : Progress d.posts (.ended saved) := by
        cases saved with
        | true => exact hprogress
        | false => exact ⟨hprogress.1.le, fun p hp => hprogress.2 p (List.dropLast_subset _ hp)⟩
      have hopen : d.stage ≠ .ended true := by
        rw [hexhausted]
        exact nofun
      have hset := fun id' : String =>
        (gaveUp_set hget hopen id' : Dispatcher.gaveUp
          (s.deliveries.set task { d with stage := .ended saved }) id' = _)
      refine ⟨?_, ?_, ?_⟩
      · intro d' hd'
        rcases List.mem_or_eq_of_mem_set hd' with hd' | rfl
        · exact h.lawful d' hd'
        · exact ⟨hlaw.sent, hlaw.same, hlaw.secret, hended⟩
      · intro d' hd'
        rcases List.mem_or_eq_of_mem_set hd' with hd' | rfl
        · exact h.owed d' hd'
        · exact ⟨howed.row, howed.active, howed.subscribed, howed.known⟩
      · simp only [switchedOff, hset]
        cases saved with
        | false =>
          simp only [Stage.ended.injEq, Bool.false_eq_true, decide_false, Bool.false_and,
            Bool.or_false, if_false]
          exact h.rows
        | true =>
          simp only [decide_true, Bool.true_and, if_true, markInactive, h.rows, switchedOff,
            List.map_map]
          apply List.map_congr_left
          intro w _
          cases hgave : Dispatcher.gaveUp s.deliveries w.id with
          | true =>
            simp only [Function.comp, hgave, if_true, Bool.true_or, ite_self]
          | false =>
            simp only [Function.comp, hgave, Bool.false_eq_true, if_false, Bool.false_or,
              decide_eq_true_eq]
            by_cases hid : w.id = d.webhook.id
            · rw [if_pos hid, if_pos hid.symm]
            · rw [if_neg hid, if_neg (Ne.symm hid)]
    · exact h

/-- Over every interleaving of events, requests and their outcomes: a delivery goes to an active
subscriber of its event, sends one signed body at most three times and never again after a success,
and a webhook is switched off exactly where one of its deliveries has failed three times. -/
theorem deliveries_exact (C : Crypto) (rows : List Webhook) (acts : List Action) :
    let s := Run.final (Dispatcher.step C) { rows := rows } acts
    (∀ d ∈ s.deliveries, Lawful C d ∧ Owed rows d ∧ d.posts.length ≤ retryDelays.length) ∧
    s.rows = rows.map fun w => { w with
      active := w.active && !s.deliveries.any fun d =>
        decide (d.stage = .ended true) && decide (d.webhook.id = w.id) } := by
  intro s
  have hsound : Sound C rows s := by
    apply Run.final_of_invariant (sound_start C rows)
    intro s act h
    cases act with
    | dispatch event payload => exact h.dispatch event payload
    | post task now answer => exact h.post task now answer
    | mark task saved => exact h.mark task saved
  constructor
  · intro d hd
    refine ⟨hsound.lawful d hd, hsound.owed d hd, ?_⟩
    have hprogress := (hsound.lawful d hd).progress
    cases hstage : d.stage with
    | running =>
      rw [hstage] at hprogress
      exact hprogress.1.le
    | exhausted =>
      rw [hstage] at hprogress
      exact hprogress.1.le
    | ended marked =>
      rw [hstage] at hprogress
      cases marked with
      | true => exact hprogress.1.le
      | false => exact hprogress.1
  · rw [hsound.rows, switchedOff]
    apply List.map_congr_left
    intro w _
    rw [Dispatcher.gaveUp]
    split
    · next hgave => rw [hgave, Bool.not_true, Bool.and_false]
    · next hkept => rw [Bool.eq_false_iff.2 hkept, Bool.not_false, Bool.and_true]

end Prismal.Events.Webhooks
