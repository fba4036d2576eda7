import Mathlib.Algebra.GroupWithZero.Nat
import Mathlib.Algebra.Order.Ring.Unbundled.Rat
import Mathlib.Data.Rat.Floor
import Mathlib.Tactic.Linarith
import Prismal.Lib.Dict
import Prismal.Lib.Lists
import Prismal.Lib.Run
import Prismal.Lib.State

namespace Prismal.A2A.DeviceCode
open Prismal.Lib
set_option autoImplicit true

/-! The device authorization grant: the numbers of the server, and the polling of the token
endpoint. Times are exact, in seconds; they pass in the sleeps only. -/

abbrev PyStr := List Nat

def text (s : String) : PyStr := s.toList.map Char.toNat

/-- `str.encode` -/
def encodable (s : PyStr) : Bool := s.all fun c => c < 0xD800 || 0xDFFF < c

inductive PyFloat where
  | fin (q : Rat)
  | inf
  | negInf
  | nan

/-- A value that `json.loads` returns. -/
inductive Json where
  | null
  | bool (b : Bool)
  | int (n : Int)
  | float (x : PyFloat)
  | str (s : PyStr)
  | arr (xs : List Json)
  | obj (es : List (String × Json))

def Json.truthy : Json → Bool
  | .null => false
  | .bool b => b
  | .int n => n ≠ 0
  | .float (.fin q) => q ≠ 0
  | .float _ => true
  | .str s => !s.isEmpty
  | .arr xs => !xs.isEmpty
  | .obj es => !es.isEmpty

inductive PyError where
  | typeError
  | valueError
  | overflowError
  deriving DecidableEq

/-- `int` and `float` of a text, where it is a numeral. -/
structure Readers where
  int : PyStr → Option Int
  float : PyStr → Option PyFloat

def floatLimit : Nat := 2 ^ 1024 - 2 ^ 970

def intToFloat (n : Int) : Except PyError PyFloat :=
  if floatLimit ≤ n.natAbs then .error .overflowError else .ok (.fin n)

/-- `int(value)` -/
def toInt (R : Readers) : Json → Except PyError Int
  | .null => .error .typeError
  | .bool b => .ok (if b then 1 else 0)
  | .int n => .ok n
  | .float (.fin q) => .ok (Int.tdiv q.num q.den)
  | .float .nan => .error .valueError
  | .float _ => .error .overflowError
  | .str s => (R.int s).elim (.error .valueError) .ok
  | .arr _ => .error .typeError
  | .obj _ => .error .typeError

/-- `float(value)` -/
def toFloat (R : Readers) : Json → Except PyError PyFloat
  | .null => .error .typeError
  | .bool b => .ok (.fin (if b then 1 else 0))
  | .int n => intToFloat n
  | .float x => .ok x
  | .str s => (R.float s).elim (.error .valueError) .ok
  | .arr _ => .error .typeError
  | .obj _ => .error .typeError

inductive OAuthError where
  | unreachable
  | deviceFailed (status : Int)
  | malformed
  | expired
  | noAccessToken
  | denied (reason : Json ⊕ Int)

/-- What the flow raises: its own error, or one of Python that nothing turns into it. -/
inductive Raised where
  | oauth (e : OAuthError)
  | python (e : PyError)

/-- What a request comes back with; no response stands for a transport error and for a body that is
not JSON. -/
inductive Answer where
  | unreachable
  | response (status : Int) (body : Json)

/-- `_post` -/
def post : Answer → Except Raised (Int × Dict String Json)
  | .unreachable => .error (.oauth .unreachable)
  | .response status (.obj es) => .ok (status, Dict.collect es)
  | .response status _ => .ok (status, Dict.collect [])

structure Accepted where
  token : PyStr
  ttl : PyFloat
  refresh : Option PyStr

def ttlOf (R : Readers) : Option Json → Except PyError PyFloat
  | some (.bool b) => toFloat R (.bool b)
  | some (.int n) => toFloat R (.int n)
  | some (.float x) => toFloat R (.float x)
  | _ => .ok (.fin 3600)

def refreshOf : Option Json → Option PyStr
  | some (.str s) => if s = [] then none else some s
  | _ => none

/-- The nonempty `access_token` of a body. -/
def accessToken (body : Dict String Json) : Option PyStr := refreshOf (body.get? "access_token")

/-- `_accept`; the audit log takes a hash of the encoded token. -/
def accept (R : Readers) (audit : Bool) (body : Dict String Json) : Except Raised Accepted :=
  match accessToken body with
  | none => .error (.oauth .noAccessToken)
  | some token =>
    match ttlOf R (body.get? "expires_in") with
    | .error e => .error (.python e)
    | .ok ttl =>
      if audit && !encodable token then .error (.python .valueError)
      else .ok ⟨token, ttl, refreshOf (body.get? "refresh_token")⟩

/-- `_MIN_DEVICE_INTERVAL_S` -/
def minDeviceInterval : Rat := 5

/-- The interval of the server, with the floor, which `nan` does not reach, and then the cap. -/
def clampInterval (maxWait : Rat) (interval : PyFloat) : Rat :=
  let cap := max maxWait minDeviceInterval
  match interval with
  | .fin q => min (if minDeviceInterval ≤ q then q else minDeviceInterval) cap
  | .inf => cap
  | .negInf => min minDeviceInterval cap
  | .nan => min minDeviceInterval cap

structure Grant where
  deviceCode : PyStr
  expiresIn : Int
  interval : Rat

/-- A `TypeError` or a `ValueError` is a malformed response. -/
def malformed : Except PyError α → Except Raised α
  | .ok a => .ok a
  | .error .overflowError => .error (.python .overflowError)
  | .error _ => .error (.oauth .malformed)

section
variable (R : Readers) (audit : Bool) (maxWait : Nat) (grant : Answer) (tokens : Nat → Answer)

def expiresField (body : Dict String Json) : Json :=
  (body.get? "expires_in").getD (.int maxWait)

def intervalField (body : Dict String Json) : Json :=
  (body.get? "interval").getD (.float (.fin minDeviceInterval))

def settle (code : PyStr) (body : Dict String Json) : Except Raised Grant := do
  let expiresIn ← malformed (toInt R (expiresField maxWait body))
  let interval ← malformed (toFloat R (intervalField body))
  if floatLimit ≤ maxWait then .error (.python .overflowError)
  else .ok ⟨code, max 0 (min expiresIn maxWait), clampInterval maxWait interval⟩

/-- The `device_code` of a response, where it is a string. -/
def deviceCode (body : Dict String Json) : Option PyStr :=
  match body.get? "device_code" with
  | some (.str code) => some code
  | _ => none

/-- `_interactive` up to the prompt. -/
def authorize : Except Raised Grant :=
  match post grant with
  | .error e => .error e
  | .ok (status, body) =>
    match deviceCode body with
    | some code =>
      if status = 200 then settle R maxWait code body else .error (.oauth (.deviceFailed status))
    | none => .error (.oauth (.deviceFailed status))

/-- A token request that was posted, and its answer. -/
structure Post where
  time : Rat
  answer : Answer

structure Waiting where
  now : Rat
  interval : Rat
  posts : List Post := []

def isText (s : String) : Option Json → Bool
  | some (.str t) => t == text s
  | _ => false

def reason (status : Int) : Option Json → Json ⊕ Int
  | some error => if error.truthy then .inl error else .inr status
  | none => .inr status

abbrev Outcome := Except Raised Accepted × Waiting

def answered (s : Waiting) (answer : Answer) : Outcome ⊕ Waiting :=
  match post answer with
  | .error e => .inl (.error e, s)
  | .ok (status, body) =>
    if status = 200 then .inl (accept R audit body, s)
    else if isText "authorization_pending" (body.get? "error") then .inr s
    else if isText "slow_down" (body.get? "error") then .inr { s with interval := s.interval + 5 }
    else .inl (.error (.oauth (.denied (reason status (body.get? "error")))), s)

/-- One turn of the loop of `_interactive`. -/
def turn (deadline : Rat) (s : Waiting) : Outcome ⊕ Waiting :=
  let now := s.now + s.interval
  if deadline ≤ now then .inl (.error (.oauth .expired), { s with now := now })
  else
    let answer := tokens s.posts.length
    answered R audit { s with now := now, posts := s.posts ++ [⟨now, answer⟩] } answer

/-- `_interactive`, of at most so many turns. -/
def interactive (start : Rat) (n : Nat) : Option Outcome :=
  match authorize R maxWait grant with
  | .error e => some (.error e, { now := start, interval := minDeviceInterval })
  | .ok g =>
    Loop.iterate (turn R audit tokens (start + g.expiresIn)) n
      { now := start, interval := g.interval }

end

/-- `x ≤ d`; a server that says `nan` has asked for nothing. -/
def PyFloat.Le (d : Rat) : PyFloat → Prop
  | .fin q => q ≤ d
  | .inf => False
  | .negInf => True
  | .nan => True

def Apart (x : PyFloat) (slowDowns : Nat) (d : Rat) : Prop :=
  minDeviceInterval + 5 * slowDowns ≤ d ∧ x.Le (d - 5 * slowDowns)

def saysSlowDown (p : Post) : Bool :=
  match post p.answer with
  | .ok (status, body) => status ≠ 200 && isText "slow_down" (body.get? "error")
  | .error _ => false

def slowDowns (ps : List Post) : Nat := ps.countP saysSlowDown

def Spaced (x : PyFloat) (ps : List Post) : Prop :=
  AtEach (fun pre q => ∀ p ∈ pre.getLast?, Apart x (slowDowns pre) (q.time - p.time)) ps

structure Kept (R : Readers) (maxWait : Nat) (grant : Answer) (start : Rat) (r : Outcome) :
    Prop where
  timely : r.2.now ≤ start + maxWait + r.2.interval
  before : ∀ g, authorize R maxWait grant = .ok g → ∀ p ∈ r.2.posts, p.time < start + g.expiresIn
  spaced : ∀ status body x, post grant = .ok (status, body) →
    toFloat R (intervalField body) = .ok x → Spaced x r.2.posts
  settled : ∀ e, r.1 ≠ .error (.python e)

def Json.infinite : Json → Bool
  | .float .inf => true
  | .float .negInf => true
  | _ => false

def Json.huge : Json → Bool
  | .int n => floatLimit ≤ n.natAbs
  | _ => false

/-- The numbers of a device authorization response can be converted, or are of a kind whose
conversion is seen to fail. -/
def TameGrant (R : Readers) (maxWait : Nat) (grant : Answer) : Prop :=
  ∀ body code, post grant = .ok (200, body) → deviceCode body = some code →
    (expiresField maxWait body).infinite = false ∧
      ((∃ n, toInt R (expiresField maxWait body) = .ok n) →
        (intervalField body).huge = false ∧
          ((∃ x, toFloat R (intervalField body) = .ok x) → maxWait < floatLimit))

/-- A token that is granted can be taken: its lifetime is no huge integer, and the audit log, where
there is one, can encode it. -/
def TameToken (audit : Bool) (answer : Answer) : Prop :=
  ∀ body token, post answer = .ok (200, body) → accessToken body = some token →
    (∀ v, body.get? "expires_in" = some v → v.huge = false) ∧
      (audit = true → encodable token = true)

theorem intToFloat_overflow : intToFloat n = .error err ↔
    floatLimit ≤ n.natAbs ∧ err = .overflowError := by
  rw [intToFloat]
  by_cases h : floatLimit ≤ n.natAbs
  · rw [if_pos h, and_iff_right h]
    exact ⟨fun h => by cases h; rfl, fun h => by rw [h]⟩
  · rw [if_neg h]
    exact ⟨fun h => (by cases h), fun h' => absurd h'.1 h⟩

theorem toInt_overflow {R : Readers} :
    toInt R v = .error .overflowError ↔ v.infinite = true := by
  cases v with
  | float x => cases x <;> simp [toInt, Json.infinite]
  | str s => cases h : R.int s <;> simp [toInt, Json.infinite, h]
  | _ => simp [toInt, Json.infinite]

theorem toFloat_overflow {R : Readers} :
    toFloat R v = .error .overflowError ↔ v.huge = true := by
  cases v with
  | int n =>
    rw [toFloat, intToFloat_overflow, and_iff_left rfl, Json.huge, decide_eq_true_iff]
  | str s => cases h : R.float s <;> simp [toFloat, Json.huge, h]
  | _ => simp [toFloat, Json.huge]

theorem settle_python {R : Readers} : (∃ e, settle R maxWait code body = .error (.python e)) ↔
    (expiresField maxWait body).infinite = true ∨
      (∃ n, toInt R (expiresField maxWait body) = .ok n) ∧
        ((intervalField body).huge = true ∨
          (∃ x, toFloat R (intervalField body) = .ok x) ∧ floatLimit ≤ maxWait) := by
  rw [← toInt_overflow (R := R), ← toFloat_overflow (R := R), settle]
  cases hexpires : toInt R (expiresField maxWait body) with
  | error err =>
    cases err <;> simp [malformed, bind, Except.bind]
  | ok n =>
    cases hinterval : toFloat R (intervalField body) with
    | error err => cases err <;> simp [malformed, bind, Except.bind]
    | ok x =>
      by_cases hlimit : floatLimit ≤ maxWait
      · simp [malformed, bind, Except.bind, hlimit]
      · simp [malformed, bind, Except.bind, hlimit]

theorem post_oauth (h : post answer = .error e) : e = .oauth .unreachable := by
  cases answer with
  | unreachable =>
    cases h
    rfl
  | response status body => cases body <;> cases h

theorem authorize_python {R : Readers} :
    (∀ e, authorize R maxWait grant ≠ .error (.python e)) ↔ TameGrant R maxWait grant := by
  cases hpost : post grant with
  | error e =>
    apply iff_of_true
    · intro e' h
      rw [authorize, hpost, post_oauth hpost] at h
      cases h
    · intro body code h
      cases hpost.symm.trans h
  | ok p =>
    obtain ⟨status, body⟩ := p
    cases hcode : deviceCode body with
    | none =>
      apply iff_of_true
      · intro e h
        simp only [authorize, hpost, hcode] at h
        cases h
      · intro body' code h hcode'
        cases hpost.symm.trans h
        cases hcode.symm.trans hcode'
    | some code =>
      by_cases hstatus : status = 200
      · subst hstatus
        have hsettle : authorize R maxWait grant = settle R maxWait code body := by
          simp only [authorize, hpost, hcode, if_true]
        rw [hsettle, ← not_exists, settle_python, not_or, not_and, not_or, not_and,
          Bool.not_eq_true, Bool.not_eq_true, Nat.not_le]
        apply Iff.intro
        · intro h body' code' h' _
          cases hpost.symm.trans h'
          exact h
        · intro h
          exact h body code hpost hcode
      · apply iff_of_true
        · intro e h
          simp only [authorize, hpost, hcode, if_neg hstatus] at h
          cases h
        · intro body' code' h
          cases hpost.symm.trans h
          exact absurd rfl hstatus

theorem ttlOf_error {R : Readers} :
    (∃ e, ttlOf R v = .error e) ↔ ∃ w, v = some w ∧ w.huge = true := by
  cases v with
  | none => simp [ttlOf]
  | some v =>
    cases v with
    | int n =>
      simp only [ttlOf, toFloat, intToFloat_overflow, Json.huge, Option.some.injEq,
        exists_eq_left', decide_eq_true_iff]
      exact ⟨fun h => h.choose_spec.1, fun h => ⟨_, h, rfl⟩⟩
    | _ => simp [ttlOf, toFloat, Json.huge]

theorem accept_python {R : Readers} :
    (∀ e, accept R audit body ≠ .error (.python e)) ↔ ∀ token, accessToken body = some token →
      (∀ v, body.get? "expires_in" = some v → v.huge = false) ∧
        (audit = true → encodable token = true) := by
  cases htoken : accessToken body with
  | none =>
    apply iff_of_true
    · intro e h
      simp only [accept, htoken] at h
      cases h
    · intro token h
      cases h
  | some token =>
    cases httl : ttlOf R (body.get? "expires_in") with
    | error err =>
      obtain ⟨v, hv, hhuge⟩ := ttlOf_error.1 ⟨err, httl⟩
      apply iff_of_false
      · intro h
        apply h err
        simp only [accept, htoken, httl]
      · intro h
        rw [(h token rfl).1 v hv] at hhuge
        cases hhuge
    | ok ttl =>
      have hsmall : ∀ v, body.get? "expires_in" = some v → v.huge = false := by
        intro v hv
        rw [← Bool.not_eq_true]
        intro hhuge
        obtain ⟨err, herr⟩ := ttlOf_error.2 ⟨v, hv, hhuge⟩
        cases httl.symm.trans herr
      by_cases hbad : (audit && !encodable token) = true
      · apply iff_of_false
        · intro h
          apply h .valueError
          simp only [accept, htoken, httl, if_pos hbad]
        · intro h
          rw [Bool.and_eq_true, Bool.not_eq_true'] at hbad
          rw [(h token rfl).2 hbad.1] at hbad
          cases hbad.2
      · apply iff_of_true
        · intro e h
          simp only [accept, htoken, httl, if_neg hbad] at h
          cases h
        · intro token' h
          cases h
          refine ⟨hsmall, fun haudit => ?_⟩
          rw [haudit, Bool.true_and, Bool.not_eq_true', Bool.not_eq_false] at hbad
          exact hbad

/-! ### The loop -/

variable {R : Readers} {audit : Bool} {maxWait : Nat} {tokens : Nat → Answer} {start : Rat}
  {g : Grant} {x : PyFloat} {s s' : Waiting} {r : Outcome}

def Waiting.posted (tokens : Nat → Answer) (s : Waiting) : Waiting :=
  { s with
    now := s.now + s.interval
    posts := s.posts ++ [⟨s.now + s.interval, tokens s.posts.length⟩] }

inductive Turned (R : Readers) (audit : Bool) (tokens : Nat → Answer) (deadline : Rat)
    (s : Waiting) : Outcome ⊕ Waiting → Prop
  | expired : deadline ≤ s.now + s.interval →
      Turned R audit tokens deadline s
        (.inl (.error (.oauth .expired), { s with now := s.now + s.interval }))
  | left : s.now + s.interval < deadline →
      ((∀ e, res ≠ .error (.python e)) ↔ TameToken audit (tokens s.posts.length)) →
      Turned R audit tokens deadline s (.inl (res, s.posted tokens))
  | again : s.now + s.interval < deadline →
      (∀ body, post (tokens s.posts.length) ≠ .ok (200, body)) →
      interval = s.interval + 5 * slowDowns [⟨s.now + s.interval, tokens s.posts.length⟩] →
      Turned R audit tokens deadline s (.inr { s.posted tokens with interval := interval })

theorem tameToken_of_refused (h : ∀ body, post answer ≠ .ok (200, body)) :
    TameToken audit answer := by
  intro body token hpost
  exact absurd hpost (h body)

theorem not_ok_of_error (h : post answer = .error e) (body : Dict String Json) :
    post answer ≠ .ok (200, body) := by
  rw [h]
  intro h
  cases h

theorem not_ok_of_status (h : post answer = .ok (status, body)) (hstatus : status ≠ 200)
    (body' : Dict String Json) : post answer ≠ .ok (200, body') := by
  rw [h]
  intro h
  cases h
  exact hstatus rfl

theorem slowDowns_singleton (h : post answer = .ok (status, body)) (hstatus : status ≠ 200) :
    slowDowns [⟨t, answer⟩] = if isText "slow_down" (body.get? "error") = true then 1 else 0 := by
  have hsays : saysSlowDown ⟨t, answer⟩ = isText "slow_down" (body.get? "error") := by
    simp only [saysSlowDown, h, decide_eq_true hstatus, Bool.true_and]
  rw [slowDowns, List.countP_singleton, hsays]

theorem not_slow_of_pending (h : isText "authorization_pending" v = true) :
    isText "slow_down" v = false := by
  cases v with
  | none => cases h
  | some v =>
    cases v with
    | str t =>
      have ht : t = text "authorization_pending" := beq_iff_eq.1 h
      rw [isText, ht]
      decide
    | _ => cases h

theorem turn_turned (R : Readers) (audit : Bool) (tokens : Nat → Answer) (deadline : Rat)
    (s : Waiting) : Turned R audit tokens deadline s (turn R audit tokens deadline s) := by
  by_cases hdeadline : deadline ≤ s.now + s.interval
  · rw [turn, if_pos hdeadline]
    exact .expired hdeadline
  · have hearly := not_le.1 hdeadline
    rw [turn, if_neg hdeadline]
    show Turned R audit tokens deadline s
      (answered R audit (s.posted tokens) (tokens s.posts.length))
    cases hpost : post (tokens s.posts.length) with
    | error e =>
      simp only [answered, hpost]
      apply Turned.left hearly
      apply iff_of_true
      · intro e' h
        rw [post_oauth hpost] at h
        cases h
      · exact tameToken_of_refused (not_ok_of_error hpost)
    | ok p =>
      obtain ⟨status, body⟩ := p
      by_cases hstatus : status = 200
      · subst hstatus
        simp only [answered, hpost, if_true]
        apply Turned.left hearly
        rw [accept_python]
        apply Iff.intro
        · intro h body' token h' htoken
          cases hpost.symm.trans h'
          exact h token htoken
        · intro h token htoken
          exact h body token hpost htoken
      · have hnot := not_ok_of_status hpost hstatus
        have hcount := slowDowns_singleton (t := s.now + s.interval) hpost hstatus
        by_cases hpending : isText "authorization_pending" (body.get? "error") = true
        · simp only [answered, hpost, if_neg hstatus, if_pos hpending]
          apply Turned.again hearly hnot
          rw [hcount, not_slow_of_pending hpending, if_neg Bool.false_ne_true, Nat.cast_zero,
            mul_zero, add_zero]
        · by_cases hslow : isText "slow_down" (body.get? "error") = true
          · simp only [answered, hpost, if_neg hstatus, if_neg hpending, if_pos hslow]
            apply Turned.again hearly hnot
            rw [hcount, if_pos hslow, Nat.cast_one, mul_one]
            rfl
          · simp only [answered, hpost, if_neg hstatus, if_neg hpending, if_neg hslow]
            apply Turned.left hearly
            apply iff_of_true
            · intro e h
              cases h
            · exact tameToken_of_refused hnot

structure Going (x : PyFloat) (start : Rat) (g : Grant) (s : Waiting) : Prop where
  interval_eq : s.interval = g.interval + 5 * slowDowns s.posts
  start_le : start ≤ s.now
  now_le : s.now ≤ start + g.expiresIn
  last : ∀ p ∈ s.posts.getLast?, p.time = s.now
  before : ∀ p ∈ s.posts, p.time < start + g.expiresIn
  spaced : Spaced x s.posts
  refused : ∀ p ∈ s.posts, ∀ body, post p.answer ≠ .ok (200, body)

/-- What a settled grant is like next to what the server asked for. -/
structure Settled (maxWait : Nat) (x : PyFloat) (g : Grant) : Prop where
  nonneg : 0 ≤ g.expiresIn
  le_max : g.expiresIn ≤ maxWait
  floor : minDeviceInterval ≤ g.interval
  asked : g.interval < maxWait → x.Le g.interval

theorem clampInterval_floor (maxWait : Rat) (x : PyFloat) :
    minDeviceInterval ≤ clampInterval maxWait x := by
  have hcap : minDeviceInterval ≤ max maxWait minDeviceInterval := le_max_right _ _
  cases x with
  | fin q =>
    apply le_min _ hcap
    by_cases hq : minDeviceInterval ≤ q
    · rw [if_pos hq]
      exact hq
    · rw [if_neg hq]
  | inf => exact hcap
  | negInf => exact le_min (le_refl _) hcap
  | nan => exact le_min (le_refl _) hcap

theorem clampInterval_asked (h : clampInterval maxWait x < maxWait) :
    x.Le (clampInterval maxWait x) := by
  cases x with
  | fin q =>
    show q ≤ min (if minDeviceInterval ≤ q then q else minDeviceInterval) _
    have hq : q ≤ if minDeviceInterval ≤ q then q else minDeviceInterval := by
      by_cases hle : minDeviceInterval ≤ q
      · rw [if_pos hle]
      · rw [if_neg hle]
        exact le_of_lt (not_le.1 hle)
    apply le_min hq
    by_contra hcap
    -- the cap would be below the interval, so it would be the clamped value
    have hmin : clampInterval maxWait (.fin q) = max (maxWait : Rat) minDeviceInterval :=
      min_eq_right (le_trans (le_of_lt (not_le.1 hcap)) hq)
    rw [hmin] at h
    exact absurd h (not_lt.2 (le_max_left _ _))
  | inf => exact absurd h (not_lt.2 (le_max_left _ _))
  | negInf => trivial
  | nan => trivial

theorem malformed_ok {v : Except PyError α} (h : malformed v = .ok a) : v = .ok a := by
  cases v with
  | ok b =>
    cases h
    rfl
  | error err => cases err <;> cases h

theorem settle_ok (h : settle R maxWait code body = .ok g) :
    ∃ n x, toFloat R (intervalField body) = .ok x ∧
      g = ⟨code, max 0 (min n maxWait), clampInterval maxWait x⟩ := by
  obtain ⟨n, _, h⟩ := except_bind_ok h
  obtain ⟨x, hx, h⟩ := except_bind_ok h
  by_cases hlimit : floatLimit ≤ maxWait
  · rw [if_pos hlimit] at h
    cases h
  · rw [if_neg hlimit] at h
    cases h
    exact ⟨n, x, malformed_ok hx, rfl⟩

theorem authorize_ok (h : authorize R maxWait grant = .ok g) :
    ∃ status body x, post grant = .ok (status, body) ∧
      toFloat R (intervalField body) = .ok x ∧ Settled maxWait x g := by
  cases hpost : post grant with
  | error e =>
    simp only [authorize, hpost] at h
    cases h
  | ok p =>
    obtain ⟨status, body⟩ := p
    cases hcode : deviceCode body with
    | none =>
      simp only [authorize, hpost, hcode] at h
      cases h
    | some code =>
      by_cases hstatus : status = 200
      · simp only [authorize, hpost, hcode, if_pos hstatus] at h
        obtain ⟨n, x, hx, rfl⟩ := settle_ok h
        exact ⟨status, body, x, rfl, hx, {
          nonneg := le_max_left _ _
          le_max := max_le (Int.natCast_nonneg maxWait) (min_le_right _ _)
          floor := clampInterval_floor _ _
          asked := clampInterval_asked }⟩
      · simp only [authorize, hpost, hcode, if_neg hstatus] at h
        cases h

theorem going_begin (h : Settled maxWait x g) :
    Going x start g { now := start, interval := g.interval } where
  interval_eq := by
    rw [slowDowns, List.countP_nil, Nat.cast_zero, mul_zero, add_zero]
  start_le := le_refl _
  now_le := by
    have hnonneg : (0 : Rat) ≤ g.expiresIn := Int.cast_nonneg h.nonneg
    show start ≤ start + g.expiresIn
    linarith
  last _ hp := by cases hp
  before _ hp := absurd hp List.not_mem_nil
  spaced := atEach_nil
  refused _ hp := absurd hp List.not_mem_nil

theorem Going.posted_spaced (hs : Going x start g s) (h : Settled maxWait x g)
    (hearly : s.now + s.interval < start + g.expiresIn) : Spaced x (s.posted tokens).posts := by
  apply atEach_concat hs.spaced
  intro p hp
  have hstart := hs.start_le
  have hmax : (g.expiresIn : Rat) ≤ maxWait := by
    have hle := h.le_max
    exact_mod_cast hle
  have hslow : (0 : Rat) ≤ 5 * slowDowns s.posts := by positivity
  have hasked := h.asked (by
    have heq := hs.interval_eq
    linarith)
  have hpass : s.now + s.interval - p.time = g.interval + 5 * slowDowns s.posts := by
    rw [hs.last p hp, hs.interval_eq]
    ring
  show Apart x (slowDowns s.posts) (s.now + s.interval - p.time)
  rw [hpass]
  apply And.intro
  · exact add_le_add_left h.floor _
  · rw [add_sub_cancel_right]
    exact hasked

theorem Going.posted_before (hs : Going x start g s)
    (hearly : s.now + s.interval < start + g.expiresIn) :
    ∀ p ∈ (s.posted tokens).posts, p.time < start + g.expiresIn :=
  List.forall_mem_append.2 ⟨hs.before, List.forall_mem_singleton.2 hearly⟩

theorem slowDowns_append (ps qs : List Post) :
    slowDowns (ps ++ qs) = slowDowns ps + slowDowns qs := List.countP_append

theorem Going.interval_floor (hs : Going x start g s) (h : Settled maxWait x g) :
    minDeviceInterval ≤ s.interval := by
  have hslow : (0 : Rat) ≤ 5 * slowDowns s.posts := by positivity
  have hfloor := h.floor
  rw [hs.interval_eq]
  linarith

theorem Going.again (hs : Going x start g s) (h : Settled maxWait x g)
    (hturn : turn R audit tokens (start + g.expiresIn) s = .inr s') :
    Going x start g s' ∧ s.now + minDeviceInterval ≤ s'.now := by
  have hfloor := hs.interval_floor h
  have hcases := turn_turned R audit tokens (start + g.expiresIn) s
  rw [hturn] at hcases
  cases hcases with
  | again hearly hrefused hinterval =>
    refine ⟨?_, add_le_add_right hfloor s.now⟩
    exact {
      interval_eq := by
        show _ = g.interval + 5 * (slowDowns (s.posted tokens).posts : Rat)
        rw [Waiting.posted, slowDowns_append, Nat.cast_add, mul_add, ← add_assoc,
          ← hs.interval_eq]
        exact hinterval
      start_le := by
        have hstart := hs.start_le
        have hpos : (0 : Rat) ≤ minDeviceInterval := by norm_num [minDeviceInterval]
        show start ≤ s.now + s.interval
        linarith
      now_le := le_of_lt hearly
      last := by
        intro p hp
        have hlast : (s.posted tokens).posts.getLast? =
            some ⟨s.now + s.interval, tokens s.posts.length⟩ := List.getLast?_concat
        cases hlast.symm.trans hp
        rfl
      before := hs.posted_before hearly
      spaced := hs.posted_spaced h hearly
      refused := List.forall_mem_append.2
        ⟨hs.refused, List.forall_mem_singleton.2 hrefused⟩ }

structure Left (audit : Bool) (maxWait : Nat) (x : PyFloat) (start : Rat) (g : Grant)
    (r : Outcome) : Prop where
  timely : r.2.now ≤ start + maxWait + r.2.interval
  before : ∀ p ∈ r.2.posts, p.time < start + g.expiresIn
  spaced : Spaced x r.2.posts
  settled : (∀ e, r.1 ≠ .error (.python e)) ↔ ∀ p ∈ r.2.posts, TameToken audit p.answer

theorem Going.leave (hs : Going x start g s) (h : Settled maxWait x g)
    (hturn : turn R audit tokens (start + g.expiresIn) s = .inl r) :
    Left audit maxWait x start g r := by
  have hmax : (g.expiresIn : Rat) ≤ maxWait := by
    have hle := h.le_max
    exact_mod_cast hle
  have htimely : s.now + s.interval ≤ start + maxWait + s.interval := by
    have hnow := hs.now_le
    linarith
  have hold : ∀ p ∈ s.posts, TameToken audit p.answer := fun p hp =>
    tameToken_of_refused (hs.refused p hp)
  have hcases := turn_turned R audit tokens (start + g.expiresIn) s
  rw [hturn] at hcases
  cases hcases with
  | expired _ =>
    exact {
      timely := htimely
      before := hs.before
      spaced := hs.spaced
      settled := iff_of_true (fun e h => by cases h) hold }
  | left hearly htame =>
    exact {
      timely := htimely
      before := hs.posted_before hearly
      spaced := hs.posted_spaced h hearly
      settled := htame.trans
        ⟨fun hlast => List.forall_mem_append.2 ⟨hold, List.forall_mem_singleton.2 hlast⟩,
          fun hall => hall _ (List.mem_append_right _ (List.mem_singleton_self _))⟩ }

theorem Going.ends {n : Nat} (hs : Going x start g s) (h : Settled maxWait x g)
    (hleft : start + g.expiresIn - s.now ≤ n) :
    ∃ r, (∀ m > n, Loop.iterate (turn R audit tokens (start + g.expiresIn)) m s = some r) ∧
      Left audit maxWait x start g r := by
  have hmin : (1 : Rat) ≤ minDeviceInterval := by norm_num [minDeviceInterval]
  apply Loop.iterate_ends
    (I := fun n s => Going x start g s ∧ start + g.expiresIn - s.now ≤ n) _ _ _ ⟨hs, hleft⟩
  · intro s t ⟨hs, hleft⟩ hturn
    obtain ⟨ht, hslept⟩ := hs.again h hturn
    have hnow := ht.now_le
    rw [Nat.cast_zero] at hleft
    linarith
  · intro n s t ⟨hs, hleft⟩ hturn
    obtain ⟨ht, hslept⟩ := hs.again h hturn
    rw [Nat.cast_succ] at hleft
    exact ⟨ht, by linarith⟩
  · intro n s r ⟨hs, _⟩ hturn
    exact hs.leave h hturn

/-- The flow always ends, and it keeps to everything exactly when the numbers that it converts and
the token that it takes are of the tame kind. -/
theorem interactive_kept_iff (R : Readers) (audit : Bool) (maxWait : Nat) (grant : Answer)
    (tokens : Nat → Answer) (start : Rat) :
    ∃ n r, (∀ m > n, interactive R audit maxWait grant tokens start m = some r) ∧
      (Kept R maxWait grant start r ↔
        TameGrant R maxWait grant ∧ ∀ p ∈ r.2.posts, TameToken audit p.answer) := by
  cases hauthorize : authorize R maxWait grant with
  | error e =>
    refine ⟨0, (.error e, { now := start, interval := minDeviceInterval }), ?_, ?_⟩
    · intro m _
      simp only [interactive, hauthorize]
    · rw [← authorize_python, hauthorize]
      apply Iff.intro
      · intro h
        refine ⟨fun e' he' => ?_, fun p hp => absurd hp List.not_mem_nil⟩
        cases he'
        exact h.settled e' rfl
      · intro h
        have hpos : (0 : Rat) ≤ minDeviceInterval := by norm_num [minDeviceInterval]
        have hmax : (0 : Rat) ≤ maxWait := maxWait.cast_nonneg
        exact {
          timely := by
            show start ≤ start + maxWait + minDeviceInterval
            linarith
          before := fun g hg => by cases hauthorize.symm.trans hg
          spaced := fun _ _ _ _ _ => atEach_nil
          settled := fun e' he' => h.1 e' (by cases he'; rfl) }
  | ok g =>
    obtain ⟨status, body, x, hpost, hx, hg⟩ := authorize_ok hauthorize
    have hleft : start + g.expiresIn - start ≤ (maxWait : Rat) := by
      have hle := hg.le_max
      rw [add_sub_cancel_left]
      exact_mod_cast hle
    obtain ⟨r, hrun, h⟩ :=
      (going_begin hg).ends (R := R) hg hleft
    refine ⟨maxWait, r, fun m hm => ?_, ?_⟩
    · simp only [interactive, hauthorize]
      exact hrun m hm
    · have htame : TameGrant R maxWait grant := by
        rw [← authorize_python, hauthorize]
        intro e h
        cases h
      rw [and_iff_right htame, ← h.settled]
      apply Iff.intro
      · intro hkept
        exact hkept.settled
      · intro hsettled
        exact {
          timely := h.timely
          before := by
            intro g' hg'
            cases hauthorize.symm.trans hg'
            exact h.before
          spaced := by
            intro status' body' x' hpost' hx'
            cases hpost.symm.trans hpost'
            cases hx.symm.trans hx'
            exact h.spaced
          settled := hsettled }

/-- An endless lifetime in the response of the server. -/
theorem interactive_overflow : ∃ n r, (∀ m > n, interactive ⟨fun _ => none, fun _ => none⟩ false 600
      (.response 200 (.obj [("device_code", .str (text "d")), ("expires_in", .float .inf)]))
      (fun _ => .unreachable) 0 m = some r) ∧
    ¬ Kept ⟨fun _ => none, fun _ => none⟩ 600
      (.response 200 (.obj [("device_code", .str (text "d")),
        ("expires_in", .float .inf)])) 0 r := by
  refine ⟨0, (.error (.python .overflowError), { now := 0, interval := minDeviceInterval }), ?_, ?_⟩
  · intro m _
    rfl
  · intro h
    exact h.settled .overflowError rfl

end Prismal.A2A.DeviceCode
