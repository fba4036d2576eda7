import Prismal.Agents.NodePipeline

namespace Prismal.Agents
open Prismal.Lib.Retrying
set_option autoImplicit true

namespace NodePipeline

/-! When a node is tried again, and what its caller gets. -/

/-- The exception that an attempt fails with; one that exceeds its deadline counts as a
`TimeoutError`. -/
def Ending.failure : Ending → Option Raised
  | .returned _ => none
  | .raised e => some e
  | .expired _ => some timeoutError

/-- Attempt `k` fails with an exception that the policy lists, and that is no pause. -/
def Listed (m : NodeMetadata) (endings : Nat → Ending) (k : Nat) : Prop :=
  ∃ e, (endings k).failure = some e ∧ asks m e = true

section

variable (host : NodeHost) (m : NodeMetadata)

/-- What `raise_on_error` and `propagate_errors` say of a failure; a pause goes to the graph. -/
def handled (e : Raised) : Except Raised NodeUpdate :=
  let ofNode := e.isA "NodeTimeoutError" || e.isA "NodeExecutionError"
  if e.isA "GraphInterrupt" || !e.isA "Exception" then .error e
  else if m.propagateErrors && !e.isA "ParentCommand" then .error e
  else if m.raiseOnError then .error (if ofNode then e else nodeExecutionError host m e)
  else
    .ok (errorUpdate m (if ofNode then e.cause else some (e.className, e.text))
      (e.isA "NodeTimeoutError"))

def handedOn (update : NodeUpdate) : Except Raised NodeUpdate :=
  match screened host m update with
  | .error e => handled host m e
  | .ok update => .ok update

def due : Ending → Except Raised NodeUpdate
  | .returned update => handedOn host m update
  | .raised e => handled host m e
  | .expired t => handled host m (nodeTimeoutError host m t timeoutError)

/-- A call of the node does what the policy, the deadline and the flags say. -/
structure AsSpecified (endings : Nat → Ending) (r : Except Raised NodeUpdate × NodeLog) : Prop where
  calls : r.2.count .invoked ≤ attemptLimit m
  last : ∃ n, r.2.count .attempt = n + 1 ∧ Ends (Listed m endings) (attemptLimit m) n ∧
    r.1 = due host m (endings n)
  pauses : ∀ n, r.2.count .attempt = n + 1 → ∀ e, endings n = .raised e →
    e.isA "GraphInterrupt" = true → r.1 = .error e

/-- A `TimeoutError` that the node raises itself before its deadline. -/
def ownTimeout (e : Raised) : Bool := m.timeoutS.isSome && e.isA "TimeoutError"

/-- It makes no difference for attempt `k` that the deadline renames its exception. -/
def Harmless (endings : Nat → Ending) (k : Nat) : Prop :=
  match endings k with
  | .returned _ => True
  | .expired t => k + 1 < attemptLimit m →
    asks m timeoutError = asks m (nodeTimeoutError host m t timeoutError)
  | .raised e => ownTimeout m e = true →
    (k + 1 < attemptLimit m ∧ asks m e = true ∧ asks m (renamed host m e) = true) ∨
      ((k + 1 < attemptLimit m → asks m e = false ∧ asks m (renamed host m e) = false) ∧
        handled host m e = handled host m (renamed host m e))

end

variable {host : NodeHost} {st : NodeSettings} {m : NodeMetadata} {endings : Nat → Ending}

theorem mapError_eq (e : Raised) : mapError host m e = handled host m e := by
  rw [mapError, handled]
  cases e.isA "GraphInterrupt" <;> cases e.isA "Exception" <;> try rfl
  cases m.propagateErrors && !e.isA "ParentCommand" <;> try rfl
  cases m.raiseOnError <;> cases e.isA "NodeTimeoutError" <;> cases e.isA "NodeExecutionError" <;> rfl

theorem delivered_ok (update : NodeUpdate) :
    delivered host m (.ok update) = handedOn host m update := by
  rw [delivered, handedOn]
  cases screened host m update with
  | error e => exact mapError_eq e
  | ok update => rfl

theorem renamed_of_not_own (h : ownTimeout m e = false) : renamed host m e = e := by
  rw [ownTimeout] at h
  rw [renamed]
  cases hts : m.timeoutS with
  | none => rfl
  | some t =>
    rw [hts] at h
    have hno : e.isA "TimeoutError" = false := h
    simp [renameTimeout, hno]

theorem listed_of_raised (h : endings k = .raised e) : Listed m endings k ↔ asks m e = true := by
  rw [Listed, h]
  simp [Ending.failure]

theorem listed_of_expired (h : endings k = .expired t) :
    Listed m endings k ↔ asks m timeoutError = true := by
  rw [Listed, h]
  simp [Ending.failure]

theorem again_of_raised (h : endings k = .raised e) :
    Again m (fun k => (endings k).result host m) k ↔ asks m (renamed host m e) = true := by
  rw [Again, h]
  simp [Ending.result]

theorem again_of_expired (h : endings k = .expired t) :
    Again m (fun k => (endings k).result host m) k ↔
      asks m (nodeTimeoutError host m t timeoutError) = true := by
  rw [Again, h]
  simp [Ending.result]

theorem not_listed_of_returned (h : endings k = .returned update) : ¬ Listed m endings k := by
  rw [Listed, h]
  simp [Ending.failure]

theorem not_again_of_returned (h : endings k = .returned update) :
    ¬ Again m (fun k => (endings k).result host m) k := by
  rw [Again, h]
  simp [Ending.result]

theorem Harmless.listed_iff (h : Harmless host m endings k) (hk : k + 1 < attemptLimit m) :
    Listed m endings k ↔ Again m (fun k => (endings k).result host m) k := by
  rw [Harmless] at h
  cases hend : endings k with
  | returned update =>
    exact iff_of_false (not_listed_of_returned hend) (not_again_of_returned hend)
  | expired t =>
    rw [hend] at h
    rw [listed_of_expired hend, again_of_expired hend, h hk]
  | raised e =>
    rw [hend] at h
    rw [listed_of_raised hend, again_of_raised hend]
    cases hown : ownTimeout m e with
    | false => rw [renamed_of_not_own hown]
    | true =>
      rcases h hown with ⟨-, hasks, hrenamed⟩ | ⟨hnone, -⟩
      · exact iff_of_true hasks hrenamed
      · obtain ⟨hasks, hrenamed⟩ := hnone hk
        rw [hasks, hrenamed]

theorem Harmless.delivered (h : Harmless host m endings k)
    (hstop : ¬ Listed m endings k ∨ k + 1 = attemptLimit m) :
    NodePipeline.delivered host m ((endings k).result host m) = due host m (endings k) := by
  rw [Harmless] at h
  cases hend : endings k with
  | returned update => exact delivered_ok update
  | expired t => exact mapError_eq _
  | raised e =>
    rw [hend] at h
    rw [due, Ending.result, NodePipeline.delivered, mapError_eq]
    cases hown : ownTimeout m e with
    | false => rw [renamed_of_not_own hown]
    | true =>
      rcases h hown with ⟨hlt, hasks, -⟩ | ⟨-, hsame⟩
      · rcases hstop with hno | hlast
        · exact absurd ((listed_of_raised hend).2 hasks) hno
        · exact absurd hlast hlt.ne
      · exact hsame.symm

theorem harmless_of (hagain : k + 1 < attemptLimit m →
      (Listed m endings k ↔ Again m (fun k => (endings k).result host m) k))
    (hdue : ¬ (k + 1 < attemptLimit m ∧ Listed m endings k) →
      NodePipeline.delivered host m ((endings k).result host m) = due host m (endings k)) :
    Harmless host m endings k := by
  rw [Harmless]
  cases hend : endings k with
  | returned update => trivial
  | expired t =>
    intro hk
    have hiff := hagain hk
    rw [listed_of_expired hend, again_of_expired hend] at hiff
    exact Bool.eq_iff_iff.2 hiff
  | raised e =>
    intro hown
    rw [listed_of_raised hend, again_of_raised hend] at hagain
    by_cases hretry : k + 1 < attemptLimit m ∧ asks m e = true
    · exact Or.inl ⟨hretry.1, hretry.2, (hagain hretry.1).1 hretry.2⟩
    · have hlast := hdue fun hno => hretry ⟨hno.1, (listed_of_raised hend).1 hno.2⟩
      rw [hend, due, Ending.result, NodePipeline.delivered, mapError_eq] at hlast
      refine Or.inr ⟨fun hk => ?_, hlast.symm⟩
      have hasks : ¬ asks m e = true := fun hasks => hretry ⟨hk, hasks⟩
      have hrenamed := (not_congr (hagain hk)).1 hasks
      rw [Bool.not_eq_true] at hasks hrenamed
      exact ⟨hasks, hrenamed⟩

theorem count_recorded (r : Except Raised NodeUpdate) :
    (recorded m r).count .attempt = 0 ∧ (recorded m r).count .invoked = 0 := by
  cases r <;> cases haudit : m.audit <;> simp [recorded, haudit]

theorem limit_pos (hmax : ∀ p, m.retry = some p → 1 ≤ p.maxAttempts) : 0 < attemptLimit m := by
  rw [attemptLimit]
  cases hp : m.retry with
  | none => exact Nat.one_pos
  | some p =>
    have hp' := hmax p hp
    dsimp only [Option.elim]
    omega

theorem handled_pause (h : e.isA "GraphInterrupt" = true) : handled host m e = .error e := by
  rw [handled, h]
  rfl

/-- A node is called, tried again and answered for as its policy, its deadline and its flags say
exactly when no attempt is reached for which the renaming of a timeout makes a difference. -/
theorem asSpecified_iff (host : NodeHost) (st : NodeSettings) (m : NodeMetadata)
    (node : Nat → NodeState → Behaviour) (s : NodeState)
    (hmax : ∀ p, m.retry = some p → 1 ≤ p.maxAttempts) :
    AsSpecified host m (ending host st m node (received host m s)) (run host st m node s) ↔
      ∀ k < attemptLimit m, (∀ j < k, Listed m (ending host st m node (received host m s)) j) →
        Harmless host m (ending host st m node (received host m s)) k := by
  have hlimit := limit_pos hmax
  obtain ⟨n, log, hends, hcount, hquiet, hrun⟩ := run_ends host st node s hlimit
  generalize ending host st m node (received host m s) = endings at *
  rw [hrun]
  obtain ⟨hattempt, hinvoked⟩ :=
    count_recorded (m := m) ((endings n).result host m)
  have hcount' : (log ++ recorded m ((endings n).result host m)).count .attempt = n + 1 := by
    rw [List.count_append, hattempt, hcount]
  apply Iff.intro
  · intro h k hk hbefore
    obtain ⟨n', hn', hspec, hresult⟩ := h.last
    obtain rfl : n = n' := by
      have hsame := hcount'.symm.trans hn'
      omega
    have hle : k ≤ n := by
      by_contra hlt
      rcases hspec.stop with hstop | hlast
      · exact hstop (hbefore n (by omega))
      · omega
    apply harmless_of
    · intro hlt
      rcases Nat.lt_or_eq_of_le hle with hkn | rfl
      · exact iff_of_true (hspec.before k hkn) (hends.before k hkn)
      · exact iff_of_false (hspec.stop.resolve_right (by omega)) (hends.stop.resolve_right (by omega))
    · intro hlast
      rcases Nat.lt_or_eq_of_le hle with hkn | rfl
      · have hbelow := hspec.below
        exact absurd ⟨by omega, hspec.before k hkn⟩ hlast
      · exact hresult
  · intro h
    obtain ⟨n', hspec⟩ := exists_ends (Listed m endings) hlimit
    have hharmless : ∀ k ≤ n', Harmless host m endings k := by
      intro k hk
      have hbelow := hspec.below
      exact h k (by omega) fun j hj => hspec.before j (by omega)
    obtain rfl : n = n' :=
      hends.unique (hspec.congr fun k hk hlt => (hharmless k hk).listed_iff hlt)
    have hlast := (hharmless n (Nat.le_refl n)).delivered hspec.stop
    refine ⟨?_, ⟨n, hcount', hspec, hlast⟩, ?_⟩
    · have hcalls := hquiet.calls
      have hbelow := hspec.below
      rw [List.count_append, hinvoked]
      omega
    · intro n' hn' e he hpause
      obtain rfl : n = n' := by
        have hsame := hcount'.symm.trans hn'
        omega
      rw [hlast, he]
      exact handled_pause hpause

def plainHost : NodeHost where
  sanitize text := text
  redactOutput text := some text
  putArtifact _ := none
  check _ := .ok true
  repr text := "'" ++ text ++ "'"

def timedNode : NodeMetadata where
  name := "slow_node"
  security := .off
  audit := false
  retry := some {}
  timeoutS := some ⟨1, "1.0"⟩

def slowOnce (k : Nat) (_ : NodeState) : Behaviour := ⟨.ok {}, decide (0 < k)⟩

theorem asSpecified_iff_prompt :
    AsSpecified plainHost timedNode
        (ending plainHost {} timedNode (fun _ _ => ⟨.ok {}, true⟩) (received plainHost timedNode {}))
        (run plainHost {} timedNode (fun _ _ => ⟨.ok {}, true⟩) {}) ↔
      ∀ k < attemptLimit timedNode,
        (∀ j < k, Listed timedNode (ending plainHost {} timedNode (fun _ _ => ⟨.ok {}, true⟩)
          (received plainHost timedNode {})) j) →
        Harmless plainHost timedNode (ending plainHost {} timedNode (fun _ _ => ⟨.ok {}, true⟩)
          (received plainHost timedNode {})) k :=
  asSpecified_iff plainHost {} timedNode (fun _ _ => ⟨.ok {}, true⟩) {}
    fun p hp => by
      cases hp
      decide

/-- The default policy lists `TimeoutError`, and the node is not tried again after its deadline. -/
theorem timeout_not_retried :
    ¬∀ (host : NodeHost) (st : NodeSettings) (m : NodeMetadata)
      (node : Nat → NodeState → Behaviour) (s : NodeState),
      (∀ p, m.retry = some p → 1 ≤ p.maxAttempts) →
        AsSpecified host m (ending host st m node (received host m s)) (run host st m node s) := by
  intro h
  obtain ⟨n, hcount, hends, -⟩ := (h plainHost {} timedNode slowOnce {} fun p hp => by
    cases hp
    decide).last
  have hone : (run plainHost {} timedNode slowOnce {}).2.count .attempt = 1 := by decide +kernel
  obtain rfl : n = 0 := by omega
  have hend : ending plainHost {} timedNode slowOnce (received plainHost timedNode {}) 0 =
      .expired ⟨1, "1.0"⟩ := by rfl
  rcases hends.stop with hno | hlast
  · exact hno ((listed_of_expired hend).2 (by decide))
  · exact absurd hlast (by decide)

end NodePipeline

namespace NodePipeline

/-! The audit record of a call of a node, beside what the caller gets. -/

def OwnUpdate (endings : Nat → Ending) (log : NodeLog) (update : NodeUpdate) : Prop :=
  ∃ n, log.count .attempt = n + 1 ∧ endings n = .returned update

def Permitted (host : NodeHost) (m : NodeMetadata) (update : NodeUpdate) : Prop :=
  m.security = .strict → checkToolCalls host update = .ok ()

/-- One record, which is `ok` when there is an update of the node, and has the hash of that. -/
structure Audited (endings : Nat → Ending) (log : NodeLog) : Prop where
  one : ∃ record, records log = [record] ∧
    (record.1 = .ok ↔ ∃ update, OwnUpdate endings log update) ∧
      ∀ update, OwnUpdate endings log update → record.2 = some update

variable {host : NodeHost} {st : NodeSettings} {m : NodeMetadata} {endings : Nat → Ending}

theorem records_recorded (hlog : records log = []) (r : Except Raised NodeUpdate) :
    records (log ++ recorded m r) = (recorded m r).filterMap NodeEvent.record? := by
  rw [records] at hlog ⊢
  rw [List.filterMap_append, hlog, List.nil_append]

theorem result_eq_ok {x : Ending} : x.result host m = .ok update ↔ x = .returned update := by
  cases x <;> simp [Ending.result]

theorem result_eq_error {x : Ending} (h : ∀ update, x ≠ .returned update) :
    ∃ e, x.result host m = .error e := by
  cases x with
  | returned update => exact absurd rfl (h update)
  | raised e => exact ⟨_, rfl⟩
  | expired t => exact ⟨_, rfl⟩

theorem messages_of_refused (h : checkToolCalls host update = .error e) :
    update.messages ≠ none := by
  intro hnone
  rw [checkToolCalls, hnone] at h
  cases h

theorem messages_of_handled (h : handled host m e = .ok update) : update.messages = none := by
  rw [handled] at h
  split at h
  · cases h
  split at h
  · cases h
  split at h
  · cases h
  · cases h
    rfl

theorem delivered_eq_ok (update : NodeUpdate) :
    delivered host m (.ok update) = .ok update ↔ Permitted host m update := by
  rw [delivered_ok, handedOn, screened, Permitted]
  by_cases hstrict : m.security = .strict
  · rw [if_pos hstrict]
    cases hcheck : checkToolCalls host update with
    | ok done => exact iff_of_true rfl fun _ => rfl
    | error e =>
      apply iff_of_false
      · intro h
        exact messages_of_refused hcheck (messages_of_handled h)
      · intro h
        cases h hstrict
  · rw [if_neg hstrict]
    exact iff_of_true rfl fun h => absurd h hstrict

theorem ownUpdate_iff (hcount : log.count .attempt = n + 1) :
    OwnUpdate endings log update ↔ endings n = .returned update := by
  apply Iff.intro
  · rintro ⟨n', hn', hupdate⟩
    obtain rfl : n' = n := by omega
    exact hupdate
  · intro h
    exact ⟨n, hcount, h⟩

/-- A call of an audited node leaves one record. It is `ok` when the node has an update, and the
caller gets this update when the permission check lets it through. -/
theorem audited_once (host : NodeHost) (st : NodeSettings) (m : NodeMetadata)
    (node : Nat → NodeState → Behaviour) (s : NodeState) (haudit : m.audit = true)
    (hmax : ∀ p, m.retry = some p → 1 ≤ p.maxAttempts) :
    Audited (ending host st m node (received host m s)) (run host st m node s).2 ∧
      ∀ update,
        OwnUpdate (ending host st m node (received host m s)) (run host st m node s).2 update →
          ((run host st m node s).1 = .ok update ↔ Permitted host m update) := by
  obtain ⟨n, log, -, hcount, hquiet, hrun⟩ := run_ends host st node s (limit_pos hmax)
  generalize ending host st m node (received host m s) = endings at *
  rw [hrun]
  have hcount' : (log ++ recorded m ((endings n).result host m)).count .attempt = n + 1 := by
    rw [List.count_append, (count_recorded _).1, hcount]
  have hrecords := records_recorded (m := m) hquiet.unrecorded ((endings n).result host m)
  refine ⟨⟨?_⟩, ?_⟩
  · simp only [ownUpdate_iff hcount', hrecords]
    by_cases hreturned : ∃ update, endings n = .returned update
    · obtain ⟨update, hupdate⟩ := hreturned
      rw [result_eq_ok.2 hupdate, recorded, if_pos haudit]
      refine ⟨(.ok, some update), rfl, iff_of_true rfl ⟨update, hupdate⟩, ?_⟩
      intro update' hupdate'
      rw [hupdate] at hupdate'
      cases hupdate'
      rfl
    · have hfailed : ∃ e, (endings n).result host m = .error e :=
        result_eq_error fun update hupdate => hreturned ⟨update, hupdate⟩
      obtain ⟨e, he⟩ := hfailed
      rw [he, recorded, if_pos haudit]
      refine ⟨(.error, none), rfl, iff_of_false (by decide) hreturned, ?_⟩
      intro update hupdate
      exact absurd ⟨update, hupdate⟩ hreturned
  · intro update hown
    rw [ownUpdate_iff hcount'] at hown
    rw [result_eq_ok.2 hown]
    exact delivered_eq_ok update

def strictHost : NodeHost := { plainHost with check := fun _ => .ok false }

def strictNode : NodeMetadata where
  name := "shell_node"
  security := .strict

def askShell (_ : Nat) (_ : NodeState) : Behaviour :=
  ⟨.ok { messages := some [{ type := .ai, content := "", toolCalls := ["bash"] }] }, true⟩

theorem audited_once_strict :
    Audited (ending strictHost {} strictNode askShell (received strictHost strictNode {}))
        (run strictHost {} strictNode askShell {}).2 ∧
      ∀ update,
        OwnUpdate (ending strictHost {} strictNode askShell (received strictHost strictNode {}))
            (run strictHost {} strictNode askShell {}).2 update →
          ((run strictHost {} strictNode askShell {}).1 = .ok update ↔
            Permitted strictHost strictNode update) :=
  audited_once strictHost {} strictNode askShell {} rfl fun p hp => by cases hp

/-- The record is `ok` although the update of the node has been refused. -/
theorem refused_audited_ok :
    ¬∀ (host : NodeHost) (st : NodeSettings) (m : NodeMetadata)
      (node : Nat → NodeState → Behaviour) (s : NodeState), m.audit = true →
        (∀ p, m.retry = some p → 1 ≤ p.maxAttempts) →
          ∃ record, records (run host st m node s).2 = [record] ∧
            (record.1 = .ok ↔ ∃ update,
              OwnUpdate (ending host st m node (received host m s)) (run host st m node s).2 update ∧
                (run host st m node s).1 = .ok update) := by
  intro h
  obtain ⟨record, hrecord, hiff⟩ := h strictHost {} strictNode askShell {} rfl fun p hp => by cases hp
  have hok : records (run strictHost {} strictNode askShell {}).2 =
      [(.ok, some { messages := some [{ type := .ai, content := "", toolCalls := ["bash"] }] })] := by
    decide +kernel
  rw [hok] at hrecord
  cases hrecord
  obtain ⟨update, ⟨n, hn, hupdate⟩, hresult⟩ := hiff.1 rfl
  have hmapped : (run strictHost {} strictNode askShell {}).1 =
      .ok (errorUpdate strictNode (some ("PermissionDeniedError", deniedText "bash" "shell")) false) := by
    rfl
  rw [hmapped] at hresult
  cases hresult
  cases hupdate

end NodePipeline

end Prismal.Agents
