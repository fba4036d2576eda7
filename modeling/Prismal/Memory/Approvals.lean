import Prismal.Memory.Forget

namespace Prismal.Memory
open Prismal.Lib Prismal.Lib.Run
set_option autoImplicit true

/-! The calls of the forget policy on a request, cut at their await points. -/

/-- `approve` up to its first await. -/
def approveUntilAwait (id principal : String) : MemoryM ForgetRequest := do
  let req ← pendingOrDeny id
  if principal = req.requestedBy then deny "human" "self_approval" else pure req

/-- `approve` after the approver and the permission manager have answered. -/
def approveAfterAwait (req : ForgetRequest) (principal : String) :
    Approver → MemoryM ForgetRequest
  | .vetoes => setRejected req
  | .raises => throw .callback
  | .agrees => setApproved req principal

/-- A human's `execute` up to its first await. -/
def executeUntilAwait (selector : ForgetSelector) (actor : ForgetActor) :
    MemoryM ForgetRequest := do
  let p ← get
  match p.forget.requests.get? (actor.approvalId.getD "") with
  | none => deny "human" "approval_not_found_or_not_approved"
  | some req =>
    match mayExecute req selector actor with
    | some reason => deny "human" reason
    | none => pure req

/-- A human's `execute` after the permission check. Of the requests it only touches its own, at
its very end, so its later awaits are taken together. -/
def executeAfterAwait (selector : ForgetSelector) (scope : MemoryScope) (actor : ForgetActor)
    (req : ForgetRequest) (env : ForgetEnv) : MemoryM Nat :=
  if env.permitted then perform selector scope actor (some req) env
  else deny "human" "permission_not_granted"

theorem pendingOrDeny_eq (id : String) (p : Process) :
    pendingOrDeny id p =
      match p.forget.requests.get? id with
      | none => .error (.notPending id) p
      | some req => if req.status = .pending then .ok req p else .error (.notPending id) p := by
  rw [pendingOrDeny]
  change (EStateM.bind get _ p) = _
  rw [EStateM.bind]
  dsimp only [get, getThe, MonadStateOf.get, EStateM.get]
  cases p.forget.requests.get? id with
  | none => rfl
  | some req =>
    dsimp only
    split <;> rfl

theorem executeUntilAwait_eq (selector : ForgetSelector) (actor : ForgetActor) (p : Process) :
    executeUntilAwait selector actor p =
      match p.forget.requests.get? (actor.approvalId.getD "") with
      | none => .error (.denied "human" "approval_not_found_or_not_approved") p
      | some req =>
        match mayExecute req selector actor with
        | some reason => .error (.denied "human" reason) p
        | none => .ok req p := by
  change (match p.forget.requests.get? (actor.approvalId.getD "") with
    | none => deny "human" "approval_not_found_or_not_approved"
    | some req =>
      match mayExecute req selector actor with
      | some reason => deny "human" reason
      | none => pure req : MemoryM ForgetRequest) p = _
  cases p.forget.requests.get? (actor.approvalId.getD "") with
  | none => rfl
  | some req =>
    dsimp only
    cases mayExecute req selector actor with
    | some reason => rfl
    | none => rfl

theorem authorizeHuman_parts (selector : ForgetSelector) (actor : ForgetActor) (env : ForgetEnv) :
    authorizeHuman selector actor env =
      (do
        let req ← executeUntilAwait selector actor
        if env.permitted then pure req else deny "human" "permission_not_granted") := by
  funext p
  have hstart := executeUntilAwait_eq selector actor p
  change (match p.forget.requests.get? (actor.approvalId.getD "") with
    | none => deny "human" "approval_not_found_or_not_approved"
    | some req =>
      match mayExecute req selector actor with
      | some reason => deny "human" reason
      | none => if env.permitted then pure req else deny "human" "permission_not_granted" :
        MemoryM ForgetRequest) p = _
  cases hreq : p.forget.requests.get? (actor.approvalId.getD "") with
  | none =>
    rw [hreq] at hstart
    rw [bind_of_error hstart]
    rfl
  | some req =>
    rw [hreq] at hstart
    dsimp only at hstart ⊢
    cases hmay : mayExecute req selector actor with
    | some reason =>
      rw [hmay] at hstart
      rw [bind_of_error hstart]
      rfl
    | none =>
      rw [hmay] at hstart
      rw [bind_of_ok hstart]

theorem execute_parts (hscope : selector.scope = some scope) (hkind : actor.kind = .human)
    (env : ForgetEnv) :
    execute selector (some actor) env =
      (do
        let req ← executeUntilAwait selector actor
        executeAfterAwait selector scope actor req env) := by
  simp only [execute, hscope, authorize, hkind, authorizeHuman_parts, bind_assoc, pure_bind]
  apply bind_congr
  intro req
  rw [executeAfterAwait]
  split
  · rw [pure_bind]
  · rfl

inductive Waiting where
  | approving (req : ForgetRequest) (principal : String)
  | executing (req : ForgetRequest) (selector : ForgetSelector) (scope : MemoryScope)
      (actor : ForgetActor)

/-- The process, and the calls that are under way. -/
structure Desk where
  process : Process := {}
  waiting : Nat → Option Waiting := fun _ => none

inductive Turn where
  | request (selector : ForgetSelector) (requestedBy uuid : String)
  | reject (id : String)
  | startApprove (call : Nat) (id principal : String)
  | resumeApprove (call : Nat) (approver : Approver)
  | startExecute (call : Nat) (selector : ForgetSelector) (actor : ForgetActor)
  | resumeExecute (call : Nat) (env : ForgetEnv)

namespace Desk

def run (d : Desk) (m : MemoryM α) : Desk := { d with process := left (m d.process) }

def start (d : Desk) (call : Nat) (m : MemoryM α) (w : α → Waiting) : Desk :=
  match m d.process with
  | .ok a p => { process := p, waiting := Function.update d.waiting call (some (w a)) }
  | .error _ p => { d with process := p }

def finish (d : Desk) (call : Nat) (m : MemoryM α) : Desk where
  process := left (m d.process)
  waiting := Function.update d.waiting call none

/-- One turn. A `uuid4` is new, and a call has a number of its own. -/
def turn (host : Host) (d : Desk) : Turn → Desk
  | .request selector requestedBy uuid =>
    if "fgt_" ++ uuid ∈ d.process.forget.requests then d
    else d.run (request host selector requestedBy uuid)
  | .reject id => d.run (reject id)
  | .startApprove call id principal =>
    if (d.waiting call).isSome then d
    else d.start call (approveUntilAwait id principal) fun req => .approving req principal
  | .startExecute call selector actor =>
    match selector.scope with
    | none => d
    | some scope =>
      if (d.waiting call).isSome ∨ actor.kind ≠ .human then d
      else d.start call (executeUntilAwait selector actor)
        fun req => .executing req selector scope actor
  | .resumeApprove call approver =>
    match d.waiting call with
    | some (.approving req principal) => d.finish call (approveAfterAwait req principal approver)
    | _ => d
  | .resumeExecute call env =>
    match d.waiting call with
    | some (.executing req selector scope actor) =>
      d.finish call (executeAfterAwait selector scope actor req env)
    | _ => d

end Desk

/-- The moves of a status: `pending → approved → executed`, `pending → rejected`, or none. -/
def RequestStatus.Follows (s t : RequestStatus) : Prop :=
  s = t ∨ (s = .pending ∧ (t = .approved ∨ t = .rejected)) ∨ (s = .approved ∧ t = .executed)

abbrev Requests := Dict String ForgetRequest

/-- Every request makes a move of a status, and a new one is pending. -/
structure Lawful (R R' : Requests) : Prop where
  moves : ∀ id req, R.get? id = some req →
    ∃ req', R'.get? id = some req' ∧ req.status.Follows req'.status
  starts : ∀ id req', R.get? id = none → R'.get? id = some req' → req'.status = .pending

namespace Desk

def requests (d : Desk) : Requests := d.process.forget.requests

def StillOpen (d : Desk) : Turn → Prop
  | .resumeApprove call approver =>
    ∀ req principal, d.waiting call = some (.approving req principal) →
      ∀ now, d.requests.get? req.requestId = some now →
        match approver with
        | .agrees => now.status = .pending ∨ now.status = .approved
        | .vetoes => now.status = .pending ∨ now.status = .rejected
        | .raises => True
  | _ => True

end Desk

section Effects

variable {p : Process}

theorem reject_cases (id : String) (p : Process) :
    (∃ e, reject id p = .error e p) ∨
      ∃ req p', p.forget.requests.get? id = some req ∧ req.status = .pending ∧
        reject id p = .ok req.reject p' ∧
        p'.forget.requests = p.forget.requests.set req.requestId req.reject := by
  have hpending := pendingOrDeny_eq id p
  cases hreq : p.forget.requests.get? id with
  | none =>
    rw [hreq] at hpending
    exact Or.inl ⟨_, bind_of_error hpending⟩
  | some req =>
    rw [hreq] at hpending
    dsimp only at hpending
    split at hpending
    next hst =>
      right
      refine ⟨req, _, rfl, hst, (bind_of_ok hpending).trans rfl, rfl⟩
    next => exact Or.inl ⟨_, bind_of_error hpending⟩

theorem request_cases (host : Host) (selector : ForgetSelector) (requestedBy uuid : String)
    (p : Process) :
    (left (request host selector requestedBy uuid p)).forget.requests = p.forget.requests ∨
      ∃ req : ForgetRequest, req.requestId = "fgt_" ++ uuid ∧ req.status = .pending ∧
        (left (request host selector requestedBy uuid p)).forget.requests =
          p.forget.requests.set req.requestId req := by
  rw [request]
  split
  · exact Or.inl rfl
  · right
    exact ⟨⟨"fgt_" ++ uuid, selector, host.clock p.clockReads, requestedBy, .pending, none⟩,
      rfl, rfl, rfl⟩

theorem approveUntilAwait_cases (id principal : String) (p : Process) :
    (∃ e, approveUntilAwait id principal p = .error e p) ∨
      ∃ req, p.forget.requests.get? id = some req ∧
        approveUntilAwait id principal p = .ok req p := by
  have hpending := pendingOrDeny_eq id p
  cases hreq : p.forget.requests.get? id with
  | none =>
    rw [hreq] at hpending
    exact Or.inl ⟨_, bind_of_error hpending⟩
  | some req =>
    rw [hreq] at hpending
    dsimp only at hpending
    split at hpending
    · rw [approveUntilAwait, bind_of_ok hpending]
      split
      · exact Or.inl ⟨_, rfl⟩
      · exact Or.inr ⟨req, rfl, rfl⟩
    · exact Or.inl ⟨_, bind_of_error hpending⟩

theorem approveAfterAwait_requests (req : ForgetRequest) (principal : String)
    (approver : Approver) (p : Process) :
    (left (approveAfterAwait req principal approver p)).forget.requests =
      match approver with
      | .agrees => p.forget.requests.set req.requestId (req.approve principal)
      | .vetoes => p.forget.requests.set req.requestId req.reject
      | .raises => p.forget.requests := by
  cases approver <;> rfl

theorem executeUntilAwait_cases (selector : ForgetSelector) (actor : ForgetActor) (p : Process) :
    (∃ e, executeUntilAwait selector actor p = .error e p) ∨
      ∃ id req, p.forget.requests.get? id = some req ∧ req.status = .approved ∧
        executeUntilAwait selector actor p = .ok req p := by
  rw [executeUntilAwait_eq]
  cases hreq : p.forget.requests.get? (actor.approvalId.getD "") with
  | none => exact Or.inl ⟨_, rfl⟩
  | some req =>
    dsimp only
    cases hmay : mayExecute req selector actor with
    | some reason => exact Or.inl ⟨_, rfl⟩
    | none =>
      right
      refine ⟨_, req, hreq, ?_, rfl⟩
      rw [mayExecute] at hmay
      split at hmay
      · cases hmay
      next hst => exact not_not.1 hst

def Filed (R : Requests) (p : Process) : Prop := p.forget.requests = R

theorem dropEdges_filed (gone : List String) (r : MemoryRecord) :
    Spec (Filed R) (dropEdges gone r) (fun _ => Filed R) (fun _ => Filed R) := by
  rw [dropEdges]
  split
  · exact Spec.pure fun _ h => h
  · apply Spec.bind (Spec.get (Q := fun _ => Filed R) fun _ h => h)
    intro q
    split
    · exact Spec.modify fun _ h => h
    · exact Spec.throw fun _ h => h

theorem deriveTargets_filed (selector : ForgetSelector) (scope : MemoryScope)
    (ts : List String) : Spec (Filed R) (deriveTargets selector scope ts) (fun _ => Filed R)
      (fun _ => Filed R) := by
  rw [deriveTargets]
  split
  · apply Spec.bind (Spec.get (Q := fun _ => Filed R) fun _ h => h)
    intro q
    apply Spec.bind (Q := fun _ => Filed R)
    · exact Spec.forM (I := fun _ => Filed R) fun r _ => dropEdges_filed _ r
    · exact fun _ => Spec.pure fun _ h => h
  · exact Spec.pure fun _ h => h

theorem perform_filed (selector : ForgetSelector) (scope : MemoryScope) (actor : ForgetActor)
    (req : ForgetRequest) (env : ForgetEnv) :
    Spec (Filed R) (perform selector scope actor (some req) env)
      (fun _ => Filed (R.set req.requestId req.execute)) (fun _ => Filed R) := by
  apply Spec.bind (Spec.get (Q := fun _ => Filed R) fun _ h => h)
  intro q
  apply Spec.bind (deriveTargets_filed selector scope _)
  intro derived
  apply Spec.bind (Q := fun _ => Filed R)
  · rw [purgeAll]
    split
    · exact Spec.pure fun _ h => h
    · apply Spec.bind (Spec.get (Q := fun _ => Filed R) fun _ h => h)
      intro q
      apply Spec.bind (Q := fun _ => Filed R)
      · exact Spec.modify fun _ h => h
      · exact fun _ => Spec.pure fun _ h => h
  · intro count
    apply Spec.bind (Spec.get (Q := fun _ => Filed R) fun _ h => h)
    intro q
    apply Spec.bind (Q := fun _ => Filed R)
    · exact Spec.modify fun _ h => h
    intro _
    split
    · apply Spec.bind (Q := fun _ => Filed R)
      · exact Spec.modify fun _ h => h
      · exact fun _ => Spec.throw fun _ h => h
    · apply Spec.bind (Q := fun _ => Filed (R.set req.requestId req.execute))
      · apply Spec.modify
        rintro p rfl
        rfl
      · exact fun _ => Spec.pure fun _ h => h

theorem executeAfterAwait_cases (selector : ForgetSelector) (scope : MemoryScope)
    (actor : ForgetActor) (req : ForgetRequest) (env : ForgetEnv) (p : Process) :
    (left (executeAfterAwait selector scope actor req env p)).forget.requests =
        p.forget.requests ∨
      (left (executeAfterAwait selector scope actor req env p)).forget.requests =
        p.forget.requests.set req.requestId req.execute := by
  rw [executeAfterAwait]
  split
  · have hspec := perform_filed selector scope actor req env p rfl
    cases hrun : perform selector scope actor (some req) env p with
    | ok n q =>
      rw [hrun] at hspec
      exact Or.inr hspec
    | error e q =>
      rw [hrun] at hspec
      exact Or.inl hspec
  · exact Or.inl rfl

end Effects

section Turns

variable {host : Host} {d : Desk} {R R' : Requests}

theorem Lawful.refl (R : Requests) : Lawful R R where
  moves _ req h := ⟨req, h, Or.inl rfl⟩
  starts _ _ hn hs := by
    rw [hn] at hs
    cases hs

theorem Lawful.set {req : ForgetRequest} (k : String)
    (h : ∀ now, R.get? k = some now → now.status.Follows req.status)
    (hnew : R.get? k = none → req.status = .pending) : Lawful R (R.set k req) where
  moves id now hnow := by
    rw [Dict.get?_set]
    split
    next hk => exact ⟨req, rfl, h now (hk ▸ hnow)⟩
    next => exact ⟨now, hnow, Or.inl rfl⟩
  starts id req' hn hs := by
    rw [Dict.get?_set] at hs
    split at hs
    next hk =>
      cases hs
      exact hnew (hk ▸ hn)
    next =>
      rw [hn] at hs
      cases hs

/-- What a turn can do to the requests and to the waiting calls. -/
inductive Effect (d : Desk) : Turn → Desk → Prop
  | idle (hr : d'.requests = d.requests)
      (hw : ∀ call w, d'.waiting call = some w → d.waiting call = some w) : Effect d t d'
  | filed (req : ForgetRequest) (hnew : req.requestId ∉ d.requests) (hp : req.status = .pending)
      (hr : d'.requests = d.requests.set req.requestId req) (hw : d'.waiting = d.waiting) :
      Effect d t d'
  | rejected (id : String) (now : ForgetRequest) (hnow : d.requests.get? id = some now)
      (hp : now.status = .pending) (hr : d'.requests = d.requests.set now.requestId now.reject)
      (hw : d'.waiting = d.waiting) : Effect d (.reject id) d'
  | approving (call : Nat) (id : String) (req : ForgetRequest) (principal : String)
      (hreq : d.requests.get? id = some req) (hr : d'.requests = d.requests)
      (hw : d'.waiting = Function.update d.waiting call (some (.approving req principal))) :
      Effect d t d'
  | executing (call : Nat) (id : String) (req : ForgetRequest) (selector : ForgetSelector)
      (scope : MemoryScope) (actor : ForgetActor) (hreq : d.requests.get? id = some req)
      (hst : req.status = .approved) (hr : d'.requests = d.requests)
      (hw : d'.waiting =
        Function.update d.waiting call (some (.executing req selector scope actor))) :
      Effect d t d'
  | approved (call : Nat) (req : ForgetRequest) (principal : String)
      (hwait : d.waiting call = some (.approving req principal))
      (hr : d'.requests = d.requests.set req.requestId (req.approve principal))
      (hw : d'.waiting = Function.update d.waiting call none) :
      Effect d (.resumeApprove call .agrees) d'
  | vetoed (call : Nat) (req : ForgetRequest) (principal : String)
      (hwait : d.waiting call = some (.approving req principal))
      (hr : d'.requests = d.requests.set req.requestId req.reject)
      (hw : d'.waiting = Function.update d.waiting call none) :
      Effect d (.resumeApprove call .vetoes) d'
  | executed (call : Nat) (req : ForgetRequest) (selector : ForgetSelector)
      (scope : MemoryScope) (actor : ForgetActor)
      (hwait : d.waiting call = some (.executing req selector scope actor))
      (hr : d'.requests = d.requests.set req.requestId req.execute)
      (hw : d'.waiting = Function.update d.waiting call none) : Effect d t d'

theorem waiting_update_none {w : Waiting} {waiting : Nat → Option Waiting} {call k : Nat}
    (h : Function.update waiting call none k = some w) : waiting k = some w := by
  by_cases hk : k = call
  · subst hk
    rw [Function.update_self] at h
    cases h
  · rwa [Function.update_of_ne hk] at h

theorem turn_effect (host : Host) (d : Desk) (t : Turn) : Effect d t (d.turn host t) := by
  cases t with
  | request selector requestedBy uuid =>
    rw [Desk.turn]
    split
    · exact .idle rfl fun _ _ h => h
    next hnew =>
      rcases request_cases host selector requestedBy uuid d.process with h | ⟨req, hid, hst, h⟩
      · exact .idle h fun _ _ h => h
      · exact .filed req (hid ▸ hnew) hst h rfl
  | reject id =>
    rcases reject_cases id d.process with ⟨e, h⟩ | ⟨req, p', hreq, hst, h, hr⟩
    · apply Effect.idle
      · rw [Desk.turn, Desk.run, h]
        rfl
      · exact fun _ _ h => h
    · apply Effect.rejected id req hreq hst
      · rw [Desk.turn, Desk.run, h]
        exact hr
      · rfl
  | startApprove call id principal =>
    rw [Desk.turn]
    split
    · exact .idle rfl fun _ _ h => h
    · rw [Desk.start]
      rcases approveUntilAwait_cases id principal d.process with ⟨e, h⟩ | ⟨req, hreq, h⟩
      · rw [h]
        exact .idle rfl fun _ _ h => h
      · rw [h]
        exact .approving call id req principal hreq rfl rfl
  | resumeApprove call approver =>
    rw [Desk.turn]
    split
    next req principal hwait =>
      have hr := approveAfterAwait_requests req principal approver d.process
      cases approver with
      | agrees => exact .approved call req principal hwait hr rfl
      | vetoes => exact .vetoed call req principal hwait hr rfl
      | raises => exact .idle hr fun _ _ h => waiting_update_none h
    next => exact .idle rfl fun _ _ h => h
  | startExecute call selector actor =>
    rw [Desk.turn]
    split
    · exact .idle rfl fun _ _ h => h
    next scope hscope =>
      split
      · exact .idle rfl fun _ _ h => h
      · rw [Desk.start]
        rcases executeUntilAwait_cases selector actor d.process with
          ⟨e, h⟩ | ⟨id, req, hreq, hst, h⟩
        · rw [h]
          exact .idle rfl fun _ _ h => h
        · rw [h]
          exact .executing call id req selector scope actor hreq hst rfl rfl
  | resumeExecute call env =>
    rw [Desk.turn]
    split
    next req selector scope actor hwait =>
      rcases executeAfterAwait_cases selector scope actor req env d.process with h | h
      · exact .idle h fun _ _ h => waiting_update_none h
      · exact .executed call req selector scope actor hwait h rfl
    next => exact .idle rfl fun _ _ h => h

/-- The requests are filed under their ids, and the waiting calls are about some of them. -/
structure Desk.Known (d : Desk) : Prop where
  keyed : ∀ id req, d.requests.get? id = some req → req.requestId = id
  approving : ∀ call req principal, d.waiting call = some (.approving req principal) →
    req.requestId ∈ d.requests
  executing : ∀ call req selector scope actor,
    d.waiting call = some (.executing req selector scope actor) → req.requestId ∈ d.requests

def Desk.Cleared (d : Desk) : Prop :=
  ∀ call req selector scope actor,
    d.waiting call = some (.executing req selector scope actor) →
      ∀ now, d.requests.get? req.requestId = some now →
        now.status = .approved ∨ now.status = .executed

theorem Effect.requests (h : Effect d t d') : d'.requests = d.requests ∨
    ∃ req : ForgetRequest, d'.requests = d.requests.set req.requestId req := by
  cases h with
  | idle hr => exact Or.inl hr
  | filed req _ _ hr => exact Or.inr ⟨req, hr⟩
  | rejected id now _ _ hr => exact Or.inr ⟨now.reject, hr⟩
  | approving call id req principal _ hr => exact Or.inl hr
  | executing call id req selector scope actor _ _ hr => exact Or.inl hr
  | approved call req principal _ hr => exact Or.inr ⟨req.approve principal, hr⟩
  | vetoed call req principal _ hr => exact Or.inr ⟨req.reject, hr⟩
  | executed call req selector scope actor _ hr => exact Or.inr ⟨req.execute, hr⟩

theorem Effect.waiting (h : Effect d t d') (hw : d'.waiting call = some w) :
    d.waiting call = some w ∨ ∃ id req, d.requests.get? id = some req ∧
      d'.requests = d.requests ∧ ((∃ principal, w = .approving req principal) ∨
        req.status = .approved ∧
          ∃ selector scope actor, w = .executing req selector scope actor) := by
  cases h with
  | idle _ hkeep => exact Or.inl (hkeep call w hw)
  | filed _ _ _ _ hsame => exact Or.inl (hsame ▸ hw)
  | rejected _ _ _ _ _ hsame => exact Or.inl (hsame ▸ hw)
  | approving n id req principal hreq hr hset =>
    rw [hset, Function.update_apply] at hw
    split at hw
    · cases hw
      exact Or.inr ⟨id, req, hreq, hr, Or.inl ⟨principal, rfl⟩⟩
    · exact Or.inl hw
  | executing n id req selector scope actor hreq hst hr hset =>
    rw [hset, Function.update_apply] at hw
    split at hw
    · cases hw
      exact Or.inr ⟨id, req, hreq, hr, Or.inr ⟨hst, selector, scope, actor, rfl⟩⟩
    · exact Or.inl hw
  | approved n req principal _ _ hset =>
    rw [hset] at hw
    exact Or.inl (waiting_update_none hw)
  | vetoed n req principal _ _ hset =>
    rw [hset] at hw
    exact Or.inl (waiting_update_none hw)
  | executed n req selector scope actor _ _ hset =>
    rw [hset] at hw
    exact Or.inl (waiting_update_none hw)

theorem Desk.Known.effect (hk : d.Known) (h : Effect d t d') : d'.Known := by
  have hgrow : ∀ id, id ∈ d.requests → id ∈ d'.requests := by
    intro id hid
    rcases h.requests with hr | ⟨req, hr⟩
    · rwa [hr]
    · rw [hr]
      exact (Dict.mem_set _).2 (Or.inr hid)
  have hread : ∀ id req, d.requests.get? id = some req → d'.requests = d.requests →
      req.requestId ∈ d'.requests := by
    intro id req hreq hr
    rw [hr, hk.keyed id req hreq]
    exact Dict.mem_of_get? hreq
  refine ⟨?_, ?_, ?_⟩
  · intro id req hreq
    rcases h.requests with hr | ⟨written, hr⟩
    · exact hk.keyed id req (hr ▸ hreq)
    · rw [hr, Dict.get?_set] at hreq
      split at hreq
      next he =>
        cases hreq
        exact he
      next => exact hk.keyed id req hreq
  · intro call req principal hw
    rcases h.waiting hw with hw | ⟨id, q, hq, hr, ⟨_, he⟩ | ⟨_, _, _, _, he⟩⟩
    · exact hgrow _ (hk.approving call req principal hw)
    · cases he
      exact hread id req hq hr
    · cases he
  · intro call req selector scope actor hw
    rcases h.waiting hw with hw | ⟨id, q, hq, hr, ⟨_, he⟩ | ⟨_, _, _, _, he⟩⟩
    · exact hgrow _ (hk.executing call req selector scope actor hw)
    · cases he
    · cases he
      exact hread id req hq hr

theorem Desk.Cleared.effect (hk : d.Known) (hc : d.Cleared) (h : Effect d t d')
    (hl : Lawful d.requests d'.requests) : d'.Cleared := by
  intro call req selector scope actor hw now hnow
  rcases h.waiting hw with hw | ⟨id, q, hq, hr, ⟨_, he⟩ | ⟨hst, _, _, _, he⟩⟩
  · obtain ⟨old, hold⟩ := Dict.mem_iff_get?.1 (hk.executing call req selector scope actor hw)
    obtain ⟨new, hnew, hmove⟩ := hl.moves _ old hold
    rw [hnow] at hnew
    cases hnew
    rcases hc call req selector scope actor hw old hold with hst | hst
    · rw [hst] at hmove
      rcases hmove with he | ⟨he, -⟩ | ⟨-, he⟩
      · exact Or.inl he.symm
      · cases he
      · exact Or.inr he
    · rw [hst] at hmove
      rcases hmove with he | ⟨he, -⟩ | ⟨he, -⟩
      · exact Or.inr he.symm
      · cases he
      · cases he
  · cases he
  · cases he
    rw [hr, hk.keyed id req hq, hq] at hnow
    cases hnow
    exact Or.inl hst

theorem Effect.lawful (hk : d.Known) (hc : d.Cleared) (ho : d.StillOpen t) (h : Effect d t d') :
    Lawful d.requests d'.requests := by
  cases h with
  | idle hr =>
    rw [hr]
    exact .refl _
  | filed req hnew hp hr =>
    rw [hr]
    apply Lawful.set
    · intro now hnow
      exact absurd (Dict.mem_of_get? hnow) hnew
    · exact fun _ => hp
  | rejected id now hnow hp hr =>
    rw [hr]
    have hid := hk.keyed id now hnow
    apply Lawful.set
    · intro now' hnow'
      rw [hid, hnow] at hnow'
      cases hnow'
      exact Or.inr (Or.inl ⟨hp, Or.inr rfl⟩)
    · intro hnone
      rw [hid, hnow] at hnone
      cases hnone
  | approving call id req principal _ hr =>
    rw [hr]
    exact .refl _
  | executing call id req selector scope actor _ _ hr =>
    rw [hr]
    exact .refl _
  | approved call req principal hwait hr =>
    rw [hr]
    apply Lawful.set
    · intro now hnow
      rcases ho req principal hwait now hnow with hst | hst
      · exact Or.inr (Or.inl ⟨hst, Or.inl rfl⟩)
      · exact Or.inl hst
    · exact fun hnone => absurd (hk.approving call req principal hwait) (Dict.get?_eq_none.1 hnone)
  | vetoed call req principal hwait hr =>
    rw [hr]
    apply Lawful.set
    · intro now hnow
      rcases ho req principal hwait now hnow with hst | hst
      · exact Or.inr (Or.inl ⟨hst, Or.inr rfl⟩)
      · exact Or.inl hst
    · exact fun hnone => absurd (hk.approving call req principal hwait) (Dict.get?_eq_none.1 hnone)
  | executed call req selector scope actor hwait hr =>
    rw [hr]
    apply Lawful.set
    · intro now hnow
      rcases hc call req selector scope actor hwait now hnow with hst | hst
      · exact Or.inr (Or.inr ⟨hst, rfl⟩)
      · exact Or.inl hst
    · exact fun hnone =>
        absurd (hk.executing call req selector scope actor hwait) (Dict.get?_eq_none.1 hnone)

theorem stillOpen_of_lawful (hl : Lawful d.requests (d.turn host t).requests) :
    d.StillOpen t := by
  cases t with
  | resumeApprove call approver =>
    intro req principal hwait now hnow
    have hr := approveAfterAwait_requests req principal approver d.process
    have hturn : (d.turn host (.resumeApprove call approver)).requests =
        (left (approveAfterAwait req principal approver d.process)).forget.requests := by
      rw [Desk.turn, hwait]
      rfl
    obtain ⟨new, hnew, hmove⟩ := hl.moves _ now hnow
    rw [hturn, hr] at hnew
    cases approver with
    | agrees =>
      rw [Dict.get?_set_self] at hnew
      cases hnew
      rcases hmove with he | ⟨he, -⟩ | ⟨-, he⟩
      · exact Or.inr he
      · exact Or.inl he
      · cases he
    | vetoes =>
      rw [Dict.get?_set_self] at hnew
      cases hnew
      rcases hmove with he | ⟨he, -⟩ | ⟨-, he⟩
      · exact Or.inr he
      · exact Or.inl he
      · cases he
    | raises => trivial
  | _ => trivial

theorem rejected_stays {id : String} (hl : Lawful R R')
    (h : ∃ req, R.get? id = some req ∧ req.status = .rejected) :
    ∃ req, R'.get? id = some req ∧ req.status = .rejected := by
  obtain ⟨req, hreq, hst⟩ := h
  obtain ⟨new, hnew, hmove⟩ := hl.moves id req hreq
  refine ⟨new, hnew, ?_⟩
  rw [hst] at hmove
  rcases hmove with he | ⟨he, -⟩ | ⟨he, -⟩
  · exact he.symm
  · cases he
  · cases he

end Turns

section Runs

variable {host : Host} {d : Desk}

def Desk.Sane (d : Desk) : Prop := d.Known ∧ d.Cleared

theorem sane_start : Desk.Sane {} := by
  refine ⟨⟨?_, ?_, ?_⟩, ?_⟩
  · intro id req h
    cases h
  · intro call req principal h
    cases h
  · intro call req selector scope actor h
    cases h
  · intro call req selector scope actor h
    cases h

theorem Desk.Sane.turn (h : d.Sane) (ho : d.StillOpen t) :
    (d.turn host t).Sane ∧ Lawful d.requests (d.turn host t).requests := by
  have he := turn_effect host d t
  have hl := he.lawful h.1 h.2 ho
  exact ⟨⟨h.1.effect he, h.2.effect h.1 he hl⟩, hl⟩

theorem rejected_of_reject {id : String} (host : Host) (hk : d.Known)
    (h : reject id d.process = .ok req p) :
    ∃ req, (d.turn host (.reject id)).requests.get? id = some req ∧ req.status = .rejected := by
  rcases reject_cases id d.process with ⟨e, he⟩ | ⟨now, p', hnow, -, he, hr⟩
  · rw [he] at h
    cases h
  · refine ⟨now.reject, ?_, rfl⟩
    have hturn : (d.turn host (.reject id)).requests = p'.forget.requests := by
      rw [Desk.turn, Desk.run, Desk.requests, he]
      rfl
    rw [hturn, hr, hk.keyed id now hnow]
    exact Dict.get?_set_self _ _ _

/-- The statuses of all requests move lawfully exactly when every approval that resumes is still
open; and then a request that was rejected with success stays rejected and is never executed. -/
theorem request_statuses (host : Host) (turns : List Turn) :
    (Along (Desk.turn host) (fun d t _ => d.StillOpen t) {} turns ↔
      Along (Desk.turn host) (fun d t _ => Lawful d.requests (d.turn host t).requests) {} turns) ∧
    (Along (Desk.turn host) (fun d t _ => d.StillOpen t) {} turns →
      ∀ before id after, turns = before ++ Turn.reject id :: after →
        (∃ req p, reject id (final (Desk.turn host) {} before).process = .ok req p) →
          (∃ req, (final (Desk.turn host) {} turns).requests.get? id = some req ∧
            req.status = .rejected) ∧
          ∀ call req selector scope actor, (final (Desk.turn host) {} turns).waiting call =
            some (.executing req selector scope actor) → req.requestId ≠ id) := by
  refine ⟨⟨fun h => ?_, fun h => h.mono fun d t _ => stillOpen_of_lawful⟩, ?_⟩
  · apply Along.of_invariant (I := fun d _ => d.Sane) sane_start _ h
    intro d t _ hs ho
    exact (hs.turn ho).symm
  · rintro h before id after rfl ⟨req, p, hreject⟩
    obtain ⟨hbefore, hopen, hafter⟩ := along_append.1 h
    have hsane : (final (Desk.turn host) {} before).Sane :=
      final_of_along (I := Desk.Sane) sane_start (fun d t hs ho => (hs.turn ho).1) hbefore
    have hrejected := rejected_of_reject host hsane.1 hreject
    have hend : (final (Desk.turn host) {} (before ++ Turn.reject id :: after)).Sane ∧
        ∃ req, (final (Desk.turn host) {} (before ++ Turn.reject id :: after)).requests.get? id =
          some req ∧ req.status = .rejected := by
      rw [final_append]
      apply final_of_along (I := fun d => d.Sane ∧ ∃ req, d.requests.get? id = some req ∧
        req.status = .rejected) _ _ hafter
      · exact ⟨(hsane.turn hopen).1, hrejected⟩
      · intro d t hI ho
        exact ⟨(hI.1.turn ho).1, rejected_stays (hI.1.turn ho).2 hI.2⟩
    refine ⟨hend.2, ?_⟩
    rintro call req selector scope actor hw rfl
    obtain ⟨now, hnow, hst⟩ := hend.2
    rcases hend.1.2 call req selector scope actor hw now hnow with he | he
    · rw [he] at hst
      cases hst
    · rw [he] at hst
      cases hst

end Runs

def eraseNote : ForgetSelector where
  recordIds := ["m1"]
  scope := some acme

def anna : ForgetActor where
  kind := .human
  principal := "anna"
  approvalId := some "fgt_1"
  valid := by decide

/-- An approval waits while the request is rejected; it approves the request all the same, which is
then executed. -/
def lateApproval : List Turn :=
  [.request eraseNote "agent" "1", .startApprove 0 "fgt_1" "anna", .reject "fgt_1",
    .resumeApprove 0 .agrees, .startExecute 1 eraseNote anna, .resumeExecute 1 {}]

def statusAfter (n : Nat) : Option RequestStatus :=
  ((final (Desk.turn plainHost) {} (lateApproval.take n)).requests.get? "fgt_1").map
    ForgetRequest.status

theorem rejected_then_executed : statusAfter 3 = some .rejected ∧
    statusAfter 4 = some .approved ∧ statusAfter 6 = some .executed := by
  decide +kernel

end Prismal.Memory
