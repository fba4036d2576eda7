import Prismal.Memory.Process

namespace Prismal.Memory
open Prismal.Lib
set_option autoImplicit true

def dayS : Rat := 86400

def supersededReason : String := "retention:superseded"

def listLimit : Nat := 1000000

/-- Retention in days; types without an entry, and entries of 0, are kept. -/
structure RetentionSettings where
  daysByType : MemoryType → Option Int
  supersededDays : Int

/-- What the approver and the permission manager make of an approval. -/
inductive Approver where
  | agrees
  | vetoes
  | raises
  deriving DecidableEq, Repr

/-- Answers from outside to one execution: the permission check, and the failures that the graph
and the derived-artifact hooks report for a group of ids. -/
structure ForgetEnv where
  permitted : Bool := true
  derivedErrors : Bool → List String → Nat := fun _ _ => 0

namespace ForgetPolicy

def record (f : ForgetPolicy) (req : ForgetRequest) (e : Event) : ForgetPolicy :=
  { f with requests := f.requests.set req.requestId req, history := e :: f.history }

def issue (f : ForgetPolicy) (rules : List ForgetSelector) : ForgetPolicy :=
  { f with issuedRules := f.issuedRules ∪ rules.toFinset, history := .issued rules :: f.history }

def consume (f : ForgetPolicy) (selector : ForgetSelector) : ForgetPolicy :=
  { f with issuedRules := f.issuedRules.erase selector
           history := .consumed selector :: f.history }

def logPurge (f : ForgetPolicy) (selector : ForgetSelector) (actor : ForgetActor)
    (ids : List String) : ForgetPolicy :=
  { f with history := .purged selector actor ids :: f.history }

def setPending (f : ForgetPolicy) (pending : Dict MemoryScope (Dict String Bool)) :
    ForgetPolicy := { f with pendingDerived := pending }

end ForgetPolicy

def deny (actor reason : String) : MemoryM α := throw (.denied actor reason)

/-- `request` under a fresh `uuid4` -/
def request (host : Host) (selector : ForgetSelector) (requestedBy uuid : String) :
    MemoryM ForgetRequest :=
  if selector.scope.isNone then throw .tenancy
  else do
    let now ← readClock host
    let req : ForgetRequest := ⟨"fgt_" ++ uuid, selector, now, requestedBy, .pending, none⟩
    modify fun p => p.onForget fun f => f.record req (.requested req.requestId selector requestedBy)
    pure req

def pendingOrDeny (id : String) : MemoryM ForgetRequest := do
  let p ← get
  match p.forget.requests.get? id with
  | some req => if req.status = .pending then pure req else throw (.notPending id)
  | none => throw (.notPending id)

def ForgetRequest.approve (req : ForgetRequest) (principal : String) : ForgetRequest :=
  { req with status := .approved, approvedBy := some principal }

def ForgetRequest.reject (req : ForgetRequest) : ForgetRequest := { req with status := .rejected }

def ForgetRequest.execute (req : ForgetRequest) : ForgetRequest := { req with status := .executed }

/-- `_set_status(req, "rejected", principal)` -/
def setRejected (req : ForgetRequest) : MemoryM ForgetRequest := do
  modify fun p => p.onForget fun f => f.record req.reject (.rejected req.requestId)
  pure req.reject

/-- `_set_status(req, "approved", principal)` -/
def setApproved (req : ForgetRequest) (principal : String) : MemoryM ForgetRequest := do
  modify fun p => p.onForget fun f =>
    f.record (req.approve principal) (.approved req.requestId principal)
  pure (req.approve principal)

def approve (id principal : String) (approver : Approver) : MemoryM ForgetRequest := do
  let req ← pendingOrDeny id
  if principal = req.requestedBy then deny "human" "self_approval"
  else
    match approver with
    | .vetoes => setRejected req
    | .raises => throw .callback
    | .agrees => setApproved req principal

def reject (id : String) : MemoryM ForgetRequest := do
  let req ← pendingOrDeny id
  setRejected req

def typesByName : List MemoryType := [.episodic, .preference, .procedural, .semantic]

def typeRule (settings : RetentionSettings) (scope : Option MemoryScope) (now : Rat)
    (type : MemoryType) : Option ForgetSelector :=
  match settings.daysByType type with
  | none => none
  | some days =>
    if days ≤ 0 then none
    else some
      { scope := scope
        types := some {type}
        olderThan := some (now - days * dayS)
        includeDerived := false
        reason := "retention:" ++ type.value }

def supersededRule (settings : RetentionSettings) (scope : Option MemoryScope) (now : Rat) :
    Option ForgetSelector :=
  if settings.supersededDays ≤ 0 then none
  else some
    { scope := scope
      olderThan := some (now - settings.supersededDays * dayS)
      includeDerived := false
      reason := supersededReason }

def retentionRules (host : Host) (settings : RetentionSettings) (scope : Option MemoryScope) :
    MemoryM (List ForgetSelector) := do
  let now ← readClock host
  let rules := typesByName.filterMap (typeRule settings scope now) ++
    (supersededRule settings scope now).toList
  modify fun p => p.onForget fun f => f.issue rules
  pure rules

def mayExecute (req : ForgetRequest) (selector : ForgetSelector) (actor : ForgetActor) :
    Option String :=
  if req.status ≠ .approved then some "approval_not_found_or_not_approved"
  else if req.selector ≠ selector then some "selector_mismatch"
  else if actor.principal = req.requestedBy ∨ req.approvedBy ≠ some actor.principal then
    some "principal_not_approver"
  else none

/-- `_authorize_human` -/
def authorizeHuman (selector : ForgetSelector) (actor : ForgetActor) (env : ForgetEnv) :
    MemoryM ForgetRequest := do
  let p ← get
  match p.forget.requests.get? (actor.approvalId.getD "") with
  | none => deny "human" "approval_not_found_or_not_approved"
  | some req =>
    match mayExecute req selector actor with
    | some reason => deny "human" reason
    | none => if env.permitted then pure req else deny "human" "permission_not_granted"

def authorizeRule (selector : ForgetSelector) : MemoryM Unit := do
  let p ← get
  if selector ∈ p.forget.issuedRules then
    modify fun p => p.onForget fun f => f.consume selector
  else deny "rule" "selector_not_from_retention_rules"

def authorize (selector : ForgetSelector) (actor : ForgetActor) (env : ForgetEnv) :
    MemoryM (Option ForgetRequest) :=
  match actor.kind with
  | .rule => do
    authorizeRule selector
    pure none
  | .human => do
    let req ← authorizeHuman selector actor env
    pure (some req)
  | .other => deny "other" "unknown_actor_kind"

def supersededAt (records : Records) (scope : MemoryScope) (r : MemoryRecord) : Rat :=
  match records.get (r.supersededBy.getD "") scope with
  | some newer => newer.provenance.createdAt
  | none => r.provenance.createdAt

def selectedAt (records : Records) (selector : ForgetSelector) (scope : MemoryScope)
    (r : MemoryRecord) : Rat :=
  if selector.reason = supersededReason then supersededAt records scope r
  else r.provenance.createdAt

def targeted (records : Records) (selector : ForgetSelector) (scope : MemoryScope)
    (r : MemoryRecord) : Bool :=
  withinErasureScope scope r.scope &&
    (selector.types.all fun ts => decide (r.type ∈ ts)) &&
    (selector.sessionId.all fun s => decide (r.provenance.sessionId = some s)) &&
    (decide (selector.reason ≠ supersededReason) || r.supersededBy.isSome) &&
    selector.olderThan.all fun t => decide (selectedAt records selector scope r < t)

def candidates (records : Records) (selector : ForgetSelector) (scope : MemoryScope) :
    List MemoryRecord :=
  if selector.recordIds.isEmpty then records.list scope none listLimit
  else selector.recordIds.filterMap fun id => records.get id scope

def targets (records : Records) (selector : ForgetSelector) (scope : MemoryScope) :
    List String :=
  ((candidates records selector scope).filter (targeted records selector scope)).map
    MemoryRecord.id

/-- The sets that the closure of `_derived` works on. -/
structure Closure where
  gone : List String
  derived : List String := []
  outOfScope : List String := []
  changed : Bool := true

def Closure.cites (c : Closure) (r : MemoryRecord) : Bool :=
  (r.provenance.sourceMessageIds.any fun m => decide (m ∈ c.gone)) ||
    r.supersededBy.any fun w => decide (w ∈ c.gone)

def Closure.settled (c : Closure) (r : MemoryRecord) : Bool :=
  decide (r.id ∈ c.gone) || decide (r.id ∈ c.outOfScope)

def Closure.erase (c : Closure) (r : MemoryRecord) : Closure where
  gone := r.id :: c.gone
  derived := r.id :: c.derived
  outOfScope := c.outOfScope

def Closure.leave (c : Closure) (r : MemoryRecord) : Closure where
  gone := c.gone
  derived := c.derived
  outOfScope := r.id :: c.outOfScope

def Closure.visit (scope : MemoryScope) (c : Closure) (r : MemoryRecord) : Closure :=
  if c.settled r || !c.cites r then c
  else if withinErasureScope scope r.scope then c.erase r
  else c.leave r

def Closure.pass (scope : MemoryScope) (records : List MemoryRecord) (c : Closure) : Closure :=
  records.foldl (Closure.visit scope) { c with changed := false }

/-- `while changed`; every pass but the last settles a record. -/
def Closure.run (scope : MemoryScope) (records : List MemoryRecord) : Nat → Closure → Closure
  | 0, c => c
  | fuel + 1, c =>
    let c' := c.pass scope records
    if c'.changed then run scope records fuel c' else c'

def closure (scope : MemoryScope) (records : List MemoryRecord) (targets : List String) :
    Closure :=
  Closure.run scope records (records.length + 1) ⟨targets, [], [], true⟩

/-- The records of `scope` that the closure looks at. -/
def inScope (records : Records) (scope : MemoryScope) : List MemoryRecord :=
  (records.list scope none listLimit).filter fun r => scope.covers r.scope

def keptEdges (gone : List String) (r : MemoryRecord) : List MemoryEdge :=
  r.edges.filter fun e => decide (e.srcId ∉ gone) && decide (e.dstId ∉ gone)

def dropEdges (gone : List String) (r : MemoryRecord) : MemoryM Unit :=
  if r.id ∈ gone ∨ keptEdges gone r = r.edges then pure ()
  else update (r.withEdges (keptEdges gone r))

/-- `_derived`: the ids of derived records, and how many lie outside the scope. -/
def derivedOf (targets : List String) (scope : MemoryScope) : MemoryM (List String × Nat) := do
  let p ← get
  let records := inScope p.vault.records scope
  let c := closure scope records targets
  records.forM (dropEdges c.gone)
  pure (c.derived, c.outOfScope.length)

/-- `backend.purge` -/
def purgeRecords (selector : ForgetSelector) (scope : MemoryScope) (actor : ForgetActor)
    (ids : List String) : MemoryM Nat := do
  let p ← get
  modify fun p => (p.onVault fun v => v.purge ids scope).onForget fun f =>
    f.logPurge selector actor ids
  pure (p.vault.records.purge ids scope).2

def goneIds (records : Records) (ids : List String) (scope : MemoryScope) : List String :=
  ids.filter fun id => (records.get id scope.tenant).isNone

def markErased (includeDerived : Bool) (work : Dict String Bool) (ids : List String) :
    Dict String Bool :=
  ids.foldl (fun w id => w.set id ((w.get? id).getD false || includeDerived)) work

def groupOf (work : Dict String Bool) (hooks : Bool) : List String :=
  ((work.entries.filter fun e => e.2 == hooks).map Prod.fst).insertionSort (· ≤ ·)

def groupErrors (env : ForgetEnv) (work : Dict String Bool) (hooks : Bool) : Nat :=
  if (groupOf work hooks).isEmpty then 0 else env.derivedErrors hooks (groupOf work hooks)

def failedWork (env : ForgetEnv) (work : Dict String Bool) : Dict String Bool :=
  work.filter fun e => groupErrors env work e.2 ≠ 0

def erasedIds (selector : ForgetSelector) (scope : MemoryScope) (records : Records)
    (ids : List String) : List String :=
  if selector.includeDerived then ids ++ goneIds records selector.recordIds scope else ids

def workOf (p : Process) (selector : ForgetSelector) (scope : MemoryScope) (ids : List String) :
    Dict String Bool :=
  markErased selector.includeDerived ((p.forget.pendingDerived.get? scope).getD ∅)
    (erasedIds selector scope p.vault.records ids)

def settle (selector : ForgetSelector) (scope : MemoryScope) (request : Option ForgetRequest)
    (env : ForgetEnv) (ids : List String) (count : Nat) : MemoryM Nat := do
  let p ← get
  let work := workOf p selector scope ids
  let errors := groupErrors env work true + groupErrors env work false
  modify fun p => p.onForget fun f => f.setPending (f.pendingDerived.erase scope)
  if errors ≠ 0 then
    modify fun p => p.onForget fun f =>
      f.setPending (f.pendingDerived.set scope (failedWork env work))
    throw (.erasureIncomplete errors)
  else
    match request with
    | none => pure count
    | some req =>
      modify fun p => p.onForget fun f => f.record req.execute (.completed req.requestId)
      pure count

def deriveTargets (selector : ForgetSelector) (scope : MemoryScope) (ts : List String) :
    MemoryM (List String × Nat) :=
  if selector.includeDerived && !ts.isEmpty then derivedOf ts scope else pure ([], 0)

/-- `sorted(targets | derived)` -/
def sortedIds (ts derived : List String) : List String :=
  (ts ++ derived).dedup.insertionSort (· ≤ ·)

def purgeAll (selector : ForgetSelector) (scope : MemoryScope) (actor : ForgetActor)
    (ids : List String) : MemoryM Nat :=
  if ids.isEmpty then pure 0 else purgeRecords selector scope actor ids

def perform (selector : ForgetSelector) (scope : MemoryScope) (actor : ForgetActor)
    (request : Option ForgetRequest) (env : ForgetEnv) : MemoryM Nat := do
  let p ← get
  let ts := targets p.vault.records selector scope
  let derived ← deriveTargets selector scope ts
  let count ← purgeAll selector scope actor (sortedIds ts derived.1)
  settle selector scope request env (sortedIds ts derived.1) count

/-- Delete what the selector targets. An actor that is no `ForgetActor` is `none`. -/
def execute (selector : ForgetSelector) (actor : Option ForgetActor) (env : ForgetEnv) :
    MemoryM Nat :=
  match actor, selector.scope with
  | none, _ => deny "other" "not_a_forget_actor"
  | some _, none => throw .tenancy
  | some actor, some scope => do
    let request ← authorize selector actor env
    perform selector scope actor request env

end Prismal.Memory
