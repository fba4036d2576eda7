import Prismal.Routing.StaticPolicy

namespace Prismal.Routing
open Prismal.Lib Prismal.Decisions
set_option autoImplicit true

/-- A routing policy, as far as the engine looks into it: its name and the static policy at the
core of its decorator chain. What it answers is an input of each call. -/
structure Policy where
  name : String
  static : Option StaticTierPolicy

structure ChoiceView where
  tier : ModelTier
  modelRef : String
  reason : String

/-- A persisted affinity, which the host may have lost or forged. -/
inductive AffinityView where
  | malformed
  | view (tier : String) (modelRef : String) (escalations : Option Int)

/-- `state["metadata"]["routing"]` -/
structure RoutingMeta where
  engine : Option (String × RoutingMode) := none
  affinity : Dict String AffinityView := ∅
  last : Dict String ChoiceView := ∅
  shadow : Dict String ChoiceView := ∅
  escalations : Dict String Nat := ∅
  shadowEscalations : Dict String Nat := ∅

structure Message where
  human : Bool
  id : Option String
  content : String

/-- The part of the graph state that routing reads and writes. -/
structure HostState where
  sessionId : Option String
  messages : List Message
  routing : RoutingMeta

/-- The per-run engine that is kept in process under the session id. -/
structure Bucket where
  policy : Policy
  static : StaticTierPolicy
  turn : Nat × String
  turnChoices : Dict String ModelChoice := ∅
  affinity : Dict String ModelChoice := ∅
  features : Dict String TaskFeatures := ∅
  settings : Settings

/-- `_RUNS`, least recently used first. -/
abbrev Runs := Dict String Bucket

def maxRuns : Nat := 1024

def defaultKey : String := "_default"

def nonEmpty (s : Option String) : Option String := s.filter fun t => decide (t ≠ "")

def runKey (host : HostState) : String := (nonEmpty host.sessionId).getD defaultKey

def turnSignature (digest : String → String) (host : HostState) : Nat × String :=
  let humans := host.messages.filter Message.human
  match humans.getLast? with
  | none => (0, "")
  | some last => (humans.length, digest ((nonEmpty last.id).getD last.content))

/-- `move_to_end` -/
def touch (runs : Runs) (key : String) : Runs :=
  match runs.get? key with
  | none => runs
  | some bucket => (runs.erase key).set key bucket

def evictRuns (runs : Runs) : List String → Runs
  | [] => runs
  | oldest :: later =>
    if maxRuns < runs.entries.length then evictRuns (runs.erase oldest) later else runs

def storeRun (runs : Runs) (key : String) (bucket : Bucket) : Runs :=
  let runs := (runs.erase key).set key bucket
  evictRuns runs runs.keys

def ModelChoice.escalationCount : ModelChoice → Nat
  | ⟨_, _, _, none, _⟩ => 0
  | ⟨_, _, _, some c, _⟩ => c.escalationCount + 1

def ModelChoice.view (c : ModelChoice) : ChoiceView := ⟨c.tier, c.modelRef, c.reason⟩

def affinityView (c : ModelChoice) : AffinityView :=
  .view c.tier.value c.modelRef (some c.escalationCount)

def affinityChain (modelRef : String) (tier : ModelTier) : Nat → Option ModelChoice
  | 0 => none
  | n + 1 => some {
      modelRef := modelRef
      tier := tier
      reason := "affinity"
      escalationOf := affinityChain modelRef tier n }

def restoreAffinity (static : StaticTierPolicy) (policyName : String) :
    AffinityView → Option ModelChoice
  | .malformed => none
  | .view tierValue modelRef escalations =>
    match ModelTier.ofValue tierValue with
    | .error _ => none
    | .ok tier =>
      if modelRef = static.modelFor tier then
        some {
          modelRef := modelRef
          tier := tier
          reason := "affinity"
          escalationOf := affinityChain modelRef tier (max 0 (escalations.getD 1)).toNat
          policy := policyName }
      else none

def restoreMissing (static : StaticTierPolicy) (policyName : String)
    (affinity : Dict String ModelChoice) (entry : String × AffinityView) :
    Dict String ModelChoice :=
  if entry.1 ∈ affinity then affinity
  else
    match restoreAffinity static policyName entry.2 with
    | none => affinity
    | some choice => affinity.set entry.1 choice

def buildPolicy (settings : Settings) : Policy where
  name :=
    if settings.routingPolicy ∈ ["cascade", "budget_aware", "composite"] then
      settings.routingPolicy
    else "static"
  static := some (.ofSettings settings)

def Policy.core (policy : Policy) (settings : Settings) : StaticTierPolicy :=
  policy.static.getD (.ofSettings settings)

def seedRoutingRun (digest : String → String) (runs : Runs) (host : HostState)
    (settings : Settings) (sessionId : Option String) (policy : Option Policy) :
    Runs × HostState :=
  let key := (nonEmpty sessionId).getD (runKey host)
  if settings.adaptiveRoutingEnabled && decide (key ≠ defaultKey) then
    let policy := policy.getD (buildPolicy settings)
    let static := policy.core settings
    let previous := ((runs.get? key).map Bucket.affinity).getD ∅
    let bucket : Bucket := {
      policy := policy
      static := static
      turn := turnSignature digest host
      affinity := host.routing.affinity.entries.foldl (restoreMissing static policy.name) previous
      settings := settings }
    let routing := { host.routing with engine := some (policy.name, settings.routingMode) }
    (storeRun runs key bucket, { host with routing := routing })
  else (runs, host)

def maybeSeedRoutingRun (digest : String → String) (runs : Runs) (host : HostState)
    (settings : Settings) : Runs × HostState :=
  if settings.adaptiveRoutingEnabled && decide (runKey host ≠ defaultKey) then
    let runs := touch runs (runKey host)
    match runs.get? (runKey host) with
    | none => seedRoutingRun digest runs host settings none none
    | some existing =>
      if existing.turn = turnSignature digest host then (runs, host)
      else seedRoutingRun digest runs host settings none (some existing.policy)
  else (runs, host)

def statelessBucket (settings : Settings) : Bucket where
  policy := buildPolicy settings
  static := (buildPolicy settings).core settings
  turn := (0, "")
  settings := settings

def fallbackChoice (static : StaticTierPolicy) (features : TaskFeatures) (exc : Exn) :
    ModelChoice where
  modelRef := (static.select features).modelRef
  tier := (static.select features).tier
  reason := "fallback:" ++ exc.type
  policy := "fallback"

def withFloorOnAffinity (affinity fresh : ModelChoice) : Except Exn ModelChoice :=
  if affinity.tier = .auto || fresh.tier = .auto then .ok affinity
  else do
    let highest ← maxTier affinity.tier fresh.tier
    return if highest = affinity.tier then affinity else fresh

def freshChoice (bucket : Bucket) (settings : Settings) (agent : String)
    (features : TaskFeatures) (answer : Except Exn ModelChoice) : Except Exn ModelChoice :=
  let choice := match answer with
    | .ok choice => choice
    | .error exc => fallbackChoice bucket.static features exc
  match bucket.affinity.get? agent with
  | none => .ok choice
  | some affinity =>
    if settings.routingCacheAffinityEnabled then withFloorOnAffinity affinity choice
    else .ok choice

def chosen (bucket : Bucket) (settings : Settings) (agent : String)
    (features : TaskFeatures) (answer : Except Exn ModelChoice) : Except Exn ModelChoice :=
  match bucket.turnChoices.get? agent with
  | none => freshChoice bucket settings agent features answer
  | some sticky =>
    if settings.routingCacheAffinityEnabled then .ok sticky
    else freshChoice bucket settings agent features answer

def choose (bucket : Bucket) (settings : Settings) (agent : String) (features : TaskFeatures)
    (answer : Except Exn ModelChoice) : Except Exn ModelChoice := do
  let choice ← chosen bucket settings agent features answer
  applySecurity choice features bucket.static

/-- What a call returned, and the static policy and request that an enforced choice is for. -/
structure Answer where
  result : Except Exn (Option ModelChoice)
  enforced : Option (StaticTierPolicy × TaskFeatures) := none

def Bucket.remember (bucket : Bucket) (agent : String) (features : TaskFeatures)
    (choice : ModelChoice) : Bucket :=
  { bucket with
    turnChoices := bucket.turnChoices.set agent choice
    features := bucket.features.set agent features }

def noteShadow (host : HostState) (agent : String) (choice : ModelChoice) : HostState :=
  { host with routing.shadow := host.routing.shadow.set agent choice.view }

def noteLast (host : HostState) (agent : String) (choice : ModelChoice) : HostState :=
  { host with routing.last := host.routing.last.set agent choice.view }

def shadowChoice (bucket : Bucket) (settings : Settings) (agent : String)
    (choice : ModelChoice) : ModelChoice where
  modelRef := settings.defaultModel
  tier := bucket.static.tierForAgent agent
  reason := "shadow"
  policy := choice.policy

def served (bucket : Bucket) (settings : Settings) (host : HostState) (agent : String)
    (features : TaskFeatures) (choice : ModelChoice) : HostState × Answer :=
  match settings.routingMode with
  | .shadow =>
    (noteShadow host agent choice, ⟨.ok (some (shadowChoice bucket settings agent choice)), none⟩)
  | .enforce => (noteLast host agent choice, ⟨.ok (some choice), some (bucket.static, features)⟩)

def parity (settings : Settings) : ModelChoice where
  modelRef := settings.defaultModel
  tier := .medium
  reason := "static"

def selectModel (digest : String → String) (runs : Runs) (host : HostState)
    (settings : Settings) (agent : String) (features : TaskFeatures)
    (answer : Except Exn ModelChoice) : Runs × HostState × Answer :=
  if settings.adaptiveRoutingEnabled then
    let (runs, host) := maybeSeedRoutingRun digest runs host settings
    let key := runKey host
    let runs := touch runs key
    let bucket := (runs.get? key).getD (statelessBucket settings)
    match choose bucket settings agent features answer with
    | .error exc => (runs, host, ⟨.error exc, none⟩)
    | .ok choice =>
      let runs := if key ∈ runs then runs.set key (bucket.remember agent features choice) else runs
      (runs, served bucket settings host agent features choice)
  else (runs, host, ⟨.ok (some (parity settings)), none⟩)

def bump (counts : Dict String Nat) (agent : String) : Dict String Nat :=
  counts.set agent ((counts.get? agent).getD 0 + 1)

def flooredEscalation (bucket : Bucket) (agent : String) (escalated : ModelChoice) :
    Except Exn ModelChoice :=
  match bucket.features.get? agent with
  | none => .ok escalated
  | some features => applySecurity escalated features bucket.static

def Bucket.escalate (bucket : Bucket) (agent : String) (escalated : ModelChoice) : Bucket :=
  { bucket with
    turnChoices := bucket.turnChoices.set agent escalated
    affinity :=
      if bucket.settings.routingCacheAffinityEnabled then bucket.affinity.set agent escalated
      else bucket.affinity }

def noteEscalation (bucket : Bucket) (host : HostState) (agent : String)
    (escalated : ModelChoice) : HostState :=
  let routing := host.routing
  { host with routing := { routing with
      affinity :=
        if bucket.settings.routingCacheAffinityEnabled then
          routing.affinity.set agent (affinityView escalated)
        else routing.affinity
      escalations := bump routing.escalations agent
      last := routing.last.set agent escalated.view } }

def noteShadowEscalation (host : HostState) (agent : String) : HostState :=
  { host with routing.shadowEscalations := bump host.routing.shadowEscalations agent }

def nothing : Answer := ⟨.ok none, none⟩

/-- `record_outcome`, given what the policy makes of the outcome. -/
def recordOutcome (runs : Runs) (host : HostState) (agent : String)
    (answer : Except Exn (Option ModelChoice)) : Runs × HostState × Answer :=
  let key := runKey host
  let runs := touch runs key
  match runs.get? key with
  | none => (runs, host, nothing)
  | some bucket =>
    match bucket.turnChoices.get? agent, answer with
    | some _, .ok (some proposal) =>
      match flooredEscalation bucket agent proposal with
      | .error exc => (runs, host, ⟨.error exc, none⟩)
      | .ok escalated =>
        match bucket.settings.routingMode with
        | .shadow => (runs, noteShadowEscalation host agent, nothing)
        | .enforce =>
          (runs.set key (bucket.escalate agent escalated),
            noteEscalation bucket host agent escalated,
            ⟨.ok (some escalated), (bucket.features.get? agent).map fun f => (bucket.static, f)⟩)
    | _, _ => (runs, host, nothing)

/-- The calls of a session run. Every call brings the graph state as the host holds it. -/
inductive Call where
  | select (host : HostState) (settings : Settings) (agent : String) (features : TaskFeatures)
      (answer : Except Exn ModelChoice)
  | outcome (host : HostState) (agent : String) (answer : Except Exn (Option ModelChoice))
  | seed (host : HostState) (settings : Settings) (sessionId : Option String)
      (policy : Option Policy)
  | clear (host : HostState)

def callStep (digest : String → String) (runs : Runs) : Call → Runs × HostState × Answer
  | .select host settings agent features answer =>
    selectModel digest runs host settings agent features answer
  | .outcome host agent answer => recordOutcome runs host agent answer
  | .seed host settings sessionId policy =>
    let (runs, host) := seedRoutingRun digest runs host settings sessionId policy
    (runs, host, nothing)
  | .clear host => (runs.erase (runKey host), host, nothing)

def nextRuns (digest : String → String) (runs : Runs) (call : Call) : Runs :=
  (callStep digest runs call).1

end Prismal.Routing
