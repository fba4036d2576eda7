import Prismal.Routing.Select

namespace Prismal.Routing
open Prismal.Lib Prismal.Decisions
set_option autoImplicit true

/-! The policies that an engine is built from: what they choose, what they make of an outcome. -/

structure BudgetStatus where
  softExceeded : Bool
  hardExceeded : Bool

structure RoutingOutcome where
  structuredValid : Option Bool := none
  adequacy : Option Rat := none
  toolErrors : Int := 0
  adequacyChecked : Bool := false
  features : Option TaskFeatures := none

/-- The settings of the cascade; the validators refuse `auto` as its entry tier. -/
structure CascadeSettings where
  startTier : ModelTier := .small
  maxEscalations : Nat := 2
  toolErrorThreshold : Int := 2
  adequacyTau : Rat := 7 / 10
  tierCapabilities : Dict ModelTier (List String)
  start_ordered : startTier ≠ .auto := by decide

/-- `RoutingPolicyPort` -/
structure RoutingPolicyPort where
  select : TaskFeatures → Option BudgetStatus → Except Exn ModelChoice
  onOutcome : ModelChoice → RoutingOutcome → Except Exn (Option ModelChoice)

def StaticTierPolicy.port (static : StaticTierPolicy) : RoutingPolicyPort where
  select features _ := .ok (static.select features)
  onOutcome _ _ := .ok none

/-- Move along `tierOrder`, clamped at both ends. -/
def tierShift (tier : ModelTier) (steps : Int) : ModelTier :=
  if tier = .auto then tier
  else tierOrder.getD (min (max (tier.rank + steps) 0) 3).toNat tier

/-- Downgrade the inner choice by one tier while over the soft cap. -/
structure BudgetAwarePolicy where
  static : StaticTierPolicy
  inner : RoutingPolicyPort

namespace BudgetAwarePolicy

def belowFloor (p : BudgetAwarePolicy) (features : TaskFeatures) (target : ModelTier) :
    Except Exn Bool :=
  match p.static.floor.get features.riskTier with
  | none => .ok false
  | some minimum => do return !(← tierAtLeast target minimum)

def downgrade (p : BudgetAwarePolicy) (features : TaskFeatures) (choice : ModelChoice) :
    Except Exn ModelChoice := do
  let target := tierShift choice.tier (-1)
  let below ← p.belowFloor features target
  return if target = choice.tier || below then choice
    else {
      modelRef := p.static.modelFor target
      tier := target
      reason := "budget_soft_cap"
      escalationOf := choice.escalationOf
      policy := "budget_aware" }

def select (p : BudgetAwarePolicy) (features : TaskFeatures) (budget : Option BudgetStatus) :
    Except Exn ModelChoice := do
  let choice ← p.inner.select features budget
  match budget with
  | none => return choice
  | some b =>
    if b.hardExceeded || !b.softExceeded || features.tainted || choice.tier = .auto then
      return choice
    else p.downgrade features choice

def port (p : BudgetAwarePolicy) : RoutingPolicyPort := ⟨p.select, p.inner.onOutcome⟩

end BudgetAwarePolicy

inductive EscalationCause where
  | structuredInvalid
  | inadequate
  | toolErrors

def EscalationCause.value : EscalationCause → String
  | structuredInvalid => "structured_invalid"
  | inadequate => "inadequate"
  | toolErrors => "tool_errors"

/-- Cheapest first, with one-way, capped escalation. `remembered` is what the cascade keeps of the
requests of earlier choices. -/
structure CascadePolicy where
  settings : CascadeSettings
  static : StaticTierPolicy
  inner : RoutingPolicyPort
  remembered : ModelChoice → Option TaskFeatures

namespace CascadePolicy

variable (p : CascadePolicy)

def capable (features : TaskFeatures) (tier : ModelTier) : Bool :=
  match p.settings.tierCapabilities.get? tier with
  | none => true
  | some caps =>
    (!features.needsTools || decide ("tools" ∈ caps)) &&
      (!features.needsStructuredOutput || decide ("structured_output" ∈ caps))

def firstCapableFrom (tier : ModelTier) (features : TaskFeatures) :
    Except Exn (Option ModelTier) := do
  let i ← tierIndex tier
  return (tierOrder.drop i).find? (p.capable features)

def entryTier (features : TaskFeatures) (base : ModelTier) : Except Exn ModelTier := do
  let i ← tierIndex p.settings.startTier
  let j ← tierIndex base
  let tier := if i ≤ j then p.settings.startTier else base
  let tier ← if features.tainted then maxTier tier base else pure tier
  match p.static.floor.get features.riskTier with
  | none => return tier
  | some minimum => maxTier tier minimum

def select (features : TaskFeatures) (budget : Option BudgetStatus) : Except Exn ModelChoice := do
  let base ← p.inner.select features budget
  if base.tier = .auto then return base
  else
    let tier ← p.entryTier features base.tier
    let capable := (← p.firstCapableFrom tier features).getD tier
    return {
      modelRef := p.static.modelFor capable
      tier := capable
      reason := "cascade_start"
      escalationOf := base.escalationOf
      policy := "cascade" }

def cause (outcome : RoutingOutcome) (features : Option TaskFeatures) : Option EscalationCause :=
  if outcome.structuredValid = some false then some .structuredInvalid
  else if outcome.adequacy.any fun a => decide (a < p.settings.adequacyTau) then some .inadequate
  else if p.settings.toolErrorThreshold ≤ outcome.toolErrors then some .toolErrors
  -- an adequacy check that abstained does not accept an answer at a high risk
  else if outcome.adequacy.isNone && outcome.adequacyChecked &&
      features.any fun f => f.riskTier = .high || f.riskTier = .critical then some .inadequate
  else none

def nextTier (tier : ModelTier) (features : Option TaskFeatures) : Except Exn ModelTier := do
  let next := tierOrder.getD ((← tierIndex tier) + 1) .frontier
  match features with
  | none => return next
  | some features => return (← p.firstCapableFrom next features).getD .frontier

/-- `_on_outcome` -/
def escalation (choice : ModelChoice) (outcome : RoutingOutcome) :
    Except Exn (Option ModelChoice) :=
  let features := outcome.features.or (p.remembered choice)
  match p.cause outcome features with
  | none => .ok none
  | some cause =>
    if choice.tier = .frontier || choice.tier = .auto ||
        decide (p.settings.maxEscalations ≤ choice.escalationCount) then .ok none
    else do
      let target ← p.nextTier choice.tier features
      return some {
        modelRef := p.static.modelFor target
        tier := target
        reason := "escalation:" ++ cause.value
        escalationOf := some choice
        policy := "cascade" }

def onOutcome (choice : ModelChoice) (outcome : RoutingOutcome) : Option ModelChoice :=
  match p.escalation choice outcome with
  | .ok escalated => escalated
  | .error _ => none

def port : RoutingPolicyPort := ⟨p.select, fun choice outcome => .ok (p.onOutcome choice outcome)⟩

end CascadePolicy

structure CompositePolicy where
  static : StaticTierPolicy
  outermost : RoutingPolicyPort
  inward : List RoutingPolicyPort

namespace CompositePolicy

def firstChoice (static : StaticTierPolicy) (features : TaskFeatures)
    (budget : Option BudgetStatus) : RoutingPolicyPort → List RoutingPolicyPort → ModelChoice
  | policy, inward =>
    match policy.select features budget with
    | .ok choice => choice
    | .error exc =>
      match inward with
      | [] => fallbackChoice static features exc
      | next :: inward => firstChoice static features budget next inward

def firstEscalation (choice : ModelChoice) (outcome : RoutingOutcome) :
    List RoutingPolicyPort → Option ModelChoice
  | [] => none
  | policy :: policies =>
    match policy.onOutcome choice outcome with
    | .ok (some escalated) => some escalated
    | _ => firstEscalation choice outcome policies

/-- `select` asks from the outside inward, `on_outcome` from the inside outward. -/
def port (p : CompositePolicy) : RoutingPolicyPort where
  select features budget := .ok (firstChoice p.static features budget p.outermost p.inward)
  onOutcome choice outcome :=
    .ok (firstEscalation choice outcome (p.inward.reverse ++ [p.outermost]))

end CompositePolicy

def routingPolicy (settings : Settings) (cs : CascadeSettings)
    (remembered : ModelChoice → Option TaskFeatures) : RoutingPolicyPort :=
  let static := StaticTierPolicy.ofSettings settings
  let cascade := CascadePolicy.port ⟨cs, static, static.port, remembered⟩
  if settings.routingPolicy = "cascade" then cascade
  else if settings.routingPolicy = "budget_aware" then BudgetAwarePolicy.port ⟨static, static.port⟩
  else if settings.routingPolicy = "composite" then
    CompositePolicy.port ⟨static, BudgetAwarePolicy.port ⟨static, cascade⟩, [cascade, static.port]⟩
  else static.port

/-! What holds of all of them. -/

/-- An escalation of a choice: one tier higher or more, with the choice behind it. -/
structure Escalates (static : StaticTierPolicy) (cap : Nat) (choice escalated : ModelChoice) :
    Prop where
  fromOrdered : choice.tier ≠ .auto
  ordered : escalated.tier ≠ .auto
  higher : choice.tier.rank < escalated.tier.rank
  behind : escalated.escalationOf = some choice
  allowed : choice.escalationCount < cap
  mapped : escalated.modelRef = static.modelFor escalated.tier

/-- A policy chooses afresh, and its escalations are escalations. -/
structure Lawful (static : StaticTierPolicy) (cap : Nat) (policy : RoutingPolicyPort) : Prop where
  fresh : ∀ features budget choice, policy.select features budget = .ok choice →
    choice.escalationOf = none
  escalates : ∀ choice outcome escalated, policy.onOutcome choice outcome = .ok (some escalated) →
    Escalates static cap choice escalated

theorem rank_lt_length (h : t ≠ ModelTier.auto) : t.rank < tierOrder.length := by
  cases t with
  | auto => exact absurd rfl h
  | nano | small | medium | frontier => decide

theorem of_mem_drop_tierOrder {t : ModelTier} (h : t ∈ tierOrder.drop i) :
    t ≠ .auto ∧ i ≤ t.rank := by
  obtain ⟨j, hj, rfl⟩ := List.mem_iff_getElem.1 h
  rw [List.getElem_drop]
  have hnodup : tierOrder.Nodup := by decide
  refine ⟨?_, ?_⟩
  · intro heq
    have hmem : ModelTier.auto ∈ tierOrder := heq ▸ List.getElem_mem _
    exact absurd hmem (by decide)
  · rw [ModelTier.rank, hnodup.idxOf_getElem]
    omega

theorem nextTier_spec {p : CascadePolicy} (hne : tier ≠ .frontier) (ha : tier ≠ .auto)
    (h : p.nextTier tier features = .ok target) : target ≠ .auto ∧ tier.rank < target.rank := by
  have hnext : tierOrder.getD (tier.rank + 1) .frontier ≠ .auto ∧
      tier.rank < (tierOrder.getD (tier.rank + 1) .frontier).rank := by
    cases tier with
    | frontier => exact absurd rfl hne
    | auto => exact absurd rfl ha
    | nano | small | medium => decide
  rw [CascadePolicy.nextTier, tierIndex_ordered ha] at h
  dsimp only [bind, Except.bind] at h
  generalize tierOrder.getD (tier.rank + 1) .frontier = next at h hnext
  cases features with
  | none =>
    cases h
    exact hnext
  | some features =>
    dsimp only at h
    rw [CascadePolicy.firstCapableFrom, tierIndex_ordered hnext.1] at h
    dsimp only [bind, Except.bind, pure, Except.pure] at h
    cases h
    cases hfind : (tierOrder.drop next.rank).find? (p.capable features) with
    | none =>
      have hlt := rank_lt_length hnext.1
      have hfrontier : ModelTier.frontier.rank = tierOrder.length - 1 := rfl
      rw [Option.getD_none, hfrontier]
      exact ⟨ModelTier.noConfusion, by omega⟩
    | some t =>
      obtain ⟨ht, hle⟩ := of_mem_drop_tierOrder (List.mem_of_find?_eq_some hfind)
      exact ⟨ht, hnext.2.trans_le hle⟩

section
variable {static : StaticTierPolicy} {cap : Nat} {policy : RoutingPolicyPort}

theorem lawful_static : Lawful static cap static.port := by
  constructor
  · intro features budget choice h
    cases h
    rfl
  · intro choice outcome escalated h
    cases h

theorem escalationOf_downgrade {p : BudgetAwarePolicy} (h : p.downgrade features choice = .ok c) :
    c.escalationOf = choice.escalationOf := by
  rw [BudgetAwarePolicy.downgrade] at h
  cases hbelow : p.belowFloor features (tierShift choice.tier (-1)) with
  | error exc =>
    rw [hbelow] at h
    cases h
  | ok below =>
    rw [hbelow] at h
    cases h
    split <;> rfl

theorem Lawful.budgetAware (h : Lawful static cap policy) :
    Lawful static cap (BudgetAwarePolicy.port ⟨static, policy⟩) := by
  constructor
  · intro features budget choice hsel
    have hsel : BudgetAwarePolicy.select ⟨static, policy⟩ features budget = .ok choice := hsel
    rw [BudgetAwarePolicy.select] at hsel
    cases hinner : policy.select features budget with
    | error exc =>
      rw [hinner] at hsel
      cases hsel
    | ok c =>
      have hfresh := h.fresh features budget c hinner
      rw [hinner] at hsel
      dsimp only [bind, Except.bind] at hsel
      split at hsel
      · cases hsel
        exact hfresh
      · split at hsel
        · cases hsel
          exact hfresh
        · rw [escalationOf_downgrade hsel]
          exact hfresh
  · exact h.escalates

theorem Lawful.cascade (h : Lawful static cap policy) (cs : CascadeSettings)
    (remembered : ModelChoice → Option TaskFeatures) :
    Lawful static cs.maxEscalations (CascadePolicy.port ⟨cs, static, policy, remembered⟩) := by
  constructor
  · intro features budget choice hsel
    have hsel : CascadePolicy.select ⟨cs, static, policy, remembered⟩ features budget =
      .ok choice := hsel
    rw [CascadePolicy.select] at hsel
    cases hinner : policy.select features budget with
    | error exc =>
      rw [hinner] at hsel
      cases hsel
    | ok c =>
      have hfresh := h.fresh features budget c hinner
      rw [hinner] at hsel
      dsimp only [bind, Except.bind] at hsel
      split at hsel
      · cases hsel
        exact hfresh
      · split at hsel
        · cases hsel
        · split at hsel
          · cases hsel
          · cases hsel
            exact hfresh
  · intro choice outcome escalated hout
    have hout : CascadePolicy.onOutcome ⟨cs, static, policy, remembered⟩ choice outcome =
      some escalated := Except.ok.inj hout
    rw [CascadePolicy.onOutcome] at hout
    split at hout
    next result hesc =>
      subst hout
      rw [CascadePolicy.escalation] at hesc
      dsimp only at hesc
      split at hesc
      · cases hesc
      · split at hesc
        · cases hesc
        next hgo =>
          simp only [Bool.or_eq_true, decide_eq_true_eq, not_or, Nat.not_le] at hgo
          obtain ⟨⟨hfrontier, hauto⟩, hcap⟩ := hgo
          cases hnext : CascadePolicy.nextTier ⟨cs, static, policy, remembered⟩ choice.tier
            (outcome.features.or (remembered choice)) with
          | error exc =>
            rw [hnext] at hesc
            cases hesc
          | ok target =>
            rw [hnext] at hesc
            cases hesc
            obtain ⟨hordered, hhigher⟩ := nextTier_spec hfrontier hauto hnext
            exact ⟨hauto, hordered, hhigher, rfl, hcap, rfl⟩
    · cases hout

theorem firstChoice_fresh (h : Lawful static cap policy)
    (hs : ∀ inner ∈ inward, Lawful static cap inner) (features : TaskFeatures)
    (budget : Option BudgetStatus) :
    (CompositePolicy.firstChoice static features budget policy inward).escalationOf = none := by
  induction inward generalizing policy with
  | nil =>
    rw [CompositePolicy.firstChoice]
    split
    next choice hsel => exact h.fresh features budget choice hsel
    · rfl
  | cons next inward ih =>
    rw [CompositePolicy.firstChoice]
    split
    next choice hsel => exact h.fresh features budget choice hsel
    · obtain ⟨hnext, hinward⟩ := List.forall_mem_cons.1 hs
      exact ih hnext hinward

theorem firstEscalation_escalates {policies : List RoutingPolicyPort}
    (hs : ∀ policy ∈ policies, Lawful static cap policy)
    (h : CompositePolicy.firstEscalation choice outcome policies = some escalated) :
    Escalates static cap choice escalated := by
  induction policies with
  | nil => cases h
  | cons policy policies ih =>
    obtain ⟨hpolicy, hpolicies⟩ := List.forall_mem_cons.1 hs
    rw [CompositePolicy.firstEscalation] at h
    split at h
    next hout =>
      cases h
      exact hpolicy.escalates choice outcome _ hout
    · exact ih hpolicies h

theorem Lawful.composite (h : Lawful static cap policy)
    (hs : ∀ inner ∈ inward, Lawful static cap inner) :
    Lawful static cap (CompositePolicy.port ⟨static, policy, inward⟩) := by
  constructor
  · intro features budget choice hsel
    cases hsel
    exact firstChoice_fresh h hs features budget
  · intro choice outcome escalated hout
    apply firstEscalation_escalates _ (Except.ok.inj hout)
    intro policy' hmem
    rcases List.mem_append.1 hmem with hmem | hmem
    · exact hs policy' (List.mem_reverse.1 hmem)
    · exact List.mem_singleton.1 hmem ▸ h

end

theorem lawful_routingPolicy (settings : Settings) (cs : CascadeSettings)
    (remembered : ModelChoice → Option TaskFeatures) :
    Lawful (.ofSettings settings) cs.maxEscalations (routingPolicy settings cs remembered) := by
  have hstatic : Lawful (.ofSettings settings) cs.maxEscalations
    (StaticTierPolicy.ofSettings settings).port := lawful_static
  have hcascade := hstatic.cascade cs remembered
  rw [routingPolicy]
  split
  · exact hcascade
  · split
    · exact hstatic.budgetAware
    · split
      · apply hcascade.budgetAware.composite
        intro policy hmem
        rcases List.mem_pair.1 hmem with rfl | rfl
        · exact hcascade
        · exact hstatic
      · exact hstatic

end Prismal.Routing
