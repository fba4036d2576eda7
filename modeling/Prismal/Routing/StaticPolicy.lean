import Prismal.Routing.Types

namespace Prismal.Routing
open Prismal.Lib Prismal.Decisions
set_option autoImplicit true

def maxTier (a b : ModelTier) : Except Exn ModelTier := do
  let i ← tierIndex a
  let j ← tierIndex b
  return if j ≤ i then a else b

/-- Minimum tiers per risk; the loader and the settings refuse `auto` as a floor. -/
structure RiskFloor where
  get : RiskTier → Option ModelTier
  ordered : ∀ {risk tier}, get risk = some tier → tier ≠ .auto

def ModelTier.rank (t : ModelTier) : Nat := tierOrder.idxOf t

/-- The tier map file; a missing or invalid one is the empty map. -/
structure TierMap where
  models : Dict ModelTier String := ∅
  agents : Dict String ModelTier := ∅
  floor : RiskFloor := ⟨fun _ => none, fun h => nomatch h⟩

inductive RoutingMode where
  | shadow
  | enforce
  deriving DecidableEq, Repr

structure Settings where
  adaptiveRoutingEnabled : Bool
  routingMode : RoutingMode
  routingPolicy : String
  routingCacheAffinityEnabled : Bool
  defaultModel : String
  routingRiskFloor : RiskFloor
  tierMap : TierMap
  /-- the per-feature model settings of 3.15.0, by agent -/
  legacyModel : String → Option String

def stricter (setting base : Option ModelTier) : Option ModelTier :=
  match setting, base with
  | none, b => b
  | some t, none => some t
  | some t, some current => some (if t.rank ≤ current.rank then current else t)

def resolveRiskFloor (settings base : RiskFloor) : RiskFloor where
  get risk := stricter (settings.get risk) (base.get risk)
  ordered := by
    intro risk tier h
    cases hs : settings.get risk with
    | none =>
      rw [hs] at h
      exact base.ordered h
    | some t =>
      rw [hs] at h
      cases hb : base.get risk with
      | none =>
        rw [hb] at h
        exact Option.some.inj h ▸ settings.ordered hs
      | some current =>
        rw [hb, stricter, Option.some.injEq] at h
        split at h
        · exact h ▸ base.ordered hb
        · exact h ▸ settings.ordered hs

/-- `StaticTierPolicy` -/
structure StaticTierPolicy where
  tierModels : Dict ModelTier String
  agentTiers : Dict String ModelTier
  legacyModel : String → Option String
  defaultModel : String
  floor : RiskFloor

namespace StaticTierPolicy

def ofSettings (settings : Settings) : StaticTierPolicy where
  tierModels := settings.tierMap.models
  agentTiers := settings.tierMap.agents
  legacyModel := settings.legacyModel
  defaultModel := settings.defaultModel
  floor := resolveRiskFloor settings.routingRiskFloor settings.tierMap.floor

def modelFor (p : StaticTierPolicy) (tier : ModelTier) : String :=
  ((p.tierModels.get? tier).filter fun ref => decide (ref ≠ "")).getD p.defaultModel

def legacyTier (p : StaticTierPolicy) (agent : String) : Option ModelTier :=
  match (p.legacyModel agent).filter fun ref => decide (ref ≠ "") with
  | none => none
  | some legacy => (p.tierModels.entries.find? fun e => e.2 == legacy).map Prod.fst

def tierForAgent (p : StaticTierPolicy) (agent : String) : ModelTier :=
  match p.agentTiers.get? agent with
  | some tier => tier
  | none => (p.legacyTier agent).getD .medium

def select (p : StaticTierPolicy) (features : TaskFeatures) : ModelChoice where
  modelRef := p.modelFor (p.tierForAgent features.agent)
  tier := p.tierForAgent features.agent
  reason := "static"

end StaticTierPolicy

def ModelChoice.raised (c : ModelChoice) (modelRef : String) (tier : ModelTier)
    (suffix : String) : ModelChoice where
  modelRef := modelRef
  tier := tier
  reason := c.reason ++ suffix
  escalationOf := c.escalationOf
  policy := c.policy

/-- Raise a choice to the risk floor; `auto` is banned for critical risk only. -/
def clampToFloor (choice : ModelChoice) (features : TaskFeatures) (static : StaticTierPolicy) :
    Except Exn ModelChoice :=
  let minimum := static.floor.get features.riskTier
  if choice.tier = .auto then
    if features.riskTier = .critical then
      let target := minimum.getD .frontier
      .ok (choice.raised (static.modelFor target) target "+floor")
    else .ok choice
  else
    match minimum with
    | none => .ok choice
    | some target => do
      let highest ← maxTier choice.tier target
      return if highest = choice.tier then choice
        else choice.raised (static.modelFor target) target "+floor"

/-- Whether the choice lies below the static tier; an `auto` router always does. -/
def belowStatic (choice base : ModelTier) : Except Exn Bool :=
  if base = .auto then .ok false
  else if choice = .auto then .ok true
  else do
    let highest ← maxTier choice base
    return decide (highest ≠ choice)

def raiseTainted (choice : ModelChoice) (features : TaskFeatures) (static : StaticTierPolicy) :
    Except Exn ModelChoice :=
  if features.tainted then do
    let base := static.select features
    let below ← belowStatic choice.tier base.tier
    return if below then choice.raised base.modelRef base.tier "+tainted" else choice
  else .ok choice

def applySecurity (choice : ModelChoice) (features : TaskFeatures) (static : StaticTierPolicy) :
    Except Exn ModelChoice := do
  let choice ← raiseTainted choice features static
  clampToFloor choice features static

/-- What the floors promise of a tier: the risk floor, no `auto` for critical risk, and for a
tainted turn the static tier where that is ordered. -/
structure Floored (static : StaticTierPolicy) (features : TaskFeatures) (tier : ModelTier) :
    Prop where
  critical : features.riskTier = .critical → tier ≠ .auto
  risk : ∀ minimum, static.floor.get features.riskTier = some minimum → tier ≠ .auto →
    minimum.rank ≤ tier.rank
  tainted : features.tainted = true → static.tierForAgent features.agent ≠ .auto →
    tier ≠ .auto ∧ (static.tierForAgent features.agent).rank ≤ tier.rank

@[simp] theorem ModelChoice.raised_tier (c : ModelChoice) (ref : String) (tier : ModelTier)
    (suffix : String) : (c.raised ref tier suffix).tier = tier := rfl

theorem tierIndex_ordered (h : t ≠ .auto) : tierIndex t = .ok t.rank := by
  rw [tierIndex, if_neg h]
  rfl

theorem maxTier_ordered (ha : a ≠ .auto) (hb : b ≠ .auto) :
    maxTier a b = .ok (if b.rank ≤ a.rank then a else b) := by
  rw [maxTier, tierIndex_ordered ha, tierIndex_ordered hb]
  rfl

@[simp] theorem StaticTierPolicy.select_tier (p : StaticTierPolicy) (features : TaskFeatures) :
    (p.select features).tier = p.tierForAgent features.agent := rfl

theorem raiseTainted_spec (choice : ModelChoice) (features : TaskFeatures)
    (static : StaticTierPolicy) :
    ∃ c, raiseTainted choice features static = .ok c ∧
      (features.tainted = true → static.tierForAgent features.agent ≠ .auto →
        c.tier ≠ .auto ∧ (static.tierForAgent features.agent).rank ≤ c.tier.rank) := by
  rw [raiseTainted]
  cases ht : features.tainted with
  | false => exact ⟨choice, rfl, fun h => nomatch h⟩
  | true =>
    simp only [if_true]
    by_cases hb : static.tierForAgent features.agent = .auto
    · have hbelow : belowStatic choice.tier (static.select features).tier = .ok false := if_pos hb
      rw [hbelow]
      exact ⟨choice, rfl, fun _ h => absurd hb h⟩
    · by_cases hc : choice.tier = .auto
      · have hbelow : belowStatic choice.tier (static.select features).tier = .ok true := by
          rw [StaticTierPolicy.select_tier, belowStatic, if_neg hb, if_pos hc]
        rw [hbelow]
        exact ⟨_, rfl, fun _ _ => ⟨hb, Nat.le_refl _⟩⟩
      · have hmax := maxTier_ordered hc hb
        rw [StaticTierPolicy.select_tier, belowStatic, if_neg hb, if_neg hc, hmax]
        by_cases hle : (static.tierForAgent features.agent).rank ≤ choice.tier.rank
        · rw [if_pos hle]
          simp only [bind, Except.bind, pure, Except.pure, ne_eq, not_true_eq_false, decide_false,
            Bool.false_eq_true, if_false]
          exact ⟨choice, rfl, fun _ _ => ⟨hc, hle⟩⟩
        · have hne : static.tierForAgent features.agent ≠ choice.tier := fun he =>
            hle (he ▸ Nat.le_refl _)
          rw [if_neg hle]
          simp only [bind, Except.bind, pure, Except.pure, ne_eq, hne, not_false_eq_true,
            decide_true, if_true]
          exact ⟨_, rfl, fun _ _ => ⟨hb, Nat.le_refl _⟩⟩

theorem clampToFloor_spec (choice : ModelChoice) (features : TaskFeatures)
    (static : StaticTierPolicy) :
    ∃ c, clampToFloor choice features static = .ok c ∧
      (features.riskTier = .critical → c.tier ≠ .auto) ∧
      (∀ minimum, static.floor.get features.riskTier = some minimum → c.tier ≠ .auto →
        minimum.rank ≤ c.tier.rank) ∧
      (choice.tier ≠ .auto → c.tier ≠ .auto ∧ choice.tier.rank ≤ c.tier.rank) := by
  rw [clampToFloor]
  by_cases ha : choice.tier = .auto
  · simp only [ha, if_true]
    by_cases hr : features.riskTier = .critical
    · rw [if_pos hr]
      refine ⟨_, rfl, ?_, ?_, fun h => absurd rfl h⟩
      · intro _
        rw [ModelChoice.raised_tier]
        cases hm : static.floor.get features.riskTier with
        | none => exact fun h => nomatch h
        | some m => exact static.floor.ordered hm
      · intro minimum hm _
        rw [ModelChoice.raised_tier, hm]
        exact Nat.le_refl _
    · rw [if_neg hr]
      exact ⟨choice, rfl, fun h => absurd h hr, fun _ _ h => absurd ha h, fun h => absurd rfl h⟩
  · simp only [ha, if_false]
    cases hm : static.floor.get features.riskTier with
    | none => exact ⟨choice, rfl, fun _ => ha, (fun _ h => nomatch h), fun _ => ⟨ha, Nat.le_refl _⟩⟩
    | some target =>
      have ht := static.floor.ordered hm
      simp only [maxTier_ordered ha ht, bind, Except.bind, pure, Except.pure]
      by_cases hle : target.rank ≤ choice.tier.rank
      · simp only [hle, if_true]
        refine ⟨choice, rfl, fun _ => ha, ?_, fun _ => ⟨ha, Nat.le_refl _⟩⟩
        intro minimum he _
        rw [← Option.some.inj he]
        exact hle
      · have hne : target ≠ choice.tier := fun he => hle (he ▸ Nat.le_refl _)
        simp only [hle, hne, if_false]
        refine ⟨_, rfl, fun _ => ht, ?_, fun _ => ⟨ht, by rw [ModelChoice.raised_tier]; omega⟩⟩
        intro minimum he _
        rw [← Option.some.inj he]
        exact Nat.le_refl _

theorem applySecurity_spec (choice : ModelChoice) (features : TaskFeatures)
    (static : StaticTierPolicy) :
    ∃ c, applySecurity choice features static = .ok c ∧ Floored static features c.tier := by
  obtain ⟨c₁, h₁, htaint⟩ := raiseTainted_spec choice features static
  obtain ⟨c₂, h₂, hcrit, hrisk, hkeep⟩ := clampToFloor_spec c₁ features static
  refine ⟨c₂, by rw [applySecurity, h₁]; exact h₂, ⟨hcrit, hrisk, ?_⟩⟩
  intro ht hb
  obtain ⟨hne, hle⟩ := htaint ht hb
  obtain ⟨hne', hle'⟩ := hkeep hne
  exact ⟨hne', Nat.le_trans hle hle'⟩

end Prismal.Routing
