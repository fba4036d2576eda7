import Prismal.Routing.Cascade
import Prismal.Routing.Floors

namespace Prismal.Routing
open Prismal.Lib Prismal.Lib.Run Prismal.Decisions
set_option autoImplicit true

/-! A session over its hops, turns and restarts: the engine may be lost at any time, the affinity
of the agents is persisted with the state of the graph. -/

structure Deployment where
  settings : Settings
  cascade : CascadeSettings
  digest : String → String

/-- What an agent gets to see: the model of a call, or the one to try again with. -/
inductive Routed where
  | served (agent : String) (choice : ModelChoice)
  | escalated (agent : String) (before after : ModelChoice)

def Routed.agent : Routed → String
  | served agent _ => agent
  | escalated agent _ _ => agent

def Routed.choice : Routed → ModelChoice
  | served _ choice => choice
  | escalated _ _ after => after

structure RoutingSession where
  runs : Runs := ∅
  host : HostState
  log : List Routed := []

/-- A step of a session. The messages are those of the state when the call is made. -/
inductive Hop where
  | select (messages : List Message) (agent : String) (features : TaskFeatures)
      (budget : Option BudgetStatus)
  | outcome (messages : List Message) (agent : String) (outcome : RoutingOutcome)
      (remembered : ModelChoice → Option TaskFeatures)
  | restart

def turnChoice (runs : Runs) (key agent : String) : Option ModelChoice :=
  (runs.get? key).bind fun bucket => bucket.turnChoices.get? agent

def Answer.served (answer : Answer) (agent : String) : List Routed :=
  match answer.result with
  | .ok (some choice) => [.served agent choice]
  | _ => []

def Answer.escalated (answer : Answer) (agent : String) (before : Option ModelChoice) :
    List Routed :=
  match before, answer.result with
  | some before, .ok (some after) => [.escalated agent before after]
  | _, _ => []

def policyChoice (static : StaticTierPolicy) (features : TaskFeatures)
    (answer : Except Exn ModelChoice) : ModelChoice :=
  match answer with
  | .ok choice => choice
  | .error exc => fallbackChoice static features exc

def Bucket.completed (bucket : Bucket) (agent : String) (outcome : RoutingOutcome) :
    RoutingOutcome :=
  { outcome with features := outcome.features.or (bucket.features.get? agent) }

namespace Deployment

variable (d : Deployment)

def selection (features : TaskFeatures) (budget : Option BudgetStatus) : Except Exn ModelChoice :=
  (routingPolicy d.settings d.cascade fun _ => none).select features budget

def verdict (runs : Runs) (key agent : String) (outcome : RoutingOutcome)
    (remembered : ModelChoice → Option TaskFeatures) : Except Exn (Option ModelChoice) :=
  match runs.get? key with
  | none => .ok none
  | some bucket =>
    match bucket.turnChoices.get? agent with
    | none => .ok none
    | some choice =>
      (routingPolicy d.settings d.cascade remembered).onOutcome choice
        (bucket.completed agent outcome)

def step (s : RoutingSession) : Hop → RoutingSession
  | .select messages agent features budget =>
    let (runs, host, answer) := selectModel d.digest s.runs { s.host with messages := messages }
      d.settings agent features (d.selection features budget)
    { runs := runs, host := host, log := s.log ++ answer.served agent }
  | .outcome messages agent outcome remembered =>
    let key := runKey s.host
    let (runs, host, answer) := recordOutcome s.runs { s.host with messages := messages } agent
      (d.verdict s.runs key agent outcome remembered)
    { runs := runs, host := host,
      log := s.log ++ answer.escalated agent (turnChoice s.runs key agent) }
  | .restart => { s with runs := ∅ }

def engine (s : RoutingSession) (messages : List Message) : Option Bucket :=
  (maybeSeedRoutingRun d.digest s.runs { s.host with messages := messages }
    d.settings).1.get? (runKey s.host)

/-- In a new turn the choice of the policy lies above the tier that the agent was escalated to. -/
def overtakes (s : RoutingSession) : Hop → Bool
  | .select messages agent features budget =>
    (d.engine s messages).any fun bucket =>
      (bucket.turnChoices.get? agent).isNone &&
        (bucket.affinity.get? agent).any fun affinity =>
          let fresh := policyChoice bucket.static features (d.selection features budget)
          decide (fresh.tier ≠ .auto) && decide (affinity.tier.rank < fresh.tier.rank)
  | _ => false

def start (sessionId : Option String) : RoutingSession where
  host := { sessionId := sessionId, messages := [], routing := {} }

def history (sessionId : Option String) (hops : List Hop) : List Routed :=
  (final d.step (start sessionId) hops).log

end Deployment

def NoRedescent (log : List Routed) : Prop :=
  log.Pairwise fun earlier later => ∀ agent before after,
    earlier = .escalated agent before after → later.agent = agent →
      later.choice.tier ≠ .auto ∧ after.tier.rank ≤ later.choice.tier.rank

def StrictlyRaised (log : List Routed) : Prop :=
  ∀ agent before after, .escalated agent before after ∈ log →
    before.tier ≠ .auto ∧ after.tier ≠ .auto ∧ before.tier.rank < after.tier.rank

def Routed.escalatedFor (agent : String) : Routed → Option ModelChoice
  | served _ _ => none
  | escalated a _ after => if a = agent then some after else none

def escalations (agent : String) (log : List Routed) : Nat :=
  (log.filterMap (Routed.escalatedFor agent)).length

def lastEscalated (agent : String) (log : List Routed) : Option ModelChoice :=
  (log.filterMap (Routed.escalatedFor agent)).getLast?

/-! What a choice goes through keeps its history. -/

theorem escalationCount_eq (c : ModelChoice) :
    c.escalationCount = c.escalationOf.elim 0 fun before => before.escalationCount + 1 := by
  obtain ⟨modelRef, tier, reason, escalationOf, policy⟩ := c
  cases escalationOf with
  | none => rfl
  | some before => rfl

theorem escalationCount_congr {c c' : ModelChoice} (h : c.escalationOf = c'.escalationOf) :
    c.escalationCount = c'.escalationCount := by
  rw [escalationCount_eq, escalationCount_eq c', h]

/-- A choice with the same escalations behind it, at the same tier or a higher one, and on the
tier map if it was. -/
structure Lifted (static : StaticTierPolicy) (choice c : ModelChoice) : Prop where
  behind : c.escalationOf = choice.escalationOf
  higher : choice.tier ≠ .auto → c.tier ≠ .auto ∧ choice.tier.rank ≤ c.tier.rank
  mapped : choice.modelRef = static.modelFor choice.tier → c.modelRef = static.modelFor c.tier

theorem Lifted.refl (static : StaticTierPolicy) (choice : ModelChoice) :
    Lifted static choice choice := ⟨rfl, fun h => ⟨h, Nat.le_refl _⟩, id⟩

theorem Lifted.trans (h : Lifted static a b) (h' : Lifted static b c) : Lifted static a c := by
  refine ⟨h'.behind.trans h.behind, ?_, fun hmap => h'.mapped (h.mapped hmap)⟩
  intro ha
  obtain ⟨hb, hle⟩ := h.higher ha
  obtain ⟨hc, hle'⟩ := h'.higher hb
  exact ⟨hc, hle.trans hle'⟩

theorem lifted_raised {choice : ModelChoice} (ht : t ≠ .auto)
    (hle : choice.tier ≠ .auto → choice.tier.rank ≤ t.rank) (suffix : String) :
    Lifted static choice (choice.raised (static.modelFor t) t suffix) :=
  ⟨rfl, fun ha => ⟨ht, hle ha⟩, fun _ => rfl⟩

theorem ite_highest (a b : ModelTier) (x y : α) :
    (if (if b.rank ≤ a.rank then a else b) = a then x else y) =
      if b.rank ≤ a.rank then x else y := by
  by_cases hle : b.rank ≤ a.rank
  · rw [if_pos hle, if_pos rfl, if_pos hle]
  · have hne : b ≠ a := fun heq => hle (heq ▸ Nat.le_refl _)
    rw [if_neg hle, if_neg hne, if_neg hle]

theorem lifted_raiseTainted (h : raiseTainted choice features static = .ok c) :
    Lifted static choice c := by
  rw [raiseTainted] at h
  split at h
  · dsimp only at h
    rw [StaticTierPolicy.select_tier] at h
    by_cases hb : static.tierForAgent features.agent = .auto
    · rw [belowStatic, if_pos hb] at h
      cases h
      exact Lifted.refl static choice
    · by_cases ha : choice.tier = .auto
      · rw [belowStatic, if_neg hb, if_pos ha] at h
        cases h
        exact lifted_raised hb (fun hne => absurd ha hne) _
      · rw [belowStatic, if_neg hb, if_neg ha, maxTier_ordered ha hb] at h
        cases h
        simp only [ne_eq, decide_not, Bool.not_eq_true', decide_eq_false_iff_not, ite_not]
        rw [ite_highest]
        split
        · exact Lifted.refl static choice
        next hlt => exact lifted_raised hb (fun _ => Nat.le_of_not_le hlt) _
  · cases h
    exact Lifted.refl static choice

theorem lifted_clampToFloor (h : clampToFloor choice features static = .ok c) :
    Lifted static choice c := by
  rw [clampToFloor] at h
  dsimp only at h
  split at h
  next ha =>
    split at h
    · cases h
      apply lifted_raised
      · cases hm : static.floor.get features.riskTier with
        | none => exact ModelTier.noConfusion
        | some minimum => exact static.floor.ordered hm
      · exact fun hne => absurd ha hne
    · cases h
      exact Lifted.refl static choice
  next ha =>
    split at h
    · cases h
      exact Lifted.refl static choice
    next target hm =>
      have ht := static.floor.ordered hm
      rw [maxTier_ordered ha ht] at h
      cases h
      rw [ite_highest]
      split
      · exact Lifted.refl static choice
      next hlt => exact lifted_raised ht (fun _ => Nat.le_of_not_le hlt) _

theorem lifted_applySecurity (h : applySecurity choice features static = .ok c) :
    Lifted static choice c := by
  rw [applySecurity] at h
  cases htaint : raiseTainted choice features static with
  | error exc =>
    rw [htaint] at h
    cases h
  | ok raised =>
    rw [htaint] at h
    exact (lifted_raiseTainted htaint).trans (lifted_clampToFloor h)

theorem withFloorOnAffinity_spec
    (h : withFloorOnAffinity affinity fresh = .ok c) :
    c = affinity ∨ c = fresh ∧ fresh.tier ≠ .auto ∧ affinity.tier.rank < fresh.tier.rank := by
  rw [withFloorOnAffinity] at h
  split at h
  · cases h
    exact Or.inl rfl
  next hauto =>
    rw [Bool.or_eq_true, decide_eq_true_eq, decide_eq_true_eq, not_or] at hauto
    rw [maxTier_ordered hauto.1 hauto.2] at h
    cases h
    rw [ite_highest]
    split
    · exact Or.inl rfl
    next hlt => exact Or.inr ⟨rfl, hauto.2, Nat.lt_of_not_le hlt⟩

/-! An affinity that is persisted is restored. -/

def ModelChoice.standing (c : ModelChoice) : ModelTier × Nat := (c.tier, c.escalationCount)

theorem ofValue_value (t : ModelTier) : ModelTier.ofValue t.value = .ok t := by
  cases t with
  | nano | small | medium | frontier | auto => decide

theorem escalationCount_affinityChain {c : ModelChoice}
    (h : c.escalationOf = affinityChain modelRef tier n) : c.escalationCount = n := by
  induction n generalizing c with
  | zero =>
    rw [escalationCount_eq, h]
    rfl
  | succ n ih =>
    rw [escalationCount_eq, h, affinityChain, Option.elim_some, ih rfl]

theorem restore_affinityView (policyName : String) {escalated : ModelChoice}
    (hmap : escalated.modelRef = static.modelFor escalated.tier) :
    (restoreAffinity static policyName (affinityView escalated)).map ModelChoice.standing =
      some escalated.standing := by
  have hcount : (max 0 ((some (escalated.escalationCount : Int)).getD 1)).toNat =
      escalated.escalationCount := by
    rw [Option.getD_some]
    omega
  rw [affinityView, restoreAffinity, ofValue_value]
  dsimp only
  rw [if_pos hmap, Option.map_some, hcount]
  exact congrArg some (Prod.ext rfl (escalationCount_affinityChain rfl))

theorem get?_restoreMissing (affinity : Dict String ModelChoice) (entry : String × AffinityView)
    (agent : String) :
    (restoreMissing static policyName affinity entry).get? agent =
      (affinity.get? agent).or
        (if entry.1 = agent then restoreAffinity static policyName entry.2 else none) := by
  rw [restoreMissing]
  split
  next hmem =>
    obtain ⟨c, hc⟩ := Dict.mem_iff_get?.1 hmem
    split
    next heq => rw [← heq, hc, Option.some_or]
    · rw [Option.or_none]
  next hmem =>
    have hnone := Dict.get?_eq_none.2 hmem
    cases hr : restoreAffinity static policyName entry.2 with
    | none => rw [ite_self, Option.or_none]
    | some c =>
      dsimp only
      rw [Dict.get?_set]
      split
      next heq => rw [← heq, hnone, Option.none_or]
      · rw [Option.or_none]

theorem get?_restored {entries : List (String × AffinityView)}
    (hn : (entries.map Prod.fst).Nodup) (affinity : Dict String ModelChoice) (agent : String) :
    (entries.foldl (restoreMissing static policyName) affinity).get? agent =
      (affinity.get? agent).or
        ((Dict.lookup agent entries).bind (restoreAffinity static policyName)) := by
  induction entries generalizing affinity with
  | nil => rw [List.foldl_nil, Dict.lookup, Option.bind_none, Option.or_none]
  | cons entry entries ih =>
    rw [List.map_cons, List.nodup_cons] at hn
    rw [List.foldl_cons, ih hn.2, get?_restoreMissing, Option.or_assoc, Dict.lookup]
    congr 1
    split
    next heq =>
      have hnone : Dict.lookup agent entries = none := Dict.lookup_eq_none.2 (heq ▸ hn.1)
      rw [hnone, Option.bind_none, Option.or_none, Option.bind_some]
    · rw [Option.none_or]

end Prismal.Routing
