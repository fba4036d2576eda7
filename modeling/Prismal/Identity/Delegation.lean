import Mathlib.Algebra.Order.Ring.Unbundled.Rat
import Prismal.Lib.State
import Prismal.Security.ToolPolicy

namespace Prismal.Identity
open Prismal.Lib
set_option autoImplicit true

/-! The `OnBehalfToken` and its way along the delegation chain. -/

abbrev DID := String

structure Scope where
  resource : String
  deriving DecidableEq, Repr

def Scope.«matches» (s : Scope) (_action resource : String) : Bool :=
  Glob.fnmatchcase resource s.resource

structure OnBehalfToken where
  tokenId : String
  subject : String
  scopes : List Scope
  expiresAt : Rat
  chain : List DID := []
  deriving DecidableEq, Repr

/-- `propagate may not widen scope {want!r} (held: {held})` -/
structure DelegationError where
  want : String
  held : List String
  deriving DecidableEq, Repr

/-- `_covers` -/
def covers (granted : List Scope) (resource : String) : Bool :=
  granted.any fun g => g.«matches» "" resource

/-- `mint_on_behalf`, with the id and the clock it reads. -/
def mintOnBehalf (tokenId subject : String) (scopes : List Scope) (ttlS : Int) (issuer : DID)
    (time : Rat) : OnBehalfToken :=
  ⟨tokenId, subject, scopes, time + ttlS, [issuer]⟩

def widening (held scopes : List Scope) : Option Scope :=
  scopes.find? fun want => !covers held want.resource

def propagate (token : OnBehalfToken) (via : DID) (scopes : Option (List Scope)) :
    Except DelegationError OnBehalfToken :=
  match scopes with
  | none => .ok { token with chain := token.chain ++ [via] }
  | some scopes =>
    match widening token.scopes scopes with
    | some want => .error ⟨want.resource, token.scopes.map (·.resource)⟩
    | none => .ok { token with scopes := scopes, chain := token.chain ++ [via] }

/-- `revoked` is the registry that `revoke` fills. -/
def validate (revoked : List String) (token : OnBehalfToken) (_action resource : String)
    (now : Rat) : Bool :=
  if token.tokenId ∈ revoked then false
  else if token.expiresAt ≤ now then false
  else covers token.scopes resource

structure Hop where
  via : DID
  scopes : Option (List Scope)
  deriving DecidableEq, Repr

def delegated (token : OnBehalfToken) (hops : List Hop) : Except DelegationError OnBehalfToken :=
  hops.foldlM (fun t hop => propagate t hop.via hop.scopes) token

/-- Each scope that a hop asks for lies under a held one as a pattern: its stars under stars, its
question marks and brackets under what admits as much. -/
def Under (token : OnBehalfToken) (hop : Hop) : Prop :=
  ∀ scopes, hop.scopes = some scopes → ∀ want ∈ scopes, ∃ held ∈ token.scopes,
    Glob.Covers (Glob.tokens held.resource) (Glob.tokens want.resource)

def AllUnder : OnBehalfToken → List Hop → Prop
  | _, [] => True
  | token, hop :: rest =>
    Under token hop ∧ ∀ next, propagate token hop.via hop.scopes = .ok next → AllUnder next rest

/-- The second token authorizes no more than the first. -/
structure Within (held token : OnBehalfToken) : Prop where
  tokenId : token.tokenId = held.tokenId
  expiresAt : token.expiresAt = held.expiresAt
  scopes : ∀ resource, covers token.scopes resource = true → covers held.scopes resource = true

theorem Within.refl (token : OnBehalfToken) : Within token token :=
  ⟨rfl, rfl, fun _ h => h⟩

theorem Within.trans (h : Within a b) (hbc : Within b c) : Within a c :=
  ⟨hbc.tokenId.trans h.tokenId, hbc.expiresAt.trans h.expiresAt,
    fun resource hr => h.scopes resource (hbc.scopes resource hr)⟩

theorem covers_iff : covers granted resource = true ↔
    ∃ g ∈ granted, Glob.accepts (Glob.tokens g.resource) resource.toList = true :=
  List.any_eq_true

theorem Within.validate (h : Within held token)
    (hv : Identity.validate revoked token action resource now = true) :
    Identity.validate revoked held action resource now = true := by
  rw [Identity.validate] at hv ⊢
  rw [h.tokenId, h.expiresAt] at hv
  split at hv
  · cases hv
  · next hlive =>
    rw [if_neg hlive]
    split at hv
    · cases hv
    · next hnow =>
      rw [if_neg hnow]
      exact h.scopes resource hv

theorem propagate_ok (h : propagate token via scopes = .ok next) :
    next.tokenId = token.tokenId ∧ next.expiresAt = token.expiresAt ∧
      next.chain = token.chain ++ [via] ∧ next.scopes = scopes.getD token.scopes := by
  cases scopes with
  | none =>
    cases h
    exact ⟨rfl, rfl, rfl, rfl⟩
  | some scopes =>
    rw [propagate] at h
    split at h
    · cases h
    · cases h
      exact ⟨rfl, rfl, rfl, rfl⟩

theorem Under.within (h : Under token hop)
    (hp : propagate token hop.via hop.scopes = .ok next) : Within token next := by
  obtain ⟨hid, hexp, -, hscopes⟩ := propagate_ok hp
  refine ⟨hid, hexp, fun resource hr => ?_⟩
  rw [hscopes] at hr
  cases hreq : hop.scopes with
  | none =>
    rw [hreq] at hr
    exact hr
  | some scopes =>
    rw [hreq] at hr
    obtain ⟨want, hwant, hm⟩ := covers_iff.1 hr
    obtain ⟨held, hheld, hcov⟩ := h scopes hreq want hwant
    exact covers_iff.2 ⟨held, hheld, hcov.accepts hm⟩

theorem under_of_plain (hplain : ∀ want ∈ scopes, Glob.Plain want.resource.toList)
    (hp : propagate token via (some scopes) = .ok next) : Under token ⟨via, some scopes⟩ := by
  intro asked hasked want hwant
  cases hasked
  rw [propagate] at hp
  split at hp
  · cases hp
  · next hnone =>
    have hcov := List.find?_eq_none.1 hnone want hwant
    rw [Bool.not_eq_true', Bool.not_eq_false, covers, List.any_eq_true] at hcov
    obtain ⟨held, hheld, hm⟩ := hcov
    exact ⟨held, hheld, (hplain want hwant).covers hm⟩

theorem AllUnder.within {token final : OnBehalfToken} (h : AllUnder token hops)
    (hd : delegated token hops = .ok final) :
    Within token final := by
  induction hops generalizing token with
  | nil =>
    obtain rfl : final = token := except_pure_ok hd
    exact Within.refl final
  | cons hop rest ih =>
    rw [delegated, List.foldlM_cons] at hd
    obtain ⟨next, hp, hrest⟩ := except_bind_ok hd
    exact (h.1.within hp).trans (ih (h.2 next hp) hrest)

/-- Along a chain whose hops ask for scopes under those they hold, authority only narrows. -/
theorem delegation_narrows (token : OnBehalfToken) (hops : List Hop) (final : OnBehalfToken)
    (hunder : AllUnder token hops) (hd : delegated token hops = .ok final)
    (revoked : List String) (action resource : String) (now : Rat)
    (hv : validate revoked final action resource now = true) :
    validate revoked token action resource now = true :=
  (hunder.within hd).validate hv

def toolbox : OnBehalfToken := ⟨"t1", "user:1", [⟨"tools:*"⟩], 100, ["did:web:supervisor"]⟩

def handover : List Hop :=
  [⟨"did:web:agent", some [⟨"tools:fs:*"⟩]⟩, ⟨"did:web:peer", some [⟨"tools:fs:read"⟩]⟩]

def reader : OnBehalfToken :=
  { toolbox with scopes := [⟨"tools:fs:read"⟩],
                 chain := ["did:web:supervisor", "did:web:agent", "did:web:peer"] }

theorem handover_under : AllUnder toolbox handover := by
  have hagent : propagate toolbox "did:web:agent" (some [⟨"tools:fs:*"⟩]) =
      .ok { toolbox with scopes := [⟨"tools:fs:*"⟩],
                         chain := ["did:web:supervisor", "did:web:agent"] } := by rfl
  refine ⟨fun scopes h => ?_, fun next h => ⟨?_, fun _ _ => trivial⟩⟩
  · cases h
    intro want hwant
    obtain rfl := List.mem_singleton.1 hwant
    refine ⟨⟨"tools:*"⟩, List.mem_singleton_self _, ?_⟩
    have hheld : Glob.tokens "tools:*" = Glob.literal "tools:".toList ++ [.star] := by decide
    have hwant : Glob.tokens "tools:fs:*" =
      Glob.literal "tools:".toList ++ Glob.tokens "fs:*" := by decide
    rw [hheld, hwant]
    exact (Glob.covers_star _).append_literal _
  · rw [hagent] at h
    cases h
    exact under_of_plain (by decide)
      (show propagate _ "did:web:peer" (some [⟨"tools:fs:read"⟩]) = .ok reader by rfl)

theorem delegation_narrows_handover :
    validate [] reader "" "tools:fs:read" 5 = true ∧
      validate [] toolbox "" "tools:fs:read" 5 = true :=
  ⟨by decide, delegation_narrows toolbox handover reader handover_under (by rfl) [] ""
    "tools:fs:read" 5 (by decide)⟩

/-- A question mark that is held admits a star that is asked for. -/
theorem delegation_widens : ¬ ∀ (token : OnBehalfToken) (hops : List Hop) (final : OnBehalfToken)
    (revoked : List String) (action resource : String) (now : Rat),
    delegated token hops = .ok final → validate revoked final action resource now = true →
      validate revoked token action resource now = true := by
  intro h
  have hwide := h ⟨"t1", "user:1", [⟨"tools:?"⟩], 100, ["did:web:supervisor"]⟩
    [⟨"did:web:agent", some [⟨"tools:*"⟩]⟩] _ [] "" "tools:write_file" 5 rfl (by decide)
  exact Bool.false_ne_true hwide

end Prismal.Identity

namespace Prismal.Identity
open Prismal.Lib
set_option autoImplicit true

/-! The identity-aware policy engine, and the tool policy it delegates to. -/

inductive PolicyEffect where
  | allow
  | deny
  | requireHitl
  deriving DecidableEq, Repr

structure PolicyDecision where
  effect : PolicyEffect
  rule : String
  reason : String := ""
  deriving DecidableEq, Repr

structure AgentIdentity where
  did : DID
  agentName : String
  scopes : List Scope := []

structure IdentityPolicy where
  identity : String := "*"
  action : String := "*"
  resource : String := "*"
  effect : PolicyEffect := .allow
  requireScope : Option String := none

namespace IdentityPolicy

def «matches» (p : IdentityPolicy) (agentName did action resource : String) : Bool :=
  let identityMatch := Glob.fnmatchcase agentName p.identity || Glob.fnmatchcase did p.identity
  identityMatch && Glob.fnmatchcase action p.action && Glob.fnmatchcase resource p.resource

def specificity (p : IdentityPolicy) : Nat × Nat × Nat :=
  (if p.identity = "*" then 0 else 1, if p.action = "*" then 0 else 1,
    (p.resource.toList.filter (· ≠ '*')).length)

def lessSpecific (p q : IdentityPolicy) : Bool :=
  let a := p.specificity
  let b := q.specificity
  decide (a.1 < b.1 ∨ a.1 = b.1 ∧ (a.2.1 < b.2.1 ∨ a.2.1 = b.2.1 ∧ a.2.2 < b.2.2))

end IdentityPolicy

def AgentIdentity.holds (identity : AgentIdentity) (action scope : String) : Bool :=
  identity.scopes.any fun s => s.«matches» action scope

/-- `re.search`, and the text that `repr` gives a string. -/
structure Builtins where
  search : Security.Search
  repr : String → String

/-- What the engine reads of a context: the arguments, where it holds any. -/
structure Context where
  args : Option Security.Args := none

structure PolicyEngine where
  policies : List IdentityPolicy
  toolPolicy : Option Security.ToolPolicyEngine := none

def toolName (resource : String) : String :=
  match resource.toList.dropWhile (· ≠ ':') with
  | [] => resource
  | _ :: tool => String.ofList tool

namespace PolicyEngine

def delegate (py : Builtins) (e : PolicyEngine) (identity : AgentIdentity)
    (action resource : String) (context : Option Context) : Option Security.PolicyDecision :=
  match e.toolPolicy with
  | none => none
  | some tools =>
    if action = "tool_call" then
      let args := (context.bind Context.args).getD []
      some (tools.evaluate py.search identity.agentName (toolName resource) args 0)
    else none

def chosen (e : PolicyEngine) (identity : AgentIdentity) (action resource : String) :
    Option IdentityPolicy :=
  pickMin (fun p q => q.lessSpecific p)
    (e.policies.filter fun p => p.«matches» identity.agentName identity.did action resource)

def judge (py : Builtins) (e : PolicyEngine) (identity : AgentIdentity) (action resource : String)
    (delegatedHitl : Bool) : PolicyDecision :=
  match e.chosen identity action resource with
  | none => ⟨if delegatedHitl then .requireHitl else .deny, "<no-match>", "no matching policy"⟩
  | some chosen =>
    let rule := s!"{chosen.identity}:{chosen.action}:{chosen.resource}"
    if chosen.effect = .deny then ⟨.deny, rule, "denied by policy"⟩
    else if chosen.effect = .requireHitl ∨ delegatedHitl then ⟨.requireHitl, rule, ""⟩
    else
      match chosen.requireScope with
      | none => ⟨.allow, rule, ""⟩
      | some scope =>
        if identity.holds action scope then ⟨.allow, rule, ""⟩
        else ⟨.deny, rule, s!"identity lacks required scope {py.repr scope}"⟩

def allow (py : Builtins) (e : PolicyEngine) (identity : AgentIdentity)
    (action resource : String) (context : Option Context) : PolicyDecision :=
  match e.delegate py identity action resource context with
  | none => e.judge py identity action resource false
  | some decision =>
    if decision.effect = .deny then ⟨.deny, s!"tool_policy:{decision.rule}", decision.reason⟩
    else e.judge py identity action resource (decision.effect = .requireHitl)

end PolicyEngine

/-! Effects by how much they restrict. -/

namespace PolicyEffect

def rank : PolicyEffect → Nat
  | .allow => 0
  | .requireHitl => 1
  | .deny => 2

theorem rank_injective : Function.Injective rank := by
  intro a b h
  cases a <;> cases b <;> first | rfl | cases h

instance : LinearOrder PolicyEffect := LinearOrder.lift' rank rank_injective

theorem allow_le (a : PolicyEffect) : .allow ≤ a := by
  cases a <;> decide

theorem le_deny (a : PolicyEffect) : a ≤ .deny := by
  cases a <;> decide

def ofTool : Security.PolicyEffect → PolicyEffect
  | .allow => .allow
  | .deny => .deny
  | .requireHitl => .requireHitl

end PolicyEffect

namespace PolicyEngine

def Unmet (e : PolicyEngine) (identity : AgentIdentity) (action resource : String) : Prop :=
  ∀ p, e.chosen identity action resource = some p →
    p.effect = .allow ∧ ∃ scope, p.requireScope = some scope ∧ identity.holds action scope = false

variable {py : Builtins} {e : PolicyEngine} {identity : AgentIdentity} {action resource : String}

theorem allow_delegated (h : e.delegate py identity action resource context = some d) :
    (e.allow py identity action resource context).effect =
      if d.effect = .deny then .deny
      else (e.judge py identity action resource (d.effect = .requireHitl)).effect := by
  simp only [allow, h]
  split
  · rfl
  · rfl

/-- What becomes of a rule's effect: the floor and the scope only matter to an `ALLOW`. -/
def settled (floor held : Bool) : PolicyEffect → PolicyEffect
  | .deny => .deny
  | .requireHitl => .requireHitl
  | .allow => if floor then .requireHitl else if held then .allow else .deny

theorem judge_chosen (h : e.chosen identity action resource = some p) (floor : Bool) :
    (e.judge py identity action resource floor).effect =
      settled floor (p.requireScope.all (identity.holds action)) p.effect := by
  simp only [judge, h]
  cases p.effect with
  | deny => rfl
  | requireHitl => rfl
  | allow =>
    cases floor with
    | true => rfl
    | false =>
      cases p.requireScope with
      | none => rfl
      | some scope =>
        simp only [reduceCtorEq, ↓reduceIte, Bool.false_eq_true, or_self, Option.all_some, settled]
        split <;> rfl

theorem unmet_chosen (h : e.chosen identity action resource = some p) :
    e.Unmet identity action resource ↔
      p.effect = .allow ∧ p.requireScope.all (identity.holds action) = false := by
  constructor
  · intro hu
    obtain ⟨he, scope, hs, hn⟩ := hu p h
    exact ⟨he, by rw [hs, Option.all_some, hn]⟩
  · intro ⟨he, hn⟩ q hq
    cases h.symm.trans hq
    cases hs : p.requireScope with
    | none =>
      rw [hs] at hn
      cases hn
    | some scope =>
      rw [hs] at hn
      exact ⟨he, scope, rfl, hn⟩

theorem hitl_le_judge :
    .requireHitl ≤ (e.judge py identity action resource true).effect := by
  cases h : e.chosen identity action resource with
  | none =>
    simp only [judge, h]
    exact le_refl _
  | some p =>
    rw [judge_chosen h]
    generalize p.requireScope.all (identity.holds action) = held
    cases p.effect <;> cases held <;> decide

theorem judge_floor : (e.judge py identity action resource true).effect =
    max .requireHitl (e.judge py identity action resource false).effect ↔
      ¬e.Unmet identity action resource := by
  cases h : e.chosen identity action resource with
  | none =>
    have hu : e.Unmet identity action resource := fun p hp => by
      rw [h] at hp
      cases hp
    simp only [judge, h, hu, not_true_eq_false, iff_false]
    decide
  | some p =>
    rw [unmet_chosen h, judge_chosen h, judge_chosen h]
    generalize p.requireScope.all (identity.holds action) = held
    cases p.effect <;> cases held <;> decide

end PolicyEngine

def toolVerdict (py : Builtins) (tools : Security.ToolPolicyEngine) (identity : AgentIdentity)
    (resource : String) (context : Option Context) : Security.PolicyDecision :=
  tools.evaluate py.search identity.agentName (toolName resource)
    ((context.bind Context.args).getD []) 0

section Wired

variable {policies : List IdentityPolicy} {tools : Security.ToolPolicyEngine}

open PolicyEngine

theorem allow_wired :
    (allow py ⟨policies, some tools⟩ identity "tool_call" resource context).effect =
      if (toolVerdict py tools identity resource context).effect = .deny then .deny
      else (judge py ⟨policies, none⟩ identity "tool_call" resource
        ((toolVerdict py tools identity resource context).effect = .requireHitl)).effect :=
  allow_delegated rfl

theorem tool_le_allow : .ofTool (toolVerdict py tools identity resource context).effect ≤
    (allow py ⟨policies, some tools⟩ identity "tool_call" resource context).effect := by
  rw [allow_wired]
  cases (toolVerdict py tools identity resource context).effect with
  | allow => exact PolicyEffect.allow_le _
  | deny => exact le_refl _
  | requireHitl => exact hitl_le_judge

end Wired

/-- With a tool policy wired, the stricter of the two verdicts is given unless the tool policy asks
for a human where the rules deny for want of a rule or of a scope. -/
theorem allow_eq_max_iff (py : Builtins) (policies : List IdentityPolicy)
    (tools : Security.ToolPolicyEngine) (identity : AgentIdentity) (resource : String)
    (context : Option Context) :
    (PolicyEngine.allow py ⟨policies, some tools⟩ identity "tool_call" resource context).effect =
        max (.ofTool (toolVerdict py tools identity resource context).effect)
          (PolicyEngine.allow py ⟨policies, none⟩ identity "tool_call" resource context).effect ↔
      ¬((toolVerdict py tools identity resource context).effect = .requireHitl ∧
        PolicyEngine.Unmet ⟨policies, none⟩ identity "tool_call" resource) := by
  rw [allow_wired]
  have halone : PolicyEngine.allow py ⟨policies, none⟩ identity "tool_call" resource context =
      PolicyEngine.judge py ⟨policies, none⟩ identity "tool_call" resource false := rfl
  rw [halone]
  cases (toolVerdict py tools identity resource context).effect with
  | allow =>
    apply iff_of_true (max_eq_right (PolicyEffect.allow_le _)).symm
    intro h
    cases h.1
  | deny =>
    apply iff_of_true (max_eq_left (PolicyEffect.le_deny _)).symm
    intro h
    cases h.1
  | requireHitl => exact PolicyEngine.judge_floor.trans (by rw [eq_self, true_and])

def askAlways : Security.ToolPolicyEngine := ⟨[{ effect := .requireHitl }], none⟩

theorem allow_ne_max :
    let py : Builtins := ⟨fun _ _ => none, fun s => s⟩
    let coder : AgentIdentity := { did := "did:key:z", agentName := "coder" }
    (PolicyEngine.allow py ⟨[], some askAlways⟩ coder "tool_call" "tools:rm" none).effect ≠
      max (.ofTool (toolVerdict py askAlways coder "tools:rm" none).effect)
        (PolicyEngine.allow py ⟨[], none⟩ coder "tool_call" "tools:rm" none).effect := by
  decide

end Prismal.Identity
