import Prismal.Lib.Dict
import Prismal.Lib.Run

namespace Prismal.Agents.HitlGate
open Prismal.Lib Prismal.Lib.Run
set_option autoImplicit true

/-! A human decision on its way from the interrupt to the conditional edge. -/

inductive Key where
  | str (s : String)
  | other (n : Nat)
  deriving DecidableEq, Repr

/-- A value as far as the nodes look at it: `shown` is what `str` makes of it. -/
inductive Value where
  | none
  | str (s : String)
  | dict (entries : List (Key × Value)) (shown : String)
  | other (hashable : Bool) (shown : String)

def Value.shown : Value → String
  | .none => "None"
  | .str s => s
  | .dict _ shown | .other _ shown => shown

def Value.hashable : Value → Bool
  | .dict _ _ => false
  | .other hashable _ => hashable
  | _ => true

/-- `value == s` for a text `s`. -/
def Value.isStr (s : String) : Value → Bool
  | .str t => t == s
  | _ => false

abbrev Metadata := Dict Key Value

/-- `_get_nested`, where the path has been split at its dots. -/
def getNested : Value → List String → Value
  | v, [] => v
  | .dict es _, part :: path => getNested (((Dict.collect es).get? (.str part)).getD .none) path
  | _, _ :: _ => .none

def hitlActions : List String := ["approve", "reject", "request_changes"]

def artifactFieldKey : Key := .str "_hitl_artifact_field"

def riskLevelKey : Key := .str "_hitl_risk_level"

def lastActionKey : Key := .str "_hitl_last_action"

/-- `str.lower` on the letters of the actions, which no other letters lower to. -/
def lower (s : String) : String := String.ofList (s.toList.map Char.toLower)

/-- The arguments of `hitl_gate` and of the seed before it, and `settings.hitl_enabled`. -/
structure Gate where
  artifactField : String
  onApprove : String
  onReject : String := "__end__"
  riskLevel : String := "HIGH"
  bypassCondition : Option (Metadata → Bool) := none
  hitlEnabled : Bool := true

/-- `seed_hitl_metadata`; a state without metadata has none. -/
def seed (g : Gate) (metadata : Option Metadata) : Metadata :=
  (((metadata.getD ∅).set artifactFieldKey (.str g.artifactField)).set riskLevelKey
    (.str g.riskLevel)).erase lastActionKey

structure Payload where
  artifactField : String
  artifact : Value
  riskLevel : String
  options : List String
  message : String

/-- What `human_approval_node` interrupts with. -/
def payload (metadata : Metadata) : Payload :=
  let artifactField := ((metadata.get? artifactFieldKey).getD (.str "review_result")).shown
  let riskLevel := ((metadata.get? riskLevelKey).getD (.str "HIGH")).shown
  { artifactField := artifactField
    artifact := getNested (.dict metadata.entries "") (artifactField.splitOn ".")
    riskLevel := riskLevel
    options := hitlActions
    message := s!"Approval required for: {artifactField}" }

def rejection : Metadata :=
  Dict.collect [(.str "action", .str "reject"), (.str "modifications", .dict [] "")]

def decision : Value → Metadata
  | .dict es _ => Dict.collect es
  | _ => rejection

def actionOf (response : Value) : String :=
  let rawAction := lower (((decision response).get? (.str "action")).getD (.str "reject")).shown
  if rawAction ∈ hitlActions then rawAction else "reject"

def modificationsOf (response : Value) : Metadata :=
  match (decision response).get? (.str "modifications") with
  | some (.dict es _) => Dict.collect es
  | _ => ∅

/-- `human_approval_node` from the resume on. It raises where the keys of the modifications cannot
be sorted for the log. -/
def humanApproval (sorts : List Key → Bool) (metadata : Metadata) (response : Value) :
    Option Metadata :=
  let action := actionOf response
  let modifications := modificationsOf response
  let metadata := metadata.set lastActionKey (.str action)
  if action = "request_changes" ∧ modifications.entries ≠ [] then
    if sorts (modifications.entries.map Prod.fst) then some (metadata.merge modifications)
    else none
  else some metadata

inductive Route where
  | approve
  | reject
  deriving DecidableEq

def Gate.node (g : Gate) : Route → String
  | .approve => g.onApprove
  | .reject => g.onReject

/-- `hitl_gate`; it raises where a set is asked for an action that cannot be hashed. -/
def hitlGate (g : Gate) (metadata : Metadata) : Option Route :=
  if !g.hitlEnabled then some .approve
  else if g.bypassCondition.any (· metadata) then some .approve
  else
    let action := (metadata.get? lastActionKey).getD .none
    if action.isStr "approve" then some .approve
    else if action.hashable then some .reject  -- also where no action is recorded
    else none

/-- One round of the flow: what other nodes make of the metadata before the seed, and what the human
answers. -/
structure Round where
  nodes : Option Metadata → Option Metadata
  response : Value

section Flow

variable (g : Gate) (sorts : List Key → Bool) (s : Option Metadata) (r : Round)

def seeded : Metadata := seed g (r.nodes s)

def routed : Option Route :=
  (humanApproval sorts (seeded g s r) r.response).bind (hitlGate g)

def next : Option Metadata :=
  some ((humanApproval sorts (seeded g s r) r.response).getD (seeded g s r))

end Flow

/-- The response is a mapping whose action reads `a`. -/
def Says (response : Value) (a : String) : Prop :=
  ∃ es shown v, response = .dict es shown ∧ (Dict.collect es).get? (.str "action") = some v ∧
    lower v.shown = a

def Overrides (sorts : List Key → Bool) (response : Value) : Prop :=
  Says response "request_changes" ∧
    sorts ((modificationsOf response).entries.map Prod.fst) = true ∧
    (modificationsOf response).get? lastActionKey = some (.str "approve")

/-- What a round must be: only its own response approves, and the human sees what was seeded. -/
structure Integrity (g : Gate) (sorts : List Key → Bool) (s : Option Metadata) (r : Round) :
    Prop where
  approves : routed g sorts s r = some .approve ↔ Says r.response "approve"
  declines : ∀ a, Says r.response a → a = "reject" ∨ a = "request_changes" →
    routed g sorts s r ≠ some .approve
  field : (payload (seeded g s r)).artifactField = g.artifactField
  artifact : (payload (seeded g s r)).artifact =
    getNested (.dict (seeded g s r).entries "") (g.artifactField.splitOn ".")
  risk : (payload (seeded g s r)).riskLevel = g.riskLevel
  fresh : ∀ s', routed g sorts s' r = routed g sorts s r

theorem says_unique (h : Says response a) (h' : Says response b) : a = b := by
  obtain ⟨es, shown, v, rfl, hv, rfl⟩ := h
  obtain ⟨es', shown', v', heq, hv', rfl⟩ := h'
  cases heq
  cases hv.symm.trans hv'
  rfl

theorem actionOf_iff (ha : a ∈ hitlActions) (hr : a ≠ "reject") :
    actionOf response = a ↔ Says response a := by
  have hreject : lower ((rejection.get? (.str "action")).getD (.str "reject")).shown = "reject" :=
    rfl
  constructor
  · intro h
    rw [actionOf] at h
    split at h
    · next hmem =>
      cases response with
      | dict es shown =>
        cases hv : (Dict.collect es).get? (.str "action") with
        | none =>
          rw [decision, hv] at h
          exact absurd h.symm hr
        | some v =>
          rw [decision, hv] at h
          exact ⟨es, shown, v, rfl, hv, h⟩
      | none => exact absurd (h.symm.trans hreject) hr
      | str t => exact absurd (h.symm.trans hreject) hr
      | other hashable t => exact absurd (h.symm.trans hreject) hr
    · exact absurd h.symm hr
  · intro ⟨es, shown, v, hresponse, hv, hlower⟩
    rw [actionOf, hresponse, decision, hv, Option.getD_some, hlower, if_pos ha]

def routeOf (action : Value) : Option Route :=
  if action.isStr "approve" then some .approve
  else if action.hashable then some .reject
  else none

def decided (sorts : List Key → Bool) (response : Value) : Option Route :=
  let modifications := modificationsOf response
  if actionOf response = "request_changes" ∧ modifications.entries ≠ [] then
    if sorts (modifications.entries.map Prod.fst) then
      routeOf ((modifications.get? lastActionKey).getD (.str "request_changes"))
    else none
  else routeOf (.str (actionOf response))

structure Gate.Open (g : Gate) : Prop where
  enabled : g.hitlEnabled = true
  bypass : ∀ f, g.bypassCondition = some f → ∀ m, f m = false

variable {g : Gate} {sorts : List Key → Bool} {s : Option Metadata} {r : Round}

theorem hitlGate_open (hg : g.Open) (m : Metadata) :
    hitlGate g m = routeOf ((m.get? lastActionKey).getD .none) := by
  have hbypass : g.bypassCondition.any (· m) = false := by
    cases hf : g.bypassCondition with
    | none => rfl
    | some f => exact hg.bypass f hf m
  simp only [hitlGate, hg.enabled, hbypass, Bool.not_true, Bool.false_eq_true, ↓reduceIte]
  rfl

theorem routed_eq (hg : g.Open) : routed g sorts s r = decided sorts r.response := by
  simp only [routed, humanApproval, decided]
  split
  · next hchanges =>
    split
    · rw [Option.bind_some, hitlGate_open hg, Dict.get?_merge, Dict.get?_set_self, hchanges.1]
      cases (modificationsOf r.response).get? lastActionKey with
      | none => rfl
      | some v => rfl
    · rfl
  · rw [Option.bind_some, hitlGate_open hg, Dict.get?_set_self]
    rfl

theorem routeOf_approve : routeOf v = some .approve ↔ v = .str "approve" := by
  constructor
  · intro h
    rw [routeOf] at h
    split at h
    · next hv =>
      cases v with
      | str t => rw [eq_of_beq hv]
      | none => cases hv
      | dict es shown => cases hv
      | other hashable shown => cases hv
    · split at h <;> cases h
  · intro h
    subst h
    rfl

theorem routeOf_action (response : Value) :
    routeOf (.str (actionOf response)) = some .approve ↔ Says response "approve" := by
  rw [routeOf_approve, Value.str.injEq]
  exact actionOf_iff (by decide) (by decide)

theorem decided_approve :
    decided sorts response = some .approve ↔
      Says response "approve" ∨ Overrides sorts response := by
  have hchanges : actionOf response = "request_changes" ↔ Says response "request_changes" :=
    actionOf_iff (by decide) (by decide)
  rw [decided]
  split
  · next h =>
    have hsaid := hchanges.1 h.1
    have hnot : ¬Says response "approve" := fun h' => absurd (says_unique hsaid h') (by decide)
    split
    · next hsorts =>
      rw [routeOf_approve, Overrides]
      cases (modificationsOf response).get? lastActionKey with
      | none => simp [hnot]
      | some v => simp [hnot, hsaid, hsorts]
    · next hsorts => simp [hnot, Overrides, hsorts]
  · next h =>
    rw [routeOf_action]
    apply (or_iff_left _).symm
    intro ⟨hsaid, _, hget⟩
    exact h ⟨hchanges.2 hsaid, fun hnil => by rw [Dict.get?, hnil] at hget; cases hget⟩

theorem seeded_artifactField :
    (seeded g s r).get? artifactFieldKey = some (.str g.artifactField) := by
  rw [seeded, seed, Dict.get?_erase, if_neg (by decide), Dict.get?_set, if_neg (by decide),
    Dict.get?_set_self]

theorem seeded_riskLevel : (seeded g s r).get? riskLevelKey = some (.str g.riskLevel) := by
  rw [seeded, seed, Dict.get?_erase, if_neg (by decide), Dict.get?_set_self]

theorem integrity_iff (hg : g.Open) :
    Integrity g sorts s r ↔ ¬Overrides sorts r.response := by
  constructor
  · intro h hover
    have happroved := h.approves.1 ((routed_eq hg).trans (decided_approve.2 (.inr hover)))
    exact absurd (says_unique hover.1 happroved) (by decide)
  · intro hover
    have happroves : routed g sorts s r = some .approve ↔ Says r.response "approve" := by
      rw [routed_eq hg, decided_approve, or_iff_left hover]
    exact {
      approves := happroves
      declines := by
        intro a ha hcases happroved
        have heq := says_unique ha (happroves.1 happroved)
        rcases hcases with rfl | rfl
        · exact absurd heq (by decide)
        · exact absurd heq (by decide)
      field := by
        rw [payload, seeded_artifactField]
        rfl
      artifact := by
        rw [payload, seeded_artifactField]
        rfl
      risk := by
        rw [payload, seeded_riskLevel]
        rfl
      fresh := fun s' => by rw [routed_eq hg, routed_eq hg] }

/-- Every round of a flow has integrity exactly when no response in it overrides its own action. -/
theorem flow_integrity_iff (g : Gate) (hg : g.Open) (sorts : List Key → Bool)
    (s : Option Metadata) (rounds : List Round) :
    Along (next g sorts) (fun s r _ => Integrity g sorts s r) s rounds ↔
      ∀ r ∈ rounds, ¬Overrides sorts r.response := by
  induction rounds generalizing s with
  | nil => exact iff_of_true along_nil fun r hr => absurd hr List.not_mem_nil
  | cons r rest ih => rw [along_cons, ih, integrity_iff hg, List.forall_mem_cons]

def codeGate : Gate := { artifactField := "code", onApprove := "__end__", onReject := "developer" }

theorem codeGate_open : codeGate.Open := ⟨rfl, fun _ h => by cases h⟩

theorem flow_integrity_once :
    Along (next codeGate fun _ => true) (fun s r _ => Integrity codeGate (fun _ => true) s r) none
        [⟨id, .str "approve"⟩] ↔
      ∀ r ∈ [(⟨id, .str "approve"⟩ : Round)], ¬Overrides (fun _ => true) r.response :=
  flow_integrity_iff codeGate codeGate_open (fun _ => true) none [⟨id, .str "approve"⟩]

def selfApproving : Value :=
  .dict [(.str "action", .str "request_changes"),
    (.str "modifications", .dict [(lastActionKey, .str "approve")] "")] ""

theorem selfApproving_routed :
    ¬Integrity codeGate (fun _ => true) none ⟨id, selfApproving⟩ := by
  intro h
  have hsaid : Says selfApproving "request_changes" := ⟨_, _, _, rfl, rfl, rfl⟩
  exact h.declines "request_changes" hsaid (.inr rfl) rfl

end Prismal.Agents.HitlGate
