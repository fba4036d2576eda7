import Prismal.Lib.Glob
import Prismal.Lib.Dict
import Prismal.Lib.Lists

namespace Prismal.Security
open Prismal.Lib
set_option autoImplicit true

/-! The declarative tool policy and the enforcer of one run. -/

inductive PolicyEffect where
  | allow
  | deny
  | requireHitl
  deriving DecidableEq, Repr

structure ToolPolicy where
  agent : String := "*"
  tool : String := "*"
  effect : PolicyEffect := .allow
  argConstraints : List (String × String) := []
  rateLimitPerRun : Int := 0
  reason : String := ""

def ToolPolicy.«matches» (p : ToolPolicy) (agent tool : String) : Bool :=
  Glob.fnmatchcase agent p.agent && Glob.fnmatchcase tool p.tool

def ToolPolicy.specificity (p : ToolPolicy) : Nat :=
  (if p.agent ≠ "*" then 2 else 0) + (if p.tool ≠ "*" then 2 else 0) + p.argConstraints.length

structure PolicyDecision where
  effect : PolicyEffect
  rule : String
  reason : String := ""
  deriving DecidableEq, Repr

/-- The rules and, where there are settings, `hardening_tool_policy_default`. -/
structure ToolPolicyEngine where
  policies : List ToolPolicy
  default : Option String := none

/-- The arguments of a call as `str` shows them; an argument that is `None` has no text. -/
abbrev Args := List (String × Option String)

def Args.get (args : Args) (name : String) : Option String := (args.lookup name).join

/-- `re.search`: whether a pattern is found in a text, where the pattern can be read. -/
abbrev Search := String → String → Option Bool

/-- `_first_violated_constraint` -/
def firstViolatedConstraint (search : Search) (p : ToolPolicy) (args : Args) : Option String :=
  (p.argConstraints.find? fun c =>
    match args.get c.1 with
    | none => true
    | some value => search c.2 value != some true).map Prod.fst

namespace ToolPolicyEngine

/-- `_default_decision` -/
def defaultDecision (e : ToolPolicyEngine) : PolicyDecision :=
  let default := e.default.getD "allow"
  ⟨if default = "deny" then .deny else .allow, "<default>", s!"default={default}"⟩

def chosen (e : ToolPolicyEngine) (agent tool : String) : Option ToolPolicy :=
  pickMin (fun p q => decide (q.specificity < p.specificity))
    (e.policies.filter fun p => p.«matches» agent tool)

/-- What a rule says of a call that has been allowed `callCount` times. -/
def judge (search : Search) (p : ToolPolicy) (args : Args) (callCount : Nat) : PolicyDecision :=
  let rule := s!"{p.agent}:{p.tool}"
  match firstViolatedConstraint search p args with
  | some violated => ⟨.deny, rule, s!"arg constraint violated: {violated}"⟩
  | none =>
    if 0 < p.rateLimitPerRun ∧ p.rateLimitPerRun ≤ callCount then
      ⟨.deny, rule, s!"rate limit exceeded ({p.rateLimitPerRun}/run)"⟩
    else ⟨p.effect, rule, p.reason⟩

def evaluate (search : Search) (e : ToolPolicyEngine) (agent tool : String) (args : Args)
    (callCount : Nat) : PolicyDecision :=
  match e.chosen agent tool with
  | none => e.defaultDecision
  | some p => judge search p args callCount

end ToolPolicyEngine

structure Call where
  agent : String
  tool : String
  args : Args

def Call.key (c : Call) : String × String := (c.agent, c.tool)

/-- The counters of a run, and what it has handed to the audit log. -/
structure RunToolPolicy where
  engine : ToolPolicyEngine
  counts : Dict (String × String) Nat := ∅
  audit : List (String × String × PolicyDecision) := []

namespace RunToolPolicy

def count (r : RunToolPolicy) (key : String × String) : Nat := (r.counts.get? key).getD 0

def verdict (search : Search) (r : RunToolPolicy) (c : Call) : PolicyDecision :=
  r.engine.evaluate search c.agent c.tool c.args (r.count c.key)

def settle (r : RunToolPolicy) (c : Call) (d : PolicyDecision) : RunToolPolicy :=
  if d.effect = .allow then { r with counts := r.counts.set c.key (r.count c.key + 1) }
  else { r with audit := r.audit ++ [(c.agent, c.tool, d)] }

def check (search : Search) (r : RunToolPolicy) (c : Call) : PolicyDecision × RunToolPolicy :=
  let decision := r.verdict search c
  (decision, r.settle c decision)

def decisions (search : Search) : RunToolPolicy → List Call → List (Call × PolicyDecision)
  | _, [] => []
  | r, c :: rest => (c, (r.check search c).1) :: decisions search (r.check search c).2 rest

end RunToolPolicy

/-- How many decisions of a run for an agent and a tool satisfy `p`. -/
def given (p : PolicyEffect → Bool) (agent tool : String) (ds : List (Call × PolicyDecision)) :
    Nat :=
  ds.countP fun d => (d.1.agent == agent && d.1.tool == tool) && p d.2.effect

open ToolPolicyEngine RunToolPolicy

variable {search : Search} {r : RunToolPolicy} {c : Call}

theorem judge_rate (hn : 0 < p.rateLimitPerRun)
    (h : (judge search p args n).effect ≠ .deny) :
    (n : Int) < p.rateLimitPerRun ∧ (judge search p args n).effect = p.effect := by
  rw [judge] at h ⊢
  split at h
  · exact absurd rfl h
  · split at h
    · exact absurd rfl h
    · next hrate =>
      rw [if_neg hrate]
      exact ⟨by omega, rfl⟩

@[simp] theorem settle_engine : (r.settle c d).engine = r.engine := by
  rw [settle]
  split <;> rfl

theorem settle_count (key : String × String) : (r.settle c d).count key =
    r.count key + if c.key = key ∧ d.effect = .allow then 1 else 0 := by
  rw [settle]
  split
  · next ha =>
    simp only [count, Dict.get?_set, ha, and_true]
    split
    · next hk => rw [hk, Option.getD_some]
    · rfl
  · next ha =>
    rw [if_neg fun h => ha h.2]
    rfl

theorem given_cons (p : PolicyEffect → Bool) (agent tool : String) :
    given p agent tool ((c, d) :: ds) =
      given p agent tool ds +
        if c.key = (agent, tool) ∧ p d.effect = true then 1 else 0 := by
  rw [given, List.countP_cons, given]
  simp [Call.key]

theorem decide_rate {p : ToolPolicy} (hp : r.engine.chosen c.agent c.tool = some p)
    (hn : 0 < p.rateLimitPerRun) (hd : (r.verdict search c).effect ≠ .deny) :
    (r.count c.key : Int) < p.rateLimitPerRun ∧ (r.verdict search c).effect = p.effect := by
  rw [verdict, evaluate, hp] at hd ⊢
  exact judge_rate hn hd

theorem given_allow_le {p : ToolPolicy} (search : Search)
    (hp : r.engine.chosen agent tool = some p) (hn : 0 < p.rateLimitPerRun)
    (hr : (r.count (agent, tool) : Int) ≤ p.rateLimitPerRun) (calls : List Call) :
    (r.count (agent, tool) + given (· == .allow) agent tool (r.decisions search calls) : Int) ≤
      p.rateLimitPerRun := by
  induction calls generalizing r with
  | nil => simpa [decisions, given] using hr
  | cons c rest ih =>
    rw [decisions, given_cons]
    have hstep := settle_count (r := r) (c := c) (d := r.verdict search c) (agent, tool)
    have hcall : c.key = (agent, tool) ∧ (r.verdict search c).effect = .allow →
        (r.count (agent, tool) : Int) < p.rateLimitPerRun := by
      rintro ⟨hk, ha⟩
      cases hk
      exact (decide_rate hp hn (by rw [ha]; exact PolicyEffect.noConfusion)).1
    have hwithin : ((r.settle c (r.verdict search c)).count (agent, tool) : Int) ≤
        p.rateLimitPerRun := by
      rw [hstep]
      split
      · next h =>
        have := hcall h
        omega
      · omega
    have hrest := ih (r := r.settle c (r.verdict search c)) (by rwa [settle_engine]) hwithin
    rw [hstep] at hrest
    simp only [check, beq_iff_eq]
    omega

theorem decisions_verdict (hd : d ∈ r.decisions search calls) :
    ∃ r' : RunToolPolicy, r'.engine = r.engine ∧ d.2 = r'.verdict search d.1 := by
  induction calls generalizing r with
  | nil => cases hd
  | cons c rest ih =>
    rw [decisions, List.mem_cons] at hd
    cases hd with
    | inl h =>
      subst h
      exact ⟨r, rfl, rfl⟩
    | inr h =>
      obtain ⟨r', hr', hv⟩ := ih h
      exact ⟨r', hr'.trans settle_engine, hv⟩

theorem given_eq_allow {p : ToolPolicy} (hp : r.engine.chosen agent tool = some p)
    (hn : 0 < p.rateLimitPerRun) (he : p.effect ≠ .requireHitl) (calls : List Call) :
    given (· != .deny) agent tool (r.decisions search calls) =
      given (· == .allow) agent tool (r.decisions search calls) := by
  apply List.countP_congr
  intro d hd
  obtain ⟨r', hr', hv⟩ := decisions_verdict hd
  simp only [Bool.and_eq_true, beq_iff_eq, bne_iff_ne, and_congr_right_iff]
  rintro ⟨rfl, rfl⟩
  constructor
  · intro hdeny
    rw [hv] at hdeny ⊢
    have heff := (decide_rate (hr'.symm ▸ hp) hn hdeny).2
    rw [heff] at hdeny ⊢
    cases h : p.effect with
    | allow => rfl
    | deny => exact absurd h hdeny
    | requireHitl => exact absurd h he
  · intro hallow
    rw [hallow]
    exact PolicyEffect.noConfusion

/-- In every run a pair is allowed at most as often as its rule says, and unless that rule asks
for approval it is not denied at most as often. -/
theorem rate_limited (search : Search) (engine : ToolPolicyEngine) (calls : List Call)
    (agent tool : String) (p : ToolPolicy) (hp : engine.chosen agent tool = some p)
    (hn : 0 < p.rateLimitPerRun) :
    (given (· == .allow) agent tool (decisions search ⟨engine, ∅, []⟩ calls) : Int) ≤
        p.rateLimitPerRun ∧
      (p.effect ≠ .requireHitl →
        (given (· != .deny) agent tool (decisions search ⟨engine, ∅, []⟩ calls) : Int) ≤
          p.rateLimitPerRun) := by
  have hzero : count ⟨engine, ∅, []⟩ (agent, tool) = 0 := rfl
  have hallow := given_allow_le (r := ⟨engine, ∅, []⟩) search hp hn (hzero ▸ hn.le) calls
  rw [hzero] at hallow
  refine ⟨by omega, fun he => ?_⟩
  rw [given_eq_allow hp hn he]
  omega

/-- Two writes and two deletions by an agent that may do either once, the second with approval. -/
def guarded : ToolPolicyEngine :=
  ⟨[⟨"coder", "write_*", .allow, [], 1, ""⟩, ⟨"coder", "delete_*", .requireHitl, [], 1, ""⟩], none⟩

def attempts : List Call :=
  [⟨"coder", "write_file", []⟩, ⟨"coder", "delete_file", []⟩, ⟨"coder", "write_file", []⟩,
    ⟨"coder", "delete_file", []⟩]

theorem rate_limited_writes :
    (given (· != .deny) "coder" "write_file"
      (decisions (fun _ _ => some true) ⟨guarded, ∅, []⟩ attempts) : Int) ≤ 1 :=
  (rate_limited (fun _ _ => some true) guarded attempts "coder" "write_file"
    ⟨"coder", "write_*", .allow, [], 1, ""⟩ rfl (by decide)).2 PolicyEffect.noConfusion

/-- A rule that asks for approval is not counted, and is not denied beyond its limit. -/
theorem approvals_unlimited : ¬ ∀ (search : Search) (engine : ToolPolicyEngine)
    (calls : List Call) (agent tool : String) (p : ToolPolicy),
    engine.chosen agent tool = some p → 0 < p.rateLimitPerRun →
      (given (· != .deny) agent tool (decisions search ⟨engine, ∅, []⟩ calls) : Int) ≤
        p.rateLimitPerRun := by
  intro h
  have htwice := h (fun _ _ => some true) guarded attempts "coder" "delete_file"
    ⟨"coder", "delete_*", .requireHitl, [], 1, ""⟩ rfl (by decide)
  revert htwice
  decide

end Prismal.Security
