import Mathlib.Algebra.Order.Ring.Unbundled.Rat
import Prismal.Lib.Dict
import Prismal.Lib.State

namespace Prismal.Eval
open Prismal.Lib
set_option autoImplicit true

/-! The evaluation runner: one case after the other, each to its own result. -/

/-- A value of a `setup` block. -/
inductive Value where
  | none
  | bool (b : Bool)
  | int (n : Int)
  | float (q : Rat)
  | inf
  | nan
  | str (s : String)
  | bytes (b : List UInt8)
  | collection

inductive PyError where
  | typeError
  | valueError (text : String)
  | overflowError
  | other (text : String)

/-- What is raised: an `Exception`, or a cancellation, which is none. -/
inductive Raised where
  | exception (e : PyError)
  | interrupt

/-- `repr`, and `int` of a text or of bytes where they are a numeral. -/
structure Builtins where
  repr : Value → String
  numeral : String → Option Int
  numeralBytes : List UInt8 → Option Int

/-- `int(value)` -/
def toInt (B : Builtins) : Value → Except Raised Int
  | .none => .error (.exception .typeError)
  | .bool b => .ok (if b then 1 else 0)
  | .int n => .ok n
  | .float q => .ok (Int.tdiv q.num q.den)
  | .inf => .error (.exception .overflowError)
  | .nan => .error (.exception (.valueError "cannot convert float NaN to integer"))
  | .str s => (B.numeral s).elim
      (.error (.exception (.valueError
        ("invalid literal for int() with base 10: " ++ B.repr (.str s))))) .ok
  | .bytes b => (B.numeralBytes b).elim
      (.error (.exception (.valueError
        ("invalid literal for int() with base 10: " ++ B.repr (.bytes b))))) .ok
  | .collection => .error (.exception .typeError)

structure EvalCase (α : Type) where
  id : String
  input : String
  assertions : List α
  setup : Dict String Value := ∅

structure EvalSet (α : Type) where
  suite : String
  cases : List (EvalCase α)

structure TrajectoryStep where
  node : String
  role : String
  content : String := ""
  toolName : Option String := none
  toolArgs : Option (Dict String Value) := none
  toolOk : Option Bool := none

structure Trajectory where
  caseId : String
  finalAnswer : String
  steps : List TrajectoryStep
  visitedNodes : List String
  toolCalls : Nat
  toolErrors : Nat
  costUsd : Rat
  tokens : Int
  latencyMs : Rat
  terminated : Bool
  securitySignals : List String := []
  promptTokens : Int := 0
  cacheReadTokens : Int := 0
  llmCalls : Nat := 0
  inputCostUsd : Rat := 0
  usageSource : String := "messages"
  observedToolNames : List String := []

structure AssertionResult (α : Type) where
  assertion : α
  passed : Bool
  score : Option Rat
  detail : String := ""

structure CaseResult (α : Type) where
  caseId : String
  passed : Bool
  trajectory : Trajectory
  assertionResults : List (AssertionResult α)

structure TokenReport where
  tokensPerSuccessfulTask : Rat
  cacheHitRatio : Rat
  solveRate : Rat
  meanTrajectoryLength : Rat
  inputCostUsdPerSuccess : Rat

structure Scorecard (α : Type) where
  suite : String
  version : String
  passRate : Rat
  avgSteps : Rat
  toolErrorRate : Rat
  avgCostUsd : Rat
  avgLatencyMs : Rat
  cases : List (CaseResult α)
  tokenReport : Option TokenReport := none

/-! Capturing a trajectory. -/

structure InputUsage where
  promptTokens : Int := 0
  cacheReadTokens : Int := 0
  llmCalls : Nat := 0
  inputCostUsd : Rat := 0

def InputUsage.add (u v : InputUsage) : InputUsage where
  promptTokens := u.promptTokens + v.promptTokens
  cacheReadTokens := u.cacheReadTokens + v.cacheReadTokens
  llmCalls := u.llmCalls + v.llmCalls
  inputCostUsd := u.inputCostUsd + v.inputCostUsd

/-- What `_consume_message`, `_InputUsage.add` and `_message_signals` read off a message. -/
structure Consumed where
  steps : List TrajectoryStep
  answer : Option String
  calls : Nat
  errors : Nat
  tokens : Int
  cost : Rat
  usage : InputUsage
  signals : List String

structure NodeUpdate where
  node : String
  signals : List String
  messages : List Consumed

structure LlmUsage where
  tokens : Int := 0
  costUsd : Rat := 0
  input : InputUsage := {}
  toolNames : List String := []
  toolErrors : Nat := 0

/-- The updates that a graph streams, what it then raises if anything, and what was measured. -/
structure Stream where
  updates : List NodeUpdate
  ended : Option Raised
  callback : LlmUsage
  latencyMs : Rat

structure Captured where
  steps : List TrajectoryStep := []
  visited : List String := []
  signals : List String := []
  toolCalls : Nat := 0
  toolErrors : Nat := 0
  tokens : Int := 0
  costUsd : Rat := 0
  usage : InputUsage := {}
  finalAnswer : String := ""

def Captured.message (c : Captured) (m : Consumed) : Captured :=
  { c with
    steps := c.steps ++ m.steps
    signals := c.signals ++ m.signals
    toolCalls := c.toolCalls + m.calls
    toolErrors := c.toolErrors + m.errors
    tokens := c.tokens + m.tokens
    costUsd := c.costUsd + m.cost
    usage := c.usage.add m.usage
    finalAnswer := m.answer.getD c.finalAnswer }

def Captured.update (c : Captured) (u : NodeUpdate) : Captured :=
  u.messages.foldl Captured.message
    { c with visited := c.visited ++ [u.node], signals := c.signals ++ u.signals }

def Captured.trajectory (c : Captured) (caseId : String) (s : Stream) (terminated : Bool) :
    Trajectory :=
  let observed := s.callback.input.llmCalls ≠ 0
  let usage := if observed then s.callback.input else c.usage
  { caseId
    finalAnswer := c.finalAnswer
    steps := c.steps
    visitedNodes := c.visited
    toolCalls := max c.toolCalls s.callback.toolNames.length
    toolErrors := max c.toolErrors s.callback.toolErrors
    costUsd := if observed then s.callback.costUsd else c.costUsd
    tokens := if observed then s.callback.tokens else c.tokens
    latencyMs := max 0 s.latencyMs
    terminated
    securitySignals := c.signals
    promptTokens := usage.promptTokens
    cacheReadTokens := usage.cacheReadTokens
    llmCalls := usage.llmCalls
    inputCostUsd := usage.inputCostUsd
    usageSource := if observed then "callbacks" else "messages"
    observedToolNames := s.callback.toolNames }

def captureTrajectory (caseId : String) (s : Stream) : Except Raised Trajectory :=
  let captured := s.updates.foldl Captured.update {}
  match s.ended with
  | none => .ok (captured.trajectory caseId s true)
  | some (.exception _) => .ok (captured.trajectory caseId s false)
  | some .interrupt => .error .interrupt

/-! The runner. -/

/-- The provider that a `setup` block asks for, over the tools of its toolkit. -/
inductive FakeToolProvider where
  | evalToolkit
  | evalToolkitChain

structure Kwargs where
  orgId : Option Value := none
  toolProvider : Option FakeToolProvider := none

/-- What the factories answer during one case, each the injected one or the default. The judge is
the one made now or for an earlier case. -/
structure World (α ρ γ π η θ : Type) where
  runtime : Kwargs → Except Raised ρ
  toolProvider : ρ → Option π
  embeddings : ρ → Option η
  aclose : ρ → Option (Except Raised Unit)
  graph : Option π → Except Raised γ
  stream : γ → Option π → EvalCase α → String → Stream
  hex : String
  judge : Except Raised θ
  evaluator : Trajectory → EvalCase α → θ → Option η → Except Raised (List (AssertionResult α))

structure EvalRunner (θ : Type) where
  builtins : Builtins
  judge : Option θ
  evalSeed : Option Int
  version : String

/-- The value of `case.setup.get(key)`. -/
def setupValue (setup : Dict String Value) (key : String) : Value := (setup.get? key).getD .none

def seedFor (R : EvalRunner θ) (case : EvalCase α) : Except Raised (Option Int) :=
  match setupValue case.setup "seed" with
  | .none => .ok R.evalSeed
  | seed => (toInt R.builtins seed).map some

def runtimeKwargs (B : Builtins) (setup : Dict String Value) : Except Raised Kwargs :=
  let orgId := setup.get? "org_id"
  match setupValue setup "tool_provider" with
  | .str "eval_toolkit" => .ok { orgId, toolProvider := some .evalToolkit }
  | .str "eval_toolkit_chain" => .ok { orgId, toolProvider := some .evalToolkitChain }
  | .none => .ok { orgId }
  | .str "" => .ok { orgId }
  | .str "fake" => .ok { orgId }
  | marker => .error (.exception (.valueError
      ("unknown eval setup tool_provider " ++ B.repr marker)))

def makeRuntime (R : EvalRunner θ) (w : World α ρ γ π η θ) (case : EvalCase α) :
    Except Raised ρ := do
  let kwargs ← runtimeKwargs R.builtins case.setup
  w.runtime kwargs

def usesToolkit : Value → Bool
  | .str s => s = "eval_toolkit" || s = "eval_toolkit_chain"
  | _ => false

def caseTools (w : World α ρ γ π η θ) (case : EvalCase α) (runtime : ρ) :
    Except Raised (Option π) :=
  if usesToolkit (setupValue case.setup "tool_provider") then
    match w.toolProvider runtime with
    | some provider => .ok (some provider)
    | none => .error (.exception (.other "no attribute 'tool_provider'"))
  else .ok none

def judgeFor (R : EvalRunner θ) (w : World α ρ γ π η θ) : Except Raised θ :=
  R.judge.elim w.judge .ok

def evaluate (R : EvalRunner θ) (w : World α ρ γ π η θ) (trajectory : Trajectory)
    (case : EvalCase α) (runtime : ρ) : Except Raised (List (AssertionResult α)) := do
  let judge ← judgeFor R w
  w.evaluator trajectory case judge (w.embeddings runtime)

/-- What stands inside the `try`. -/
def attempt (R : EvalRunner θ) (w : World α ρ γ π η θ) (case : EvalCase α) (runtime : ρ) :
    Except Raised (Trajectory × List (AssertionResult α)) := do
  let graph ← w.graph (w.toolProvider runtime)
  let threadId := "eval-" ++ case.id ++ "-" ++ w.hex
  let tools ← caseTools w case runtime
  let trajectory ← captureTrajectory case.id (w.stream graph tools case threadId)
  let assertionResults ← evaluate R w trajectory case runtime
  return (trajectory, assertionResults)

def aclose (w : World α ρ γ π η θ) (runtime : ρ) : Except Raised Unit :=
  match w.aclose runtime with
  | none => .ok ()
  | some (.ok ()) => .ok ()
  | some (.error (.exception _)) => .ok ()
  | some (.error .interrupt) => .error .interrupt

def emptyTrajectory (case : EvalCase α) : Trajectory where
  caseId := case.id
  finalAnswer := ""
  steps := []
  visitedNodes := []
  toolCalls := 0
  toolErrors := 0
  costUsd := 0
  tokens := 0
  latencyMs := 0
  terminated := false

/-- The result of what the `try` came to; only an `Exception` is caught. -/
def resultOf (case : EvalCase α) :
    Except Raised (Trajectory × List (AssertionResult α)) → Except Raised (CaseResult α)
  | .ok (trajectory, assertionResults) => .ok
      { caseId := case.id
        passed := trajectory.terminated && assertionResults.all AssertionResult.passed
        trajectory
        assertionResults }
  | .error (.exception _) => .ok
      { caseId := case.id
        passed := false
        trajectory := emptyTrajectory case
        assertionResults := [] }
  | .error .interrupt => .error .interrupt

def runCase (R : EvalRunner θ) (w : World α ρ γ π η θ) (case : EvalCase α) :
    Except Raised (CaseResult α) := do
  let _ ← seedFor R case
  let runtime ← makeRuntime R w case
  -- the `finally`, which runs before the result is returned
  aclose w runtime
  resultOf case (attempt R w case runtime)

def passes (results : List (CaseResult α)) : Nat := (results.filter CaseResult.passed).length

def total (f : Trajectory → Rat) (results : List (CaseResult α)) : Rat :=
  results.foldl (fun acc r => acc + f r.trajectory) 0

def ratio (x y : Rat) : Rat := if y = 0 then 0 else x / y

def buildTokenReport (results : List (CaseResult α)) : TokenReport :=
  let n : Rat := results.length
  let successes : Rat := passes results
  if results.length = 0 then ⟨0, 0, 0, 0, 0⟩
  else
    { tokensPerSuccessfulTask := ratio (total (fun t => t.tokens) results) successes
      cacheHitRatio :=
        ratio (total (fun t => t.cacheReadTokens) results)
          (total (fun t => t.promptTokens) results)
      solveRate := successes / n
      meanTrajectoryLength := total (fun t => t.llmCalls) results / n
      inputCostUsdPerSuccess := ratio (total (fun t => t.inputCostUsd) results) successes }

def aggregate (suite : String) (results : List (CaseResult α)) (version : String) :
    Scorecard α :=
  let n : Rat := results.length
  if results.length = 0 then
    { suite, version, passRate := 0, avgSteps := 0, toolErrorRate := 0, avgCostUsd := 0
      avgLatencyMs := 0, cases := [] }
  else
    { suite, version
      passRate := passes results / n
      avgSteps := total (fun t => t.steps.length) results / n
      toolErrorRate :=
        ratio (total (fun t => t.toolErrors) results) (total (fun t => t.toolCalls) results)
      avgCostUsd := total (fun t => t.costUsd) results / n
      avgLatencyMs := total (fun t => t.latencyMs) results / n
      cases := results
      tokenReport := some (buildTokenReport results) }

/-- The cases in order; the `k`th meets the world `w k`. -/
def runCases (R : EvalRunner θ) (w : Nat → World α ρ γ π η θ) :
    List (EvalCase α) → Except Raised (List (CaseResult α))
  | [] => .ok []
  | case :: rest => do
    let result ← runCase R (w 0) case
    let results ← runCases R (fun k => w (k + 1)) rest
    return result :: results

def runSet (R : EvalRunner θ) (w : Nat → World α ρ γ π η θ) (s : EvalSet α) :
    Except Raised (Scorecard α) := do
  let results ← runCases R w s.cases
  return aggregate s.suite results R.version

/-! What can raise out of a case. -/

/-- One of the steps that a case comes to is cancelled. -/
inductive Interrupted (R : EvalRunner θ) (w : World α ρ γ π η θ) (case : EvalCase α)
    (runtime : ρ) : Prop where
  | graph (h : w.graph (w.toolProvider runtime) = .error .interrupt)
  | stream (graph : γ) (tools : Option π)
      (hg : w.graph (w.toolProvider runtime) = .ok graph)
      (ht : caseTools w case runtime = .ok tools)
      (h : (w.stream graph tools case ("eval-" ++ case.id ++ "-" ++ w.hex)).ended =
        some .interrupt)
  | evaluation (graph : γ) (tools : Option π) (trajectory : Trajectory)
      (hg : w.graph (w.toolProvider runtime) = .ok graph)
      (ht : caseTools w case runtime = .ok tools)
      (hs : captureTrajectory case.id
        (w.stream graph tools case ("eval-" ++ case.id ++ "-" ++ w.hex)) = .ok trajectory)
      (h : evaluate R w trajectory case runtime = .error .interrupt)
  | teardown (h : w.aclose runtime = some (.error .interrupt))

/-- The seed is a number, the runtime is built, and no step is cancelled. -/
structure Safe (R : EvalRunner θ) (w : World α ρ γ π η θ) (case : EvalCase α) : Prop where
  seed : setupValue case.setup "seed" = .none ∨
    ∃ n, toInt R.builtins (setupValue case.setup "seed") = .ok n
  runtime : ∃ kwargs runtime, runtimeKwargs R.builtins case.setup = .ok kwargs ∧
    w.runtime kwargs = .ok runtime ∧ ¬ Interrupted R w case runtime

theorem captureTrajectory_error (caseId : String) (s : Stream) (e : Raised) :
    captureTrajectory caseId s = .error e ↔ s.ended = some .interrupt ∧ e = .interrupt := by
  unfold captureTrajectory
  cases hs : s.ended with
  | none => simp
  | some r =>
    cases r with
    | exception => simp
    | interrupt => simp [eq_comm]

theorem caseTools_error {w : World α ρ γ π η θ} (case : EvalCase α) (runtime : ρ) :
    caseTools w case runtime ≠ .error .interrupt := by
  unfold caseTools
  split
  · cases w.toolProvider runtime with
    | none => simp
    | some provider => simp
  · simp

theorem attempt_interrupt {R : EvalRunner θ} {w : World α ρ γ π η θ} {case : EvalCase α}
    {runtime : ρ} (h : attempt R w case runtime = .error .interrupt) :
    Interrupted R w case runtime := by
  rcases except_bind_error h with h | ⟨graph, hg, h⟩
  · exact .graph h
  rcases except_bind_error h with h | ⟨tools, ht, h⟩
  · exact absurd h (caseTools_error case runtime)
  rcases except_bind_error h with h | ⟨trajectory, hs, h⟩
  · exact .stream graph tools hg ht ((captureTrajectory_error _ _ _).1 h).1
  rcases except_bind_error h with h | ⟨results, hr, h⟩
  · exact .evaluation graph tools trajectory hg ht hs h
  · cases h

theorem aclose_error {w : World α ρ γ π η θ} {runtime : ρ} {e : Raised} :
    aclose w runtime = .error e ↔ w.aclose runtime = some (.error .interrupt) ∧ e = .interrupt := by
  unfold aclose
  cases hc : w.aclose runtime with
  | none => simp
  | some x =>
    cases x with
    | ok u => simp
    | error r =>
      cases r with
      | exception => simp
      | interrupt => simp [eq_comm]

theorem Interrupted.raised {R : EvalRunner θ} {w : World α ρ γ π η θ} {case : EvalCase α}
    {runtime : ρ} (h : Interrupted R w case runtime) :
    attempt R w case runtime = .error .interrupt ∨ aclose w runtime = .error .interrupt := by
  unfold attempt
  cases h with
  | graph h =>
    rw [h]
    exact .inl rfl
  | stream graph tools hg ht h =>
    have hs := (captureTrajectory_error case.id _ .interrupt).2 ⟨h, rfl⟩
    simp only [hg, ht]
    apply Or.inl
    change (captureTrajectory _ _ >>= _) = _
    rw [hs]
    rfl
  | evaluation graph tools trajectory hg ht hs h =>
    simp only [hg, ht]
    apply Or.inl
    change (captureTrajectory _ _ >>= _) = _
    rw [hs]
    change (evaluate _ _ _ _ _ >>= _) = _
    rw [h]
    rfl
  | teardown h => exact .inr (aclose_error.2 ⟨h, rfl⟩)

theorem seedFor_ok_iff (R : EvalRunner θ) (case : EvalCase α) :
    (∃ n, seedFor R case = .ok n) ↔ setupValue case.setup "seed" = .none ∨
      ∃ n, toInt R.builtins (setupValue case.setup "seed") = .ok n := by
  unfold seedFor
  split
  next h => exact iff_of_true ⟨_, rfl⟩ (.inl h)
  next h =>
    rw [or_iff_right h]
    cases toInt R.builtins (setupValue case.setup "seed") with
    | error e => simp [Except.map]
    | ok n => simp [Except.map]

theorem resultOf_ok_iff (case : EvalCase α)
    (x : Except Raised (Trajectory × List (AssertionResult α))) :
    (∃ r, resultOf case x = .ok r) ↔ x ≠ .error .interrupt := by
  cases x with
  | ok p => simp [resultOf]
  | error e =>
    cases e with
    | exception => simp [resultOf]
    | interrupt => simp [resultOf]

theorem runCase_ok_iff (R : EvalRunner θ) (w : World α ρ γ π η θ) (case : EvalCase α) :
    (∃ r, runCase R w case = .ok r) ↔ Safe R w case := by
  apply Iff.intro
  · intro h
    obtain ⟨r, hr⟩ := h
    obtain ⟨n, hn, hr⟩ := except_bind_ok hr
    obtain ⟨runtime, hm, hr⟩ := except_bind_ok hr
    obtain ⟨_, hc, hr⟩ := except_bind_ok hr
    obtain ⟨kwargs, hk, hb⟩ := except_bind_ok hm
    have hx := (resultOf_ok_iff case _).1 ⟨r, hr⟩
    apply Safe.mk ((seedFor_ok_iff R case).1 ⟨n, hn⟩)
    refine ⟨kwargs, runtime, hk, hb, fun hi => ?_⟩
    rcases hi.raised with h | h
    · exact hx h
    · rw [hc] at h
      cases h
  · intro h
    obtain ⟨n, hn⟩ := (seedFor_ok_iff R case).2 h.seed
    obtain ⟨kwargs, runtime, hk, hb, hi⟩ := h.runtime
    have hm : makeRuntime R w case = .ok runtime := by
      unfold makeRuntime
      rw [hk]
      exact hb
    have hx : attempt R w case runtime ≠ .error .interrupt := fun h => hi (attempt_interrupt h)
    obtain ⟨r, hr⟩ := (resultOf_ok_iff case _).2 hx
    have hc : aclose w runtime = .ok () := by
      cases hc : aclose w runtime with
      | ok u => rfl
      | error e => exact absurd (.teardown (aclose_error.1 hc).1) hi
    unfold runCase
    rw [hn]
    change ∃ r, (makeRuntime R w case >>= _) = .ok r
    rw [hm]
    change ∃ r, (aclose w runtime >>= _) = .ok r
    rw [hc]
    exact ⟨r, hr⟩

/-! What a result says, and what the scorecard says of the results. -/

def CaseResult.Judged (r : CaseResult α) : Prop :=
  r.passed ↔ r.trajectory.terminated ∧ ∀ a ∈ r.assertionResults, a.passed

theorem resultOf_judged {case : EvalCase α}
    {x : Except Raised (Trajectory × List (AssertionResult α))}
    (h : resultOf case x = .ok r) : r.caseId = case.id ∧ r.Judged := by
  unfold CaseResult.Judged
  cases x with
  | ok p =>
    cases h
    simp
  | error e =>
    cases e with
    | exception =>
      cases h
      simp [emptyTrajectory]
    | interrupt => cases h

theorem runCase_judged {R : EvalRunner θ} {w : World α ρ γ π η θ} {case : EvalCase α}
    (h : runCase R w case = .ok r) : r.caseId = case.id ∧ r.Judged := by
  obtain ⟨n, _, h⟩ := except_bind_ok h
  obtain ⟨runtime, _, h⟩ := except_bind_ok h
  obtain ⟨_, _, h⟩ := except_bind_ok h
  exact resultOf_judged h

def Answered (R : EvalRunner θ) (w : Nat → World α ρ γ π η θ) (cases : List (EvalCase α))
    (results : List (CaseResult α)) : Prop :=
  results.length = cases.length ∧ ∀ k case, cases[k]? = some case →
    ∃ r, results[k]? = some r ∧ runCase R (w k) case = .ok r ∧ r.caseId = case.id ∧ r.Judged

theorem runCases_answered {R : EvalRunner θ} {w : Nat → World α ρ γ π η θ}
    {cases : List (EvalCase α)} {results : List (CaseResult α)}
    (h : runCases R w cases = .ok results) : Answered R w cases results := by
  induction cases generalizing w results with
  | nil =>
    cases h
    exact ⟨rfl, fun k case hk => by simp at hk⟩
  | cons case rest ih =>
    obtain ⟨r, hr, h⟩ := except_bind_ok h
    obtain ⟨rs, hrs, h⟩ := except_bind_ok h
    cases except_pure_ok h
    obtain ⟨hlen, hall⟩ := ih hrs
    apply And.intro
    · simp [hlen]
    · intro k c hk
      cases k with
      | zero =>
        cases hk
        exact ⟨r, rfl, hr, runCase_judged hr⟩
      | succ k => exact hall k c hk

theorem runCases_ok_iff (R : EvalRunner θ) (w : Nat → World α ρ γ π η θ)
    (cases : List (EvalCase α)) :
    (∃ results, runCases R w cases = .ok results) ↔
      ∀ k case, cases[k]? = some case → Safe R (w k) case := by
  induction cases generalizing w with
  | nil => simp [runCases]
  | cons case rest ih =>
    apply Iff.intro
    · intro h
      obtain ⟨results, h⟩ := h
      obtain ⟨r, hr, h⟩ := except_bind_ok h
      obtain ⟨rs, hrs, _⟩ := except_bind_ok h
      intro k c hk
      cases k with
      | zero =>
        cases hk
        exact (runCase_ok_iff R (w 0) case).1 ⟨r, hr⟩
      | succ k => exact (ih _).1 ⟨rs, hrs⟩ k c hk
    · intro h
      obtain ⟨r, hr⟩ := (runCase_ok_iff R (w 0) case).2 (h 0 case rfl)
      obtain ⟨rs, hrs⟩ := (ih _).2 fun k c hk => h (k + 1) c hk
      unfold runCases
      rw [hr]
      change ∃ results, (runCases R _ rest >>= _) = .ok results
      rw [hrs]
      exact ⟨r :: rs, rfl⟩

theorem aggregate_cases (suite version : String) (results : List (CaseResult α)) :
    (aggregate suite results version).cases = results := by
  unfold aggregate
  split
  next h => exact (List.eq_nil_of_length_eq_zero h).symm
  next => rfl

theorem aggregate_passRate (suite version : String) (results : List (CaseResult α)) :
    (aggregate suite results version).passRate = passes results / results.length := by
  unfold aggregate
  split
  next h =>
    rw [h]
    simp [Rat.div_def]
  next => rfl

/-- The scorecard has the result of every case, and the fraction of those that passed. -/
structure Scored (R : EvalRunner θ) (w : Nat → World α ρ γ π η θ) (s : EvalSet α)
    (card : Scorecard α) : Prop where
  answered : Answered R w s.cases card.cases
  rate : card.passRate = passes card.cases / s.cases.length

theorem runSet_scored {R : EvalRunner θ} {w : Nat → World α ρ γ π η θ} {s : EvalSet α}
    {card : Scorecard α} (h : runSet R w s = .ok card) : Scored R w s card := by
  obtain ⟨results, hr, h⟩ := except_bind_ok h
  cases except_pure_ok h
  have ha := runCases_answered hr
  apply Scored.mk
  · rw [aggregate_cases]
    exact ha
  · rw [aggregate_cases, aggregate_passRate, ha.1]

theorem runSet_scores_iff (R : EvalRunner θ) (w : Nat → World α ρ γ π η θ) (s : EvalSet α) :
    (∃ card, runSet R w s = .ok card ∧ Scored R w s card) ↔
      ∀ k case, s.cases[k]? = some case → Safe R (w k) case := by
  rw [← runCases_ok_iff]
  apply Iff.intro
  · intro h
    obtain ⟨card, h, _⟩ := h
    obtain ⟨results, hr, _⟩ := except_bind_ok h
    exact ⟨results, hr⟩
  · intro h
    obtain ⟨results, hr⟩ := h
    have hs : runSet R w s = .ok (aggregate s.suite results R.version) := by
      unfold runSet
      rw [hr]
      rfl
    exact ⟨_, hs, runSet_scored hs⟩

def quietRunner : EvalRunner Unit where
  builtins := { repr := fun _ => "", numeral := fun _ => none, numeralBytes := fun _ => none }
  judge := none
  evalSeed := none
  version := "0.0.0"

def quietWorld : World Unit Unit Unit Unit Unit Unit where
  runtime _ := .ok ()
  toolProvider _ := none
  embeddings _ := none
  aclose _ := none
  graph _ := .ok ()
  stream _ _ _ _ := { updates := [], ended := none, callback := {}, latencyMs := 0 }
  hex := "0"
  judge := .ok ()
  evaluator _ _ _ _ := .ok []

/-- A second case whose toolkit has another name takes the first one's result with it. -/
theorem runSet_unknown_toolkit :
    ¬ ∃ card, runSet quietRunner (fun _ => quietWorld)
      { suite := "smoke"
        cases := [{ id := "a", input := "hi", assertions := [] },
          { id := "b", input := "hi", assertions := []
            setup := (∅ : Dict String Value).set "tool_provider" (.str "orders") }] } =
      .ok card := by
  intro h
  obtain ⟨card, h⟩ := h
  cases h

end Prismal.Eval
