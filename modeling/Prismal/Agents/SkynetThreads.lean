import Prismal.Agents.SkynetRuns

namespace Prismal.Agents
open Prismal.Lib
set_option autoImplicit true

/-! The runs of a thread: a run begins in the state that the one before it has left in the
checkpoint, with a new message. -/

namespace Swarm

variable {w : Swarm} {s t : SkynetState} {message : String} {log : List Dispatch}
  {swarmPlan : SwarmPlan}

def leaves (w : Swarm) : Nat → SkynetState → Option SkynetState
  | 0, _ => none
  | fuel + 1, s =>
    match w.playRound s with
    | (_, .again s) => leaves w fuel s
    | (_, .finish s) => some { s with skynetOrders := [] }
    | (_, .abort) => none

def shownResults : Report → List WorkerResult
  | .notice _ => []
  | .result r => r.workerResults

/-- A run that begins in this state plans for the message, shows results of its own orders only, and
is as a run that begins in a fresh state. -/
structure Independent (s : SkynetState) (message : String) : Prop where
  plans : ∀ w : Swarm, w.latestMessage = message → w.goalOf s = strip message
  own : ∀ (w : Swarm) (fuel : Nat) (r : SwarmRun) (report : Report), w.latestMessage = message →
    w.run fuel s = some r → r.report = some report →
    ∀ result ∈ shownResults report, ∃ d ∈ r.rounds.flatten, d.result = some result
  fresh : ∀ (w : Swarm) (fuel : Nat), w.latestMessage = message → w.run fuel s = w.run fuel {}

def shownRounds (s : SkynetState) : Nat :=
  if s.roundsCompleted = 0 then roundOf s else s.roundsCompleted

/-- Nothing that a run reads before it writes it is left. -/
structure Unused (s : SkynetState) : Prop where
  round : roundOf s = 1
  rounds : shownRounds s = 1
  unmet : s.unmet = []
  entries : tagged s.parallelResults = []
  answer : s.answer = ""
  complete : s.complete = false
  error : s.error.filter (· ≠ "") = none

/-- No goal but the message is left, and no results; if there is a message, nothing else. -/
structure Clean (s : SkynetState) (message : String) : Prop where
  goal : strip s.goal = "" ∨ strip s.goal = strip message
  results : s.results = []
  unused : strip message ≠ "" → Unused s

/-! States that a round which dispatches orders does not tell apart. -/

structure Alike (s t : SkynetState) : Prop where
  goal : s.goal = t.goal
  round : s.round = t.round
  orders : s.orders = t.orders
  deferred : s.deferred = t.deferred
  unmet : s.unmet = t.unmet
  results : s.results = t.results
  answer : s.answer = t.answer
  complete : s.complete = t.complete
  error : s.error.filter (· ≠ "") = t.error.filter (· ≠ "")
  staged : s.skynetOrders = t.skynetOrders
  entries : tagged s.parallelResults = tagged t.parallelResults

def Pending (w : Swarm) (s : SkynetState) : Prop :=
  w.settings.parallelEnabled = true ∧ strip s.goal ≠ "" ∧ s.unmet ≠ []

def TurnsAlike (w : Swarm) : Turn → Turn → Prop
  | .again s, .again t => Alike s t ∧ w.Pending s
  | .finish s, .finish t => outputNode s = outputNode t
  | .abort, .abort => True
  | _, _ => False

theorem Alike.roundOf (h : Alike s t) : roundOf s = roundOf t := by
  rw [Swarm.roundOf, Swarm.roundOf, h.round]

theorem Alike.goalOf (h : Alike s t) (w : Swarm) : w.goalOf s = w.goalOf t := by
  rw [Swarm.goalOf, Swarm.goalOf, h.goal]

theorem planNode_empty (w : Swarm) (h : w.goalOf s = "") :
    w.planNode s = { s with error := some "empty goal", skynetOrders := [] } := by
  rw [planNode, if_pos h]

theorem planNode_error (hgoal : w.goalOf s ≠ "")
    (h : w.plan (w.goalOf s) (roundOf s) s.unmet = .error e) :
    w.planNode s =
      { s with error := some e, goal := w.goalOf s, round := roundOf s, skynetOrders := [] } := by
  rw [planNode, if_neg hgoal, h]

theorem planNode_ok (hgoal : w.goalOf s ≠ "")
    (h : w.plan (w.goalOf s) (roundOf s) s.unmet = .ok swarmPlan) :
    w.planNode s =
      { s with
        goal := w.goalOf s, round := roundOf s, rationale := swarmPlan.rationale
        orders := swarmPlan.orders, deferred := swarmPlan.deferred, unmet := [], skynetOrders := swarmPlan.orders } := by
  rw [planNode, if_neg hgoal, h]

theorem Alike.planNode (h : Alike s t) (w : Swarm) : Alike (w.planNode s) (w.planNode t) := by
  have hgoal := h.goalOf w
  have hround := h.roundOf
  have hplan : w.plan (w.goalOf s) (Swarm.roundOf s) s.unmet =
      w.plan (w.goalOf t) (Swarm.roundOf t) t.unmet := by
    rw [hgoal, hround, h.unmet]
  by_cases hempty : w.goalOf t = ""
  · rw [planNode_empty w (hgoal.trans hempty), planNode_empty w hempty]
    exact { h with error := rfl, staged := rfl }
  · have hempty' : w.goalOf s ≠ "" := by
      rw [hgoal]
      exact hempty
    cases hcase : w.plan (w.goalOf t) (Swarm.roundOf t) t.unmet with
    | error e =>
      rw [planNode_error hempty' (hplan.trans hcase), planNode_error hempty hcase, hgoal, hround]
      generalize w.goalOf t = goal
      exact { h with goal := rfl, round := rfl, error := rfl, staged := rfl }
    | ok plan =>
      rw [planNode_ok hempty' (hplan.trans hcase), planNode_ok hempty hcase, hgoal, hround]
      generalize w.goalOf t = goal
      exact { h with
        goal := rfl, round := rfl, orders := rfl, deferred := rfl, unmet := rfl, staged := rfl }

theorem Alike.reduceNode (h : Alike s t) (w : Swarm) :
    Alike (w.reduceNode s) (w.reduceNode t) := by
  have hresults : (w.reduceNode s).results = (w.reduceNode t).results := by
    rw [Swarm.reduceNode, Swarm.reduceNode, h.entries]
  have hanswer : (w.reduceNode s).answer = (w.reduceNode t).answer := by
    rw [Swarm.reduceNode, Swarm.reduceNode, h.entries, h.round]
  exact { h with results := hresults, answer := hanswer }

theorem Alike.failedOrders (h : Alike s t) : failedOrders s = failedOrders t := by
  rw [Swarm.failedOrders, Swarm.failedOrders, h.results, h.orders]

theorem Alike.outputNode (h : Alike s t)
    (hrounds : shownRounds s = shownRounds t) : outputNode s = outputNode t := by
  rw [shownRounds, shownRounds] at hrounds
  rw [Swarm.outputNode, Swarm.outputNode, h.error, h.results, h.goal, h.answer, h.deferred,
    h.complete, hrounds]

theorem evaluateNode_error (h : w.evaluateFn (roundOf s) s.results = .error e) :
    w.evaluateNode s =
      { s with complete := false, replan := false, roundsCompleted := roundOf s, error := some e } := by
  rw [evaluateNode, h]

theorem evaluateNode_again (h : w.evaluateFn (roundOf s) s.results = .ok (complete, answer))
    (hmore : (!complete && decide (roundOf s < w.settings.maxRounds) &&
      decide (failedOrders s ++ s.deferred ≠ [])) = true) :
    w.evaluateNode s =
      { s with
        answer := if answer = "" then s.answer else answer, complete := complete, replan := true
        round := roundOf s + 1, unmet := failedOrders s ++ s.deferred, deferred := [] } := by
  rw [evaluateNode, h]
  exact if_pos hmore

theorem evaluateNode_done (h : w.evaluateFn (roundOf s) s.results = .ok (complete, answer))
    (hmore : ¬ (!complete && decide (roundOf s < w.settings.maxRounds) &&
      decide (failedOrders s ++ s.deferred ≠ [])) = true) :
    w.evaluateNode s =
      { s with
        answer := if answer = "" then s.answer else answer, complete := complete, replan := false
        roundsCompleted := roundOf s } := by
  rw [evaluateNode, h]
  exact if_neg hmore

def verdict (w : Swarm) (s : SkynetState) : Turn :=
  if (w.evaluateNode s).replan then .again (w.evaluateNode s) else .finish (w.evaluateNode s)

theorem shownRounds_of_done (h : s.roundsCompleted = Swarm.roundOf t) :
    shownRounds s = Swarm.roundOf t := by
  have hpos := roundOf_pos t
  rw [shownRounds, h, if_neg (Nat.ne_of_gt hpos)]

theorem Alike.verdict (h : Alike s t) (w : Swarm) (hon : w.settings.parallelEnabled = true)
    (hgoal : strip s.goal ≠ "") : w.TurnsAlike (w.verdict s) (w.verdict t) := by
  have hround := h.roundOf
  have hfailed : Swarm.failedOrders s ++ s.deferred = Swarm.failedOrders t ++ t.deferred := by
    rw [h.failedOrders, h.deferred]
  have heval : w.evaluateFn (Swarm.roundOf s) s.results =
      w.evaluateFn (Swarm.roundOf t) t.results := by
    rw [hround, h.results]
  rw [Swarm.verdict, Swarm.verdict]
  cases hcase : w.evaluateFn (Swarm.roundOf t) t.results with
  | error e =>
    rw [evaluateNode_error (heval.trans hcase), evaluateNode_error hcase]
    apply Alike.outputNode
    · exact { h with complete := rfl, error := rfl }
    · exact (shownRounds_of_done rfl).trans (hround.trans (shownRounds_of_done rfl).symm)
  | ok answered =>
    obtain ⟨complete, answer⟩ := answered
    have hanswer : (if answer = "" then s.answer else answer) =
        if answer = "" then t.answer else answer := by
      rw [h.answer]
    by_cases hmore : (!complete && decide (Swarm.roundOf t < w.settings.maxRounds) &&
      decide (Swarm.failedOrders t ++ t.deferred ≠ [])) = true
    · have hmore' := hmore
      rw [← hround, ← hfailed] at hmore'
      rw [evaluateNode_again (heval.trans hcase) hmore', evaluateNode_again hcase hmore]
      refine ⟨?_, hon, hgoal, ?_⟩
      · exact { h with
          round := congrArg (· + 1) hround, answer := hanswer, complete := rfl, unmet := hfailed
          deferred := rfl }
      · rw [Bool.and_eq_true, decide_eq_true_eq] at hmore'
        exact hmore'.2
    · have hmore' := hmore
      rw [← hround, ← hfailed] at hmore'
      rw [evaluateNode_done (heval.trans hcase) hmore', evaluateNode_done hcase hmore]
      apply Alike.outputNode
      · exact { h with answer := hanswer, complete := rfl }
      · exact (shownRounds_of_done rfl).trans (hround.trans (shownRounds_of_done rfl).symm)

/-! A round, and the rounds after it. -/

theorem playRound_finish (w : Swarm) (h : w.dispatcher (w.planNode s) = []) :
    w.playRound s = ([], .finish (w.planNode s)) := by
  rw [playRound, h]
  rfl

theorem playRound_dispatched (w : Swarm) (h : w.dispatcher (w.planNode s) ≠ []) :
    w.playRound s =
      (batchOf w (w.planNode s).round (w.dispatcher (w.planNode s)),
        if (batchOf w (w.planNode s).round (w.dispatcher (w.planNode s))).any
          fun d => d.result.isNone then .abort
        else w.verdict (w.merged (w.planNode s)
          ((batchOf w (w.planNode s).round (w.dispatcher (w.planNode s))).filterMap
            Dispatch.result))) := by
  have hbatch : batchOf w (w.planNode s).round (w.dispatcher (w.planNode s)) ≠ [] := by
    rw [batchOf, Ne, List.map_eq_nil_iff]
    exact h
  rw [playRound, ← batchOf, if_neg hbatch]
  split <;> rfl

theorem Alike.merged (h : Alike s t) (w : Swarm) (rs : List WorkerResult) :
    Alike (w.merged s rs) (w.merged t rs) := by
  apply Alike.reduceNode
  refine { h with entries := ?_ }
  rw [tagged_append, tagged_append, h.entries]

theorem goal_merged (w : Swarm) (s : SkynetState) (rs : List WorkerResult) :
    (w.merged s rs).goal = s.goal := rfl

theorem dispatcher_on (w : Swarm) (h : w.dispatcher s ≠ []) :
    w.settings.parallelEnabled = true := by
  rw [dispatcher] at h
  split at h
  · next hon => exact hon
  · exact absurd rfl h

theorem Alike.playRound (h : Alike (w.planNode s) (w.planNode t))
    (hgoal : strip (w.planNode s).goal ≠ "") (hrest : w.dispatcher (w.planNode s) ≠ []) :
    (w.playRound s).1 = (w.playRound t).1 ∧
      w.TurnsAlike (w.playRound s).2 (w.playRound t).2 := by
  have hdispatched : w.dispatcher (w.planNode s) = w.dispatcher (w.planNode t) := by
    rw [dispatcher, dispatcher, h.staged]
  have hon := dispatcher_on w hrest
  rw [playRound_dispatched w hrest, playRound_dispatched w (hdispatched ▸ hrest), ← h.round,
    ← hdispatched]
  refine ⟨rfl, ?_⟩
  generalize batchOf w (w.planNode s).round (w.dispatcher (w.planNode s)) = batch
  dsimp only
  split
  · trivial
  · apply (h.merged w _).verdict w hon
    rw [goal_merged]
    exact hgoal

theorem Pending.dispatches (h : w.Pending s) :
    strip (w.planNode s).goal ≠ "" ∧ w.dispatcher (w.planNode s) ≠ [] := by
  obtain ⟨hon, hgoal, hunmet⟩ := h
  have hne : w.planned s ≠ [] := by
    intro hnil
    have hids := orderIds_planned (w := w) hgoal hunmet
    rw [hnil] at hids
    exact hunmet (List.map_eq_nil_iff.1 hids.symm)
  have hp := planned_planNode hne
  refine ⟨hp.goal, ?_⟩
  rw [hp.dispatcher hon]
  exact hp.orders_ne_nil hne

theorem run_turnsAlike (hlog : (w.playRound s).1 = (w.playRound t).1)
    (hturn : w.TurnsAlike (w.playRound s).2 (w.playRound t).2)
    (ih : ∀ s t, Alike s t → w.Pending s → w.run fuel s = w.run fuel t) :
    w.run (fuel + 1) s = w.run (fuel + 1) t := by
  rw [run, run]
  generalize w.playRound s = first at hlog hturn ⊢
  generalize w.playRound t = second at hlog hturn ⊢
  obtain ⟨batch, turn⟩ := first
  obtain ⟨batch', turn'⟩ := second
  cases hlog
  cases turn with
  | again s' =>
    cases turn' with
    | again t' =>
      dsimp only
      rw [ih s' t' hturn.1 hturn.2]
    | finish t' => cases hturn
    | abort => cases hturn
  | finish s' =>
    cases turn' with
    | again t' => cases hturn
    | finish t' =>
      dsimp only
      rw [show outputNode s' = outputNode t' from hturn]
    | abort => cases hturn
  | abort =>
    cases turn' with
    | again t' => cases hturn
    | finish t' => cases hturn
    | abort => rfl

theorem Alike.run (h : Alike s t) (hpending : w.Pending s) : w.run fuel s = w.run fuel t := by
  induction fuel generalizing s t with
  | zero => rfl
  | succ fuel ih =>
    obtain ⟨hgoal, hrest⟩ := hpending.dispatches
    obtain ⟨hlog, hturn⟩ := (h.planNode w).playRound hgoal hrest
    exact run_turnsAlike hlog hturn fun s t => ih

/-! What a run from a clean state is. -/

theorem goalOf_fresh (w : Swarm) : w.goalOf {} = strip w.latestMessage := by
  have hblank : ¬ strip ({} : SkynetState).goal ≠ "" := not_not_intro (by decide)
  rw [goalOf, if_neg hblank]

theorem Clean.goalOf (h : Clean s w.latestMessage) : w.goalOf s = strip w.latestMessage := by
  rw [Swarm.goalOf]
  split
  · next hgoal => exact h.goal.resolve_left hgoal
  · rfl

theorem outputNode_notice (hresults : s.results = []) (herror : s.error = some e) (he : e ≠ "") :
    outputNode s = .notice ("Skynet could not plan: " ++ e) := by
  have hfilter : s.error.filter (· ≠ "") = some e := by
    rw [herror]
    exact Option.filter_some_pos (decide_eq_true he)
  rw [outputNode, hfilter, hresults]

theorem run_notice (w : Swarm) (hnil : (w.planNode s).skynetOrders = [])
    (hresults : (w.planNode s).results = []) (herror : (w.planNode s).error = some e) (he : e ≠ "") :
    w.run (fuel + 1) s = some ⟨[[]], some (.notice ("Skynet could not plan: " ++ e))⟩ := by
  rw [run, playRound_of_nil w hnil]
  dsimp only
  rw [outputNode_notice hresults herror he]

theorem error_of_plan {round : Nat} (h : w.plan goal round [] = .error e) : e ≠ "" := by
  have hdec : w.decompose goal = .error e := by
    rw [plan, requested, if_pos rfl] at h
    generalize w.decompose goal = out at h ⊢
    cases out with
    | error e' =>
      cases h
      rfl
    | ok planned => cases h
  rw [decompose] at hdec
  intro hnil
  subst hnil
  split at hdec
  · next text _ =>
    have hlen := congrArg String.length (Except.error.inj hdec)
    rw [String.length_append] at hlen
    have hpos : 0 < "Planner backend failed: ".length := by decide
    have hzero : "".length = 0 := rfl
    omega
  · exact absurd (Except.error.inj hdec) (by decide)
  · cases hdec

theorem shownRounds_planned (hs : shownRounds s = n) (h : t.round = Swarm.roundOf s)
    (hrounds : t.roundsCompleted = s.roundsCompleted) : shownRounds t = n := by
  have hpos := roundOf_pos s
  rw [← hs, shownRounds, shownRounds, hrounds, Swarm.roundOf, h, if_neg (Nat.ne_of_gt hpos)]

theorem Unused.planned (h : Unused s) (hresults : s.results = [])
    (hgoal : w.goalOf s = strip w.latestMessage) (hmessage : strip w.latestMessage ≠ "")
    (hplan : w.plan (strip w.latestMessage) 1 [] = .ok swarmPlan) :
    Alike (w.planNode s) (w.planNode {}) ∧ strip (w.planNode s).goal ≠ "" ∧
      shownRounds (w.planNode s) = shownRounds (w.planNode {}) := by
  have hfresh := goalOf_fresh w
  have hs : w.plan (w.goalOf s) (roundOf s) s.unmet = .ok swarmPlan := by
    rw [hgoal, h.round, h.unmet]
    exact hplan
  have hf : w.plan (w.goalOf {}) (roundOf {}) [] = .ok swarmPlan := by
    rw [hfresh]
    exact hplan
  have hs' : w.goalOf s ≠ "" := by
    rw [hgoal]
    exact hmessage
  have hf' : w.goalOf {} ≠ "" := by
    rw [hfresh]
    exact hmessage
  have hstrip := strip_goalOf hs'
  rw [planNode_ok hs' hs, planNode_ok hf' hf, hfresh, ← hgoal]
  generalize w.goalOf s = goal at hstrip ⊢
  refine ⟨?_, ?_, ?_⟩
  · constructor
    · rfl
    · exact h.round
    · rfl
    · rfl
    · rfl
    · exact hresults
    · exact h.answer
    · exact h.complete
    · exact h.error
    · rfl
    · exact h.entries
  · exact hstrip
  · refine Eq.trans (b := 1) ?_ (Eq.symm ?_)
    · exact shownRounds_planned h.rounds rfl rfl
    · exact shownRounds_planned (s := {}) rfl rfl rfl

theorem Clean.run (h : Clean s w.latestMessage) : w.run fuel s = w.run fuel {} := by
  cases fuel with
  | zero => rfl
  | succ fuel =>
    have hgoal := h.goalOf
    have hfresh := goalOf_fresh w
    by_cases hempty : strip w.latestMessage = ""
    · have hs := planNode_empty w (hgoal.trans hempty)
      have hf := planNode_empty w (hfresh.trans hempty)
      rw [run_notice w (e := "empty goal") (by rw [hs]) (by rw [hs]; exact h.results) (by rw [hs])
        (by decide), run_notice w (e := "empty goal") (by rw [hf]) (by rw [hf]) (by rw [hf])
        (by decide)]
    · have hu := h.unused hempty
      cases hcase : w.plan (strip w.latestMessage) 1 [] with
      | error e =>
        have hne := error_of_plan hcase
        have hs : w.plan (w.goalOf s) (roundOf s) s.unmet = .error e := by
          rw [hgoal, hu.round, hu.unmet]
          exact hcase
        have hf : w.plan (w.goalOf {}) (roundOf {}) [] = .error e := by
          rw [hfresh]
          exact hcase
        have hs := planNode_error (hgoal ▸ hempty) hs
        have hf := planNode_error (hfresh ▸ hempty) hf
        rw [run_notice w (by rw [hs]) (by rw [hs]; exact h.results) (by rw [hs]) hne,
          run_notice w (by rw [hf]) (by rw [hf]) (by rw [hf]) hne]
      | ok plan =>
        obtain ⟨halike, hstrip, hrounds⟩ := hu.planned h.results hgoal hempty hcase
        by_cases hnil : w.dispatcher (w.planNode s) = []
        · have hnil' : w.dispatcher (w.planNode {}) = [] := by
            rw [dispatcher, ← halike.staged]
            exact hnil
          rw [Swarm.run, Swarm.run, playRound_finish w hnil, playRound_finish w hnil']
          dsimp only
          rw [halike.outputNode hrounds]
        · obtain ⟨hlog, hturn⟩ := halike.playRound hstrip hnil
          exact run_turnsAlike hlog hturn fun s t h => h.run

/-! The results of a run that begins without any are those of its own orders. -/

/-- The results that a state holds are results of the log. -/
structure Owned (log : List Dispatch) (s : SkynetState) : Prop where
  entries : ∀ p ∈ tagged s.parallelResults, ∃ d ∈ log, d.result = some p.2
  results : ∀ r ∈ s.results, ∃ d ∈ log, d.result = some r

theorem Owned.congr (h : Owned log s) (hentries : t.parallelResults = s.parallelResults)
    (hresults : t.results = s.results) : Owned log t := by
  constructor
  · rw [hentries]
    exact h.entries
  · rw [hresults]
    exact h.results

theorem Owned.planNode (h : Owned log s) (w : Swarm) : Owned log (w.planNode s) := by
  by_cases hempty : w.goalOf s = ""
  · rw [planNode_empty w hempty]
    exact h.congr rfl rfl
  · cases hcase : w.plan (w.goalOf s) (roundOf s) s.unmet with
    | error e =>
      rw [planNode_error hempty hcase]
      exact h.congr rfl rfl
    | ok plan =>
      rw [planNode_ok hempty hcase]
      exact h.congr rfl rfl

theorem Owned.merged (h : Owned log s) (w : Swarm) (batch : List Dispatch) :
    Owned (log ++ batch) (w.merged s (batch.filterMap Dispatch.result)) := by
  have hentries : ∀ p ∈ tagged (s.parallelResults ++
      (batch.filterMap Dispatch.result).map fun r => ⟨workerTag, r⟩),
      ∃ d ∈ log ++ batch, d.result = some p.2 := by
    intro p hp
    rw [tagged_append, List.mem_append] at hp
    rcases hp with hp | hp
    · obtain ⟨d, hd, hresult⟩ := h.entries p hp
      exact ⟨d, List.mem_append_left _ hd, hresult⟩
    · obtain ⟨e, he, rfl⟩ := List.mem_map.1 hp
      obtain ⟨r, hr, rfl⟩ := List.mem_map.1 (List.mem_of_mem_filter he)
      obtain ⟨d, hd, hresult⟩ := List.mem_filterMap.1 hr
      exact ⟨d, List.mem_append_right _ hd, hresult⟩
  constructor
  · exact hentries
  · intro r hr
    obtain ⟨p, hp, rfl⟩ := List.mem_map.1 hr
    exact hentries p (Dict.mem_of_get?_collect (Dict.get?_eq_some.2 hp))

theorem Owned.evaluateNode (h : Owned log s) (w : Swarm) : Owned log (w.evaluateNode s) := by
  cases hcase : w.evaluateFn (roundOf s) s.results with
  | error e =>
    rw [evaluateNode_error hcase]
    exact h.congr rfl rfl
  | ok answered =>
    by_cases hmore : (!answered.1 && decide (roundOf s < w.settings.maxRounds) &&
      decide (failedOrders s ++ s.deferred ≠ [])) = true
    · rw [evaluateNode_again hcase hmore]
      exact h.congr rfl rfl
    · rw [evaluateNode_done hcase hmore]
      exact h.congr rfl rfl

def Turn.Owned (log : List Dispatch) : Turn → Prop
  | .again s => Swarm.Owned log s
  | .finish s => Swarm.Owned log s
  | .abort => True

theorem Owned.playRound (h : Owned log s) (w : Swarm) :
    (w.playRound s).2.Owned (log ++ (w.playRound s).1) := by
  have hplanned := h.planNode w
  by_cases hrest : w.dispatcher (w.planNode s) = []
  · rw [playRound_finish w hrest, List.append_nil]
    exact hplanned
  · rw [playRound_dispatched w hrest]
    generalize batchOf w (w.planNode s).round (w.dispatcher (w.planNode s)) = batch
    have hevaluated := (hplanned.merged w batch).evaluateNode w
    dsimp only
    split
    · trivial
    · rw [verdict]
      split
      · exact hevaluated
      · exact hevaluated

theorem shownResults_outputNode (s : SkynetState) :
    ∀ r ∈ shownResults (outputNode s), r ∈ s.results := by
  intro r hr
  rw [outputNode] at hr
  split at hr
  · cases hr
  · exact hr

theorem Owned.run (h : Owned log s) (hrun : w.run fuel s = some r)
    (hreport : r.report = some report) :
    ∀ result ∈ shownResults report, ∃ d ∈ log ++ r.rounds.flatten, d.result = some result := by
  induction fuel generalizing log s r with
  | zero => cases hrun
  | succ fuel ih =>
    have hplayed := h.playRound w
    rw [Swarm.run] at hrun
    generalize w.playRound s = played at hrun hplayed
    obtain ⟨batch, turn⟩ := played
    cases turn with
    | again s' =>
      obtain ⟨rest, hrest, rfl⟩ := Option.map_eq_some_iff.1 hrun
      rw [List.flatten_cons, ← List.append_assoc]
      exact ih hplayed hrest hreport
    | finish s' =>
      cases hrun
      cases hreport
      intro result hresult
      rw [List.flatten_cons, List.flatten_nil, List.append_nil]
      exact hplayed.results result (shownResults_outputNode s' result hresult)
    | abort =>
      cases hrun
      cases hreport

theorem owned_fresh : Owned [] {} := by
  constructor
  · intro p hp
    cases hp
  · intro r hr
    cases hr

theorem Clean.independent (h : Clean s message) : Independent s message := by
  constructor
  · intro w hmessage
    subst hmessage
    exact h.goalOf
  · intro w fuel r report hmessage hrun hreport
    subst hmessage
    rw [h.run] at hrun
    exact owned_fresh.run hrun hreport
  · intro w fuel hmessage
    subst hmessage
    exact h.run

/-! The other way: a state that is not clean shows in some run. -/

def probe (message : String) (settings : SkynetSettings)
    (planned : String → Except String (List SwarmOrder × String)) : Swarm where
  settings := settings
  latestMessage := message
  planFn := planned
  workerFn _ _ := .output ""
  reduceFn _ _ := ""
  evaluateFn _ _ := .ok (true, "")

theorem run_off (w : Swarm) (hoff : w.settings.parallelEnabled = false) (s : SkynetState) :
    w.run 1 s = some ⟨[[]], some (outputNode (w.planNode s))⟩ := by
  have hnil : w.dispatcher (w.planNode s) = [] := by
    rw [dispatcher, hoff]
    rfl
  rw [run, playRound_finish w hnil]

theorem report_inj {r r' : SwarmRun} {report report' : Report} (h : some r = some r')
    (hr : r.report = some report) (hr' : r'.report = some report') : report = report' := by
  cases h
  exact Option.some.inj (hr.symm.trans hr')

theorem Independent.outputNode (h : Independent s message)
    (planned : String → Except String (List SwarmOrder × String)) :
    outputNode ((probe message { parallelEnabled := false } planned).planNode s) =
      outputNode ((probe message { parallelEnabled := false } planned).planNode {}) := by
  have hfresh := h.fresh (probe message { parallelEnabled := false } planned) 1 rfl
  rw [run_off _ rfl, run_off _ rfl] at hfresh
  exact report_inj hfresh rfl rfl

theorem Independent.goal (h : Independent s message) :
    strip s.goal = "" ∨ strip s.goal = strip message := by
  have hgoal := h.plans (probe message {} fun _ => .error "") rfl
  rw [goalOf] at hgoal
  split at hgoal
  · exact Or.inr hgoal
  · next hblank => exact Or.inl (not_not.1 hblank)

theorem results_planNode (w : Swarm) (s : SkynetState) : (w.planNode s).results = s.results := by
  rcases planNode_cases w s with ⟨-, -, h⟩ | ⟨-, -, orders, deferred, rationale, h, -⟩
  · exact h
  · rw [h]

theorem results_of_notice (h : outputNode s = .notice e) : s.results = [] := by
  rw [Swarm.outputNode] at h
  split at h
  · next hresults => exact hresults
  · cases h

theorem outputNode_result (h : s.error.filter (· ≠ "") = none ∨ s.results ≠ []) :
    outputNode s = .result
      { goal := s.goal, answer := s.answer, workerResults := s.results
        roundsCompleted := shownRounds s, deferredOrders := s.deferred, complete := s.complete } := by
  rw [Swarm.outputNode]
  split
  · next herror hresults =>
    rcases h with h | h
    · rw [h] at herror
      cases herror
    · exact absurd hresults h
  · rfl

theorem error_of_result (h : outputNode s = .result report) (hresults : s.results = []) :
    s.error.filter (· ≠ "") = none := by
  rw [Swarm.outputNode, hresults] at h
  split at h
  · cases h
  · next herror =>
    cases hcase : s.error.filter (· ≠ "") with
    | none => rfl
    | some e => exact absurd rfl (herror e hcase)

theorem outputNode_failed (hfail : ∀ goal, w.planFn goal = .error e) (hunmet : s.unmet = [])
    (hresults : s.results = []) : ∃ notice, outputNode (w.planNode s) = .notice notice := by
  by_cases hempty : w.goalOf s = ""
  · rw [planNode_empty w hempty]
    exact ⟨_, outputNode_notice hresults rfl (by decide)⟩
  · have hplan : ∃ e, w.plan (w.goalOf s) (roundOf s) s.unmet = .error e := by
      rw [plan, requested, if_pos hunmet, decompose, hfail]
      exact ⟨_, rfl⟩
    obtain ⟨e, hplan⟩ := hplan
    rw [planNode_error hempty hplan]
    rw [hunmet] at hplan
    exact ⟨_, outputNode_notice hresults rfl (error_of_plan hplan)⟩

theorem plan_requested (w : Swarm) (round : Nat)
    (h : w.requested goal unmet = .ok (orders, rationale)) :
    ∃ swarmPlan, w.plan goal round unmet = .ok swarmPlan := by
  rw [plan, h]
  exact ⟨_, rfl⟩

theorem requested_ok (w : Swarm) (goal : String)
    (h : unmet ≠ [] ∨ ∃ o orders, w.planFn goal = .ok (o :: orders, "")) :
    ∃ orders rationale, w.requested goal unmet = .ok (orders, rationale) := by
  rw [requested]
  split
  · next hnil =>
    obtain ⟨o, orders, hplanned⟩ := h.resolve_left (not_not_intro hnil)
    rw [decompose, hplanned]
    exact ⟨_, _, rfl⟩
  · exact ⟨_, _, rfl⟩

theorem outputNode_planned (hgoal : w.goalOf s ≠ "")
    (h : s.unmet ≠ [] ∨ ∃ o orders, w.planFn (w.goalOf s) = .ok (o :: orders, ""))
    (hunused : s.error.filter (· ≠ "") = none) :
    ∃ report, outputNode (w.planNode s) = .result report ∧ report.answer = s.answer ∧
      report.complete = s.complete ∧ report.roundsCompleted = shownRounds s := by
  obtain ⟨orders, rationale, hrequested⟩ := requested_ok w (w.goalOf s) h
  obtain ⟨swarmPlan, hplan⟩ := plan_requested w (roundOf s) hrequested
  rw [planNode_ok hgoal hplan]
  refine ⟨_, outputNode_result (Or.inl hunused), rfl, rfl, ?_⟩
  exact shownRounds_planned rfl rfl rfl

theorem error_planNode (hgoal : w.goalOf s ≠ "")
    (h : s.unmet ≠ [] ∨ ∃ o orders, w.planFn (w.goalOf s) = .ok (o :: orders, "")) :
    (w.planNode s).error = s.error := by
  obtain ⟨orders, rationale, hrequested⟩ := requested_ok w (w.goalOf s) h
  obtain ⟨swarmPlan, hplan⟩ := plan_requested w (roundOf s) hrequested
  rw [planNode_ok hgoal hplan]

def blankOrder : SwarmOrder := { orderId := "", instruction := "" }

def blankPlan (_ : String) : Except String (List SwarmOrder × String) := .ok ([blankOrder], "")

theorem Independent.results (h : Independent s message) : s.results = [] := by
  have hout := h.outputNode fun _ => .error ""
  obtain ⟨e, he⟩ := outputNode_failed (s := {})
    (w := probe message { parallelEnabled := false } fun _ => .error "") (fun _ => rfl) rfl rfl
  rw [he] at hout
  rw [← results_planNode, results_of_notice hout]

theorem Independent.shown (h : Independent s message) (hmessage : strip message ≠ "") :
    s.error.filter (· ≠ "") = none ∧ s.answer = "" ∧ s.complete = false ∧ shownRounds s = 1 := by
  let w := probe message { parallelEnabled := false } blankPlan
  have hplan : ∃ o orders, w.planFn (w.goalOf s) = .ok (o :: orders, "") := ⟨_, _, rfl⟩
  have hgoal : w.goalOf s ≠ "" := by
    rw [h.plans w rfl]
    exact hmessage
  have hfresh : w.goalOf {} ≠ "" := by
    rw [goalOf_fresh]
    exact hmessage
  obtain ⟨report, hreport, hanswer, hcomplete, hrounds⟩ :=
    outputNode_planned (s := {}) hfresh (Or.inr ⟨_, _, rfl⟩) rfl
  have hout := (h.outputNode blankPlan).trans hreport
  have herror := error_of_result hout ((results_planNode w s).trans h.results)
  rw [error_planNode hgoal (Or.inr hplan)] at herror
  obtain ⟨report', hreport', hanswer', hcomplete', hrounds'⟩ :=
    outputNode_planned hgoal (Or.inr hplan) herror
  cases Report.result.inj (hreport'.symm.trans hout)
  exact ⟨herror, hanswer'.symm.trans hanswer, hcomplete'.symm.trans hcomplete,
    hrounds'.symm.trans hrounds⟩

theorem Independent.unmet (h : Independent s message) (hmessage : strip message ≠ "") :
    s.unmet = [] := by
  by_contra hunmet
  let w := probe message { parallelEnabled := false } fun _ => .error ""
  have hgoal : w.goalOf s ≠ "" := by
    rw [h.plans w rfl]
    exact hmessage
  have hout := h.outputNode fun _ => .error ""
  obtain ⟨e, he⟩ := outputNode_failed (s := {}) (w := w) (fun _ => rfl) rfl rfl
  obtain ⟨report, hreport, -⟩ :=
    outputNode_planned hgoal (Or.inl hunmet) (h.shown hmessage).1
  cases hreport.symm.trans (hout.trans he)

theorem tagged_blank {rs : List WorkerResult} (h : ∀ r ∈ rs, r.orderId = "") :
    tagged (rs.map fun r => ⟨workerTag, r⟩) = [] := by
  rw [tagged, List.map_eq_nil_iff, List.filter_eq_nil_iff]
  intro e he
  obtain ⟨r, hr, rfl⟩ := List.mem_map.1 he
  rw [decide_eq_true_eq]
  exact fun hne => hne.2 (h r hr)

theorem planned_blank (hgoal : (probe message {} blankPlan).goalOf s ≠ "") (hunmet : s.unmet = []) :
    (probe message {} blankPlan).planned s = [blankOrder] := by
  rw [planned, if_neg hgoal, requested, if_pos hunmet]
  rfl

theorem verdict_content (h : w.evaluateFn (roundOf s) s.results = .ok (true, answer))
    (herror : s.error.filter (· ≠ "") = none) :
    ∃ s' report, w.verdict s = .finish s' ∧ outputNode s' = .result report ∧
      report.roundsCompleted = roundOf s ∧ report.workerResults = s.results := by
  have hdone := evaluateNode_done h fun hmore => Bool.false_ne_true hmore
  rw [verdict, hdone]
  refine ⟨_, _, rfl, outputNode_result (Or.inl herror), ?_, rfl⟩
  exact shownRounds_of_done rfl

theorem run_blank (hgoal : (probe message {} blankPlan).goalOf s ≠ "") (hunmet : s.unmet = [])
    (herror : s.error.filter (· ≠ "") = none) :
    ∃ r report, (probe message {} blankPlan).run 1 s = some r ∧ r.report = some (.result report) ∧
      report.roundsCompleted = roundOf s ∧
      report.workerResults = (Dict.collect (tagged s.parallelResults)).values := by
  have hplanned := planned_blank hgoal hunmet
  have hne : (probe message {} blankPlan).planned s ≠ [] := by
    rw [hplanned]
    exact List.cons_ne_nil _ _
  have herror' := error_planNode hgoal (Or.inr ⟨_, _, rfl⟩)
  have hp := planned_planNode hne
  have hrest := hp.orders_ne_nil hne
  rw [← hp.dispatcher rfl] at hrest
  have hround := hp.roundOf
  have hentries := hp.parallelResults
  have hids : ∀ o ∈ (probe message {} blankPlan).dispatcher
      ((probe message {} blankPlan).planNode s), o.orderId = "" := by
    intro o ho
    rw [hp.dispatcher rfl] at ho
    have hmem := List.mem_map_of_mem (f := SwarmOrder.orderId) ho
    rw [← orderIds, hp.orders, hplanned] at hmem
    exact List.mem_singleton.1 (List.mem_of_mem_take hmem)
  rw [run, playRound_dispatched _ hrest]
  generalize (probe message {} blankPlan).dispatcher
    ((probe message {} blankPlan).planNode s) = orders at hids
  generalize (probe message {} blankPlan).planNode s = s₁ at herror' hround hentries ⊢
  have hsome : ∀ d ∈ batchOf (probe message {} blankPlan) s₁.round orders,
      d.result.isNone = false := by
    intro d hd
    obtain ⟨o, -, rfl⟩ := List.mem_map.1 hd
    rfl
  have hblank : ∀ r ∈ (batchOf (probe message {} blankPlan) s₁.round orders).filterMap
      Dispatch.result, r.orderId = "" := by
    intro r hr
    obtain ⟨d, hd, hresult⟩ := List.mem_filterMap.1 hr
    rw [orderId_of_mem_batchOf hd hresult]
    obtain ⟨o, ho, rfl⟩ := List.mem_map.1 hd
    exact hids o ho
  generalize batchOf (probe message {} blankPlan) s₁.round orders = batch at hsome hblank ⊢
  have hnone : (batch.any fun d => d.result.isNone) = false := by
    rw [List.any_eq_false]
    intro d hd
    rw [hsome d hd]
    exact Bool.false_ne_true
  rw [hnone]
  obtain ⟨s', report, hverdict, hreport, hrounds, hresults⟩ :=
    verdict_content (w := probe message {} blankPlan)
      (s := (probe message {} blankPlan).merged s₁ (batch.filterMap Dispatch.result)) rfl
      (herror' ▸ herror)
  rw [if_neg Bool.false_ne_true, hverdict]
  refine ⟨_, report, rfl, congrArg some hreport, hrounds.trans hround, hresults.trans ?_⟩
  rw [merged, reduceNode, tagged_append, tagged_blank hblank, List.append_nil, hentries]

theorem tagged_of_collect {ps : List (String × WorkerResult)}
    (h : (Dict.collect ps).values = []) : ps = [] := by
  rw [List.eq_nil_iff_forall_not_mem]
  intro p hp
  have hmem := (Dict.mem_collect ps).2 (List.mem_map_of_mem hp)
  obtain ⟨e, he, -⟩ := List.mem_map.1 hmem
  rw [Dict.values, List.map_eq_nil_iff] at h
  rw [h] at he
  cases he

theorem Independent.round (h : Independent s message) (hmessage : strip message ≠ "") :
    roundOf s = 1 ∧ tagged s.parallelResults = [] := by
  have hgoal : (probe message {} blankPlan).goalOf s ≠ "" := by
    rw [h.plans _ rfl]
    exact hmessage
  have hfresh : (probe message {} blankPlan).goalOf {} ≠ "" := by
    rw [goalOf_fresh]
    exact hmessage
  obtain ⟨r, report, hrun, hreport, hround, hresults⟩ :=
    run_blank hgoal (h.unmet hmessage) (h.shown hmessage).1
  obtain ⟨r', report', hrun', hreport', hround', hresults'⟩ := run_blank (s := {}) hfresh rfl rfl
  have heq := hrun.symm.trans ((h.fresh _ 1 rfl).trans hrun')
  cases Report.result.inj (report_inj heq hreport hreport')
  exact ⟨hround.symm.trans hround', tagged_of_collect (hresults.symm.trans hresults')⟩

/-! What a finished run leaves. -/

theorem goal_planNode (hgoal : w.goalOf s ≠ "") : (w.planNode s).goal = w.goalOf s := by
  cases hcase : w.plan (w.goalOf s) (roundOf s) s.unmet with
  | error e => rw [planNode_error hgoal hcase]
  | ok plan => rw [planNode_ok hgoal hcase]

theorem goal_evaluateNode (w : Swarm) (s : SkynetState) : (w.evaluateNode s).goal = s.goal := by
  cases hcase : w.evaluateFn (roundOf s) s.results with
  | error e => rw [evaluateNode_error hcase]
  | ok answered =>
    by_cases hmore : (!answered.1 && decide (roundOf s < w.settings.maxRounds) &&
      decide (failedOrders s ++ s.deferred ≠ [])) = true
    · rw [evaluateNode_again hcase hmore]
    · rw [evaluateNode_done hcase hmore]

def Turn.Pursues (goal : String) : Turn → Prop
  | .again s => s.goal = goal
  | .finish s => s.goal = goal
  | .abort => True

theorem pursues_playRound (hgoal : w.goalOf s ≠ "") : (w.playRound s).2.Pursues (w.goalOf s) := by
  have hplanned := goal_planNode hgoal
  by_cases hrest : w.dispatcher (w.planNode s) = []
  · rw [playRound_finish w hrest]
    exact hplanned
  · rw [playRound_dispatched w hrest]
    generalize w.planNode s = s₁ at hplanned ⊢
    dsimp only
    split
    · trivial
    · rw [verdict]
      split
      · exact (goal_evaluateNode w _).trans hplanned
      · exact (goal_evaluateNode w _).trans hplanned

theorem strip_goalOf_self (w : Swarm) (s : SkynetState) : strip (w.goalOf s) = w.goalOf s := by
  rw [goalOf]
  split
  · exact strip_strip _
  · exact strip_strip _

theorem goal_leaves (hgoal : w.goalOf s ≠ "") (h : w.leaves fuel s = some s') :
    s'.goal = w.goalOf s := by
  induction fuel generalizing s with
  | zero => cases h
  | succ fuel ih =>
    have hpursues := pursues_playRound hgoal
    rw [leaves] at h
    generalize w.playRound s = played at h hpursues
    obtain ⟨batch, turn⟩ := played
    cases turn with
    | again s₁ =>
      have hnext : w.goalOf s₁ = w.goalOf s := by
        have hgoal₁ : s₁.goal = w.goalOf s := hpursues
        rw [goalOf, if_pos (hgoal₁ ▸ strip_goalOf hgoal), hgoal₁, strip_goalOf_self]
      rw [← hnext] at hgoal ⊢
      exact ih hgoal h
    | finish s₁ =>
      cases h
      exact hpursues
    | abort => cases h

/-- A run is independent of the state it begins in exactly when that state is clean. -/
theorem independent_iff (s : SkynetState) (message : String) :
    Independent s message ↔ Clean s message := by
  constructor
  · intro h
    refine ⟨h.goal, h.results, fun hmessage => ?_⟩
    obtain ⟨herror, hanswer, hcomplete, hrounds⟩ := h.shown hmessage
    obtain ⟨hround, hentries⟩ := h.round hmessage
    exact ⟨hround, hrounds, h.unmet hmessage, hentries, hanswer, hcomplete, herror⟩
  · intro h
    exact h.independent

theorem not_independent (h : w.leaves fuel s = some t) (hgoal : w.goalOf s ≠ "")
    (hmessage : strip message ≠ w.goalOf s) : ¬ Independent t message := by
  intro hindependent
  have hleft := goal_leaves hgoal h
  rcases hindependent.goal with hblank | hsame
  · rw [hleft, strip_goalOf_self] at hblank
    exact hgoal hblank
  · rw [hleft, strip_goalOf_self] at hsame
    exact hmessage hsame.symm

/-- A run for the prices is followed by another one, though the message asks for the weather. -/
theorem goal_survives :
    ∃ s, (oneOrder {} "ord-1" (.output "3 shops")).leaves 3 {} = some s ∧
      ¬ Independent s "weather" := by
  have hleaves : ((oneOrder {} "ord-1" (.output "3 shops")).leaves 3 {}).isSome = true := by
    rfl
  obtain ⟨s, hs⟩ := Option.isSome_iff_exists.1 hleaves
  exact ⟨s, hs, not_independent hs (by decide) (by decide)⟩

end Swarm

end Prismal.Agents
