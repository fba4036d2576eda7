import Mathlib.Data.Prod.Lex
import Prismal.Decisions.StateBuilder
import Prismal.Memory.Render

namespace Prismal.Memory
open Prismal.Lib Prismal.Decisions
set_option autoImplicit true

/-! Recall within a budget: views are chosen, and what they find and the neighbors of what was
found are admitted hop by hop. -/

/-- What to recall; `asOf` selects a temporal view. -/
structure RecallQuery where
  text : String
  types : Option (List MemoryType) := none
  asOf : Option Rat := none

inductive StopReason where
  | sufficient
  | budgetExhausted
  | maxHops
  | noCandidates
  | abstained
  deriving DecidableEq, Repr

structure RecallResult where
  items : List RecalledItem
  rendered : String
  tokens : Nat
  stopReason : StopReason
  views : List String
  hops : Nat

def graphView : String := "graph"

def defaultViews : List String := ["preference", "semantic"]

def viewMinProbability : Rat := 1 / 5

def daySeconds : Rat := 86400

/-- `_VIEW_TYPES` -/
def viewType (view : String) : Option MemoryType := MemoryType.all.find? fun t => t.value == view

/-- `_VIEW_DESCRIPTIONS` -/
def viewDescriptions : List (String × String) :=
  [("preference", "User preferences, likes, dislikes and settings."),
   ("semantic", "Stable facts and knowledge about the user, project or world."),
   ("episodic", "Past events and conversations: what happened and when."),
   ("procedural", "How-to knowledge: procedures, workflows and lessons learned."),
   (graphView, "Records linked to already-recalled memories through relations.")]

def viewOption (view : String) : OptionSpec where
  id := view
  description := (viewDescriptions.lookup view).getD ("Memories of kind " ++ view ++ ".")

def viewQuestionId : String := "memory.recall.views"

/-- `_view_question`, which raises where the views are no options of a question. -/
def viewQuestion (views : List String) : Option QuestionSpec :=
  if h : validSpec viewQuestionId .choice (views.map viewOption) [] = true then
    some
      { id := viewQuestionId
        kind := .choice
        instructions := "Which memory views are most likely to hold what the request needs?"
        options := views.map viewOption
        riskTier := .low
        valid := h }
  else none

/-- `SUFFICIENCY_QUESTION` -/
def sufficiencyQuestion : QuestionSpec where
  id := "memory.recall.sufficient"
  kind := .noul
  instructions := "Is the recalled evidence in the state sufficient to answer the request?"
  criteria := "Sufficient means no further memory lookup is needed to answer the request."
  riskTier := .low
  valid := by decide

/-- The weights are those of similarity, recency, edges and confidence. -/
structure RecallPolicy where
  views : List String := ["preference", "semantic", "episodic", "procedural", graphView]
  maxViews : Int := 2
  maxHops : Int := 3
  kPerHop : Int := 8
  tauSufficient : Rat := 4 / 5
  recencyHalfLifeDays : Rat := 30
  weights : Rat × Rat × Rat × Rat := (11 / 20, 1 / 5, 3 / 20, 1 / 10)

/-- What a recall is given: the decision port and the graph, where there are any, the backend, the
clock, the decision state's tables, the formats, `math.pow(2.0, -age / half_life)`, and the error
of a malformed question. -/
structure RecallPorts (ε σ : Type) where
  decisions : Option (Dict String String → QuestionSpec → EStateM ε σ (Dict String Decision))
  search : String → MemoryScope → List MemoryType → Int → Bool →
    EStateM ε σ (List (MemoryRecord × Rat))
  get : String → MemoryScope → EStateM ε σ (Option MemoryRecord)
  neighbors : Option (String → MemoryScope → Option Rat → EStateM ε σ (List MemoryEdge))
  clock : EStateM ε σ Rat
  tables : StateBuilder.Env
  formats : Formats ε
  decay : Rat → Rat → Except ε Rat
  valueError : ε

structure Candidate where
  record : MemoryRecord
  sim : Rat
  edge : Rat

structure RecallRun where
  admitted : Dict String RecalledItem := ∅
  seen : List String := []
  previous : List RecalledItem := []
  used : Nat := 0

variable {ε σ : Type}

/-- `xs[:n]` -/
def firstOf (n : Int) (xs : List α) : List α :=
  if 0 ≤ n then xs.take n.toNat else xs.take (xs.length - n.natAbs)

def probability (d : Decision) (label : String) : Rat := (d.probabilities.lookup label).getD 0

def MemoryEdge.other (edge : MemoryEdge) (seed : String) : String :=
  if edge.srcId = seed then edge.dstId else edge.srcId

/-- `max(weights, default=0.0)` -/
def edgeWeight (record : MemoryRecord) (admitted : Dict String RecalledItem) : Rat :=
  let linked := record.edges.filter fun e =>
    e.validTo.isNone && (decide (e.dstId ∈ admitted) || decide (e.srcId ∈ admitted))
  (linked.map MemoryEdge.confidence).max?.getD 0

def restrictViews (types : Option (List MemoryType)) (chosen : List String) : List String :=
  match types with
  | none => chosen
  | some allowed =>
    let chosen := chosen.filter fun v => (viewType v).all fun t => decide (t ∈ allowed)
    if chosen.any fun v => (viewType v).isSome then chosen
    else (MemoryType.all.filter fun t => decide (t ∈ allowed)).map MemoryType.value ++
      chosen.filter fun v => v == graphView

namespace RecallPorts
variable (p : RecallPorts ε σ) (policy : RecallPolicy) (query : RecallQuery) (ctx : MemoryContext)

/-- `_decide`: no answer without a port, or where it raises. -/
def decideOn (fields : Dict String String) (question : QuestionSpec) :
    EStateM ε σ (Option Decision) :=
  match p.decisions with
  | none => pure none
  | some port =>
    tryCatch (do
      let answers ← port fields question
      return answers.get? question.id) fun _ => pure none

/-- `_route_views` -/
def routeViews : EStateM ε σ (List String) := do
  let offered := policy.views.filter fun v => v != graphView || p.neighbors.isSome
  let chosen :=
    if p.decisions.isSome then defaultViews
    else offered.filter fun v => (viewType v).isSome
  if p.decisions.isSome ∧ 2 ≤ offered.length then
    match viewQuestion offered with
    | none => throw p.valueError
    | some question =>
      let state := StateBuilder.run p.tables [.untrusted "request" query.text "user"]
      match (← p.decideOn state.fields question).filter fun d => !d.abstained with
      | none => return restrictViews query.types chosen
      | some d =>
        let likely := offered.filter fun v => decide (viewMinProbability ≤ probability d v)
        let ranked := sortBy (fun v => toLex (-probability d v, offered.idxOf v)) likely
        return restrictViews query.types
          (if ranked.isEmpty then chosen else firstOf policy.maxViews ranked)
  else return restrictViews query.types chosen

/-- `_sufficiency` -/
def sufficiency (items : List RecalledItem) : EStateM ε σ (Option StopReason) := do
  if p.decisions.isNone then return none
  let lines ← MonadExcept.ofExcept (items.mapM fun i => itemLine p.formats i.record)
  let state := StateBuilder.run p.tables [.untrusted "request" query.text "user",
    .untrusted "evidence" ("\n".intercalate lines) "memory"]
  let decision ← p.decideOn state.fields sufficiencyQuestion
  if state.tainted ≠ [] then return none
  match decision.filter fun d => !d.abstained with
  | none => return some .abstained
  | some d => return if policy.tauSufficient ≤ probability d "true" then some .sufficient else none

/-- `_as_of_visible` -/
def asOfVisible (record : MemoryRecord) : EStateM ε σ Bool :=
  match query.asOf with
  | none => pure record.supersededBy.isNone
  | some asOf =>
    if asOf < record.provenance.createdAt then pure false
    else
      match record.supersededBy with
      | none => pure true
      | some newer => do
        let newer ← p.get newer ctx.scope
        return newer.any fun n => decide (asOf < n.provenance.createdAt)

/-- `_search` -/
def searchViews (text : String) (views : List String) (k : Int) :
    EStateM ε σ (List (MemoryRecord × Rat)) :=
  views.foldlM (fun hits view => do
    match viewType view with
    | none => return hits
    | some t => return hits ++ (← p.search text ctx.scope [t] k query.asOf.isSome)) []

def edgeRecords (seed : String) (edges : List MemoryEdge) :
    EStateM ε σ (List (MemoryRecord × MemoryEdge)) :=
  edges.foldlM (fun out edge => do
    if query.asOf.isNone ∧ edge.validTo.isSome then return out
    match ← p.get (edge.other seed) ctx.scope with
    | none => return out
    | some record => return out ++ [(record, edge)]) []

/-- `_neighbors` -/
def neighborRecords (seeds : List RecalledItem) : EStateM ε σ (List (MemoryRecord × MemoryEdge)) :=
  match p.neighbors with
  | none => pure []
  | some graph =>
    seeds.foldlM (fun out seed => do
      let edges ← tryCatch (graph seed.record.id ctx.scope query.asOf) fun _ => pure []
      return out ++ (← edgeRecords p query ctx seed.record.id edges)) []

def fresh (run : RecallRun) (record : MemoryRecord) : Bool :=
  decide (record.id ∉ run.seen) && ctx.scope.covers record.scope

def addHit (run : RecallRun) (found : Dict String Candidate) (hit : MemoryRecord × Rat) :
    Dict String Candidate :=
  if fresh ctx run hit.1 = false then found
  else if ((found.get? hit.1.id).all fun prior => decide (prior.sim < hit.2)) = true then
    found.set hit.1.id ⟨hit.1, hit.2, edgeWeight hit.1 run.admitted⟩
  else found

def addNeighbor (run : RecallRun) (found : Dict String Candidate)
    (neighbor : MemoryRecord × MemoryEdge) : Dict String Candidate :=
  if fresh ctx run neighbor.1 = false then found
  else
    let prior := found.get? neighbor.1.id
    found.set neighbor.1.id
      ⟨neighbor.1, (prior.map Candidate.sim).getD 0,
        max neighbor.2.confidence ((prior.map Candidate.edge).getD 0)⟩

def linkedRecords (views : List String) (run : RecallRun) :
    EStateM ε σ (List (MemoryRecord × MemoryEdge)) :=
  if graphView ∈ views then neighborRecords p query ctx run.previous else pure []

/-- `_candidates` -/
def candidates (hop : Nat) (views : List String) (run : RecallRun) :
    EStateM ε σ (List Candidate) := do
  let text :=
    if 1 < hop ∧ run.previous ≠ [] then
      " ".intercalate (query.text :: run.previous.map fun i => i.record.content)
    else query.text
  let hits ← searchViews p query ctx text views (policy.kPerHop * hop)
  let found := hits.foldl (addHit ctx run) ∅
  let neighbors ← linkedRecords p query ctx views run
  let found := neighbors.foldl (addNeighbor ctx run) found
  found.values.foldlM (fun kept c => do
    return if ← asOfVisible p query ctx c.record then kept ++ [c] else kept) []

/-- `traversal_score` -/
def traversalScore (sim ageDays edge confidence : Rat) : Except ε Rat := do
  let recency ← p.decay (max ageDays 0) policy.recencyHalfLifeDays
  return policy.weights.1 * sim + policy.weights.2.1 * recency + policy.weights.2.2.1 * edge +
    policy.weights.2.2.2 * confidence

def scored (now : Rat) (cs : List Candidate) : Except ε (List (Rat × MemoryRecord)) := do
  let scores ← cs.mapM fun c => do
    let score ← traversalScore p policy c.sim
      ((now - c.record.provenance.createdAt) / daySeconds) c.edge c.record.confidence
    return (score, c.record)
  return sortBy (fun s => toLex (-s.1, s.2.id)) scores

def admitStep (budget : Int) (s : RecallRun × Bool) (scored : Rat × MemoryRecord) :
    Except ε (RecallRun × Bool) := do
  let run := { s.1 with seen := scored.2.id :: s.1.seen }
  let cost ← itemTokens p.formats scored.2
  if budget < (run.used + cost : Nat) then return (run, true)
  let item : RecalledItem := { record := scored.2, score := scored.1, tokens := cost }
  return ({ run with
    used := run.used + cost
    admitted := run.admitted.set scored.2.id item
    previous := run.previous ++ [item] }, s.2)

def hops (budget : Int) (now : Rat) (views : List String) :
    Nat → Nat → RecallRun → EStateM ε σ (RecallRun × StopReason × Nat)
  | 0, hop, run => return (run, .maxHops, hop)
  | left + 1, hop, run => do
    let cs ← candidates p policy query ctx (hop + 1) views run
    if cs.isEmpty = true then return (run, .noCandidates, hop + 1)
    let ranked ← MonadExcept.ofExcept (scored p policy now cs)
    let (run, overflow) ← MonadExcept.ofExcept
      (ranked.foldlM (admitStep p budget) ({ run with previous := [] }, false))
    if overflow = true then return (run, .budgetExhausted, hop + 1)
    match ← sufficiency p policy query run.admitted.values with
    | some verdict => return (run, verdict, hop + 1)
    | none => hops budget now views left (hop + 1) run

def recallTime : EStateM ε σ Rat :=
  match query.asOf with
  | some asOf => pure asOf
  | none => p.clock

/-- `_run` -/
def run (budget : Int) : EStateM ε σ RecallResult := do
  let views ← routeViews p policy query
  let now ← recallTime p query
  let (run, stop, hop) ← hops p policy query ctx budget now views policy.maxHops.toNat 0 {}
  let items := run.admitted.values
  let (rendered, tokens) ← MonadExcept.ofExcept (renderItems p.formats items budget)
  return { items, rendered, tokens, stopReason := stop, views, hops := hop }

end RecallPorts

end Prismal.Memory

namespace Prismal.Memory
open Prismal.Lib Prismal.Decisions Prismal.Utils
set_option autoImplicit true

/-! What a recall may return: its costs, its scope and how far it has gone in the graph. -/

variable {ε σ : Type}

/-- A record that so many graph hops lead to from what the search returned. -/
inductive Reached (p : RecallPorts ε σ) : Nat → MemoryRecord → Prop where
  | hit {s s' : σ} (hsearch : p.search text scope types k superseded s = .ok hits s')
      (hmem : (r, sim) ∈ hits) : Reached p 0 r
  | edge {s s' t t' : σ} (hq : Reached p n q) (hgraph : p.neighbors = some graph)
      (hedges : graph q.id scope asOf s = .ok edges s') (he : e ∈ edges)
      (hget : p.get (e.other q.id) scope' t = .ok (some r) t') : Reached p (n + 1) r

/-- What a recall may hold after some of its hops. -/
structure Allowed (p : RecallPorts ε σ) (query : RecallQuery) (ctx : MemoryContext) (hop : Nat)
    (r : MemoryRecord) : Prop where
  covered : ctx.scope.covers r.scope = true
  current : query.asOf = none → r.supersededBy = none
  reached : ∃ n < hop, Reached p n r

structure Held (p : RecallPorts ε σ) (query : RecallQuery) (ctx : MemoryContext) (budget : Int)
    (hop : Nat) (run : RecallRun) : Prop where
  spent : run.used = (run.admitted.values.map RecalledItem.tokens).sum
  within : (run.used : Int) ≤ max budget 0
  keyed : ∀ e ∈ run.admitted.entries, e.2.record.id = e.1
  seen : ∀ k ∈ run.admitted, k ∈ run.seen
  cost : ∀ i ∈ run.admitted.values, itemTokens p.formats i.record = .ok i.tokens
  allowed : ∀ i ∈ run.admitted.values, Allowed p query ctx hop i.record
  previous : ∀ i ∈ run.previous, i ∈ run.admitted.values

variable {p : RecallPorts ε σ} {policy : RecallPolicy} {query : RecallQuery} {ctx : MemoryContext}
  {budget : Int} {run run' : RecallRun}

theorem Allowed.mono (h : Allowed p query ctx hop r) (hle : hop ≤ hop') :
    Allowed p query ctx hop' r := by
  obtain ⟨n, hn, hr⟩ := h.reached
  exact ⟨h.covered, h.current, n, hn.trans_le hle, hr⟩

theorem Held.mono (h : Held p query ctx budget hop run) (hle : hop ≤ hop') :
    Held p query ctx budget hop' run :=
  { h with allowed := fun i hi => (h.allowed i hi).mono hle }

theorem Held.start : Held p query ctx budget 0 {} where
  spent := rfl
  within := Int.le_max_right _ _
  keyed e he := by cases he
  seen k hk := by cases hk
  cost i hi := by cases hi
  allowed i hi := by cases hi
  previous i hi := by cases hi

theorem Held.reset (h : Held p query ctx budget hop run) :
    Held p query ctx budget hop { run with previous := [] } :=
  { h with previous := fun i hi => by cases hi }

theorem Held.distinct (h : Held p query ctx budget hop run) :
    (run.admitted.values.map fun i => i.record.id).Nodup := by
  have hkeys : run.admitted.values.map (fun i => i.record.id) = run.admitted.keys := by
    rw [Dict.values, Dict.keys, List.map_map]
    exact List.map_congr_left h.keyed
  rw [hkeys]
  exact run.admitted.nodup

/-! The candidates of a hop. -/

theorem searchViews_reached (text : String) (views : List String) (k : Int) :
    Yields (fun hits => ∀ h ∈ hits, Reached p 0 h.1) (p.searchViews query ctx text views k) := by
  rw [RecallPorts.searchViews]
  refine Keeps.foldlM (I := fun _ (hits : List (MemoryRecord × Rat)) =>
    ∀ h ∈ hits, Reached p 0 h.1) ?_ fun h hmem => by cases hmem
  intro hits view rest hhits
  cases viewType view with
  | none => exact Keeps.pure hhits
  | some t =>
    have hsearch : Yields (fun more => ∀ h ∈ more, Reached p 0 h.1)
        (p.search text ctx.scope [t] k query.asOf.isSome) :=
      Yields.of fun s more s' hmore h hmem => .hit hmore hmem
    exact hsearch.bind fun more hmore => Keeps.pure (List.forall_mem_append.2 ⟨hhits, hmore⟩)

theorem edgeRecords_reached (hq : Reached p n q) (hgraph : p.neighbors = some graph) {s s' : σ}
    (hedges : graph q.id scope asOf s = .ok edges s') :
    Yields (fun out => ∀ r ∈ out, Reached p (n + 1) r.1) (p.edgeRecords query ctx q.id edges) := by
  rw [RecallPorts.edgeRecords]
  refine (Keeps.foldlM (I := fun rest (out : List (MemoryRecord × MemoryEdge)) =>
    (∀ e ∈ rest, e ∈ edges) ∧ ∀ r ∈ out, Reached p (n + 1) r.1) ?_
      ⟨fun e he => he, fun r hr => by cases hr⟩).mono fun out h => h.2
  intro out edge rest ⟨hrest, hout⟩
  obtain ⟨hedge, hrest⟩ := List.forall_mem_cons.1 hrest
  split
  · exact Keeps.pure ⟨hrest, hout⟩
  · have hget : Yields (fun record => ∀ r, record = some r → Reached p (n + 1) r)
        (p.get (edge.other q.id) ctx.scope) := by
      apply Yields.of
      intro t record t' hget r hr
      rw [hr] at hget
      exact .edge hq hgraph hedges hedge hget
    refine hget.bind fun record hrecord => ?_
    cases record with
    | none => exact Keeps.pure ⟨hrest, hout⟩
    | some r =>
      apply Keeps.pure
      apply And.intro hrest
      exact List.forall_mem_append.2 ⟨hout, List.forall_mem_singleton.2 (hrecord r rfl)⟩

theorem neighborRecords_reached {seeds : List RecalledItem}
    (hseeds : ∀ i ∈ seeds, ∃ n < hop, Reached p n i.record) :
    Yields (fun out => ∀ r ∈ out, ∃ n < hop + 1, Reached p n r.1)
      (p.neighborRecords query ctx seeds) := by
  rw [RecallPorts.neighborRecords]
  split
  · exact Keeps.pure fun r hr => by cases hr
  next graph hgraph =>
    refine (Keeps.foldlM (I := fun rest (out : List (MemoryRecord × MemoryEdge)) =>
      (∀ i ∈ rest, ∃ n < hop, Reached p n i.record) ∧
        ∀ r ∈ out, ∃ n < hop + 1, Reached p n r.1) ?_
        ⟨hseeds, fun r hr => by cases hr⟩).mono fun out h => h.2
    intro out seed rest ⟨hrest, hout⟩
    obtain ⟨⟨n, hn, hseed⟩, hrest⟩ := List.forall_mem_cons.1 hrest
    have hedges : Yields (fun edges => Yields (fun more => ∀ r ∈ more, Reached p (n + 1) r.1)
          (p.edgeRecords query ctx seed.record.id edges))
        (tryCatch (graph seed.record.id ctx.scope query.asOf) fun _ => pure []) := by
      apply Yields.tryCatch
      · exact Yields.of fun s edges s' h => edgeRecords_reached hseed hgraph h
      · exact fun e => Keeps.pure (Keeps.pure fun r hr => by cases hr)
    refine hedges.bind fun edges hmore => hmore.bind fun more hmore => Keeps.pure ⟨hrest, ?_⟩
    have hfar : ∀ r ∈ more, ∃ n < hop + 1, Reached p n r.1 :=
      fun r hr => ⟨n + 1, Nat.succ_lt_succ hn, hmore r hr⟩
    exact List.forall_mem_append.2 ⟨hout, hfar⟩

def Collected (p : RecallPorts ε σ) (ctx : MemoryContext) (run : RecallRun) (hop : Nat)
    (found : Dict String Candidate) : Prop :=
  ∀ e ∈ found.entries, e.2.record.id = e.1 ∧ e.1 ∉ run.seen ∧
    ctx.scope.covers e.2.record.scope = true ∧ ∃ n < hop, Reached p n e.2.record

theorem Collected.set (h : Collected p ctx run hop found) {c : Candidate}
    (hfresh : RecallPorts.fresh ctx run c.record = true) (hr : ∃ n < hop, Reached p n c.record) :
    Collected p ctx run hop (found.set c.record.id c) := by
  intro e he
  cases Dict.mem_entries_set he with
  | inl heq =>
    rw [RecallPorts.fresh, Bool.and_eq_true, decide_eq_true_eq] at hfresh
    rw [heq]
    exact ⟨rfl, hfresh.1, hfresh.2, hr⟩
  | inr he => exact h e he

theorem Collected.addHit (h : Collected p ctx run hop found) (hr : ∃ n < hop, Reached p n hit.1) :
    Collected p ctx run hop (RecallPorts.addHit ctx run found hit) := by
  rw [RecallPorts.addHit]
  split
  · exact h
  next hfresh =>
    split
    · exact h.set (c := ⟨hit.1, _, _⟩) (Bool.eq_true_of_not_eq_false hfresh) hr
    · exact h

theorem Collected.addNeighbor (h : Collected p ctx run hop found)
    (hr : ∃ n < hop, Reached p n neighbor.1) :
    Collected p ctx run hop (RecallPorts.addNeighbor ctx run found neighbor) := by
  rw [RecallPorts.addNeighbor]
  split
  · exact h
  next hfresh => exact h.set (c := ⟨neighbor.1, _, _⟩) (Bool.eq_true_of_not_eq_false hfresh) hr

theorem asOfVisible_current (r : MemoryRecord) :
    Yields (fun visible => visible = true → query.asOf = none → r.supersededBy = none)
      (p.asOfVisible query ctx r) := by
  rw [RecallPorts.asOfVisible]
  cases query.asOf with
  | none => exact Keeps.pure fun h _ => Option.isNone_iff_eq_none.1 h
  | some asOf => exact Yields.of fun s a s' h htrue hnone => by cases hnone

theorem candidates_allowed (h : Held p query ctx budget hop run) (views : List String) :
    Yields (fun cs => (cs.map fun c => c.record.id).Nodup ∧ ∀ c ∈ cs,
        c.record.id ∉ run.seen ∧ Allowed p query ctx (hop + 1) c.record)
      (p.candidates policy query ctx (hop + 1) views run) := by
  have hprevious : ∀ i ∈ run.previous, ∃ n < hop, Reached p n i.record :=
    fun i hi => (h.allowed i (h.previous i hi)).reached
  have hneighbors : Yields (fun out => ∀ r ∈ out, ∃ n < hop + 1, Reached p n r.1)
      (p.linkedRecords query ctx views run) := by
    rw [RecallPorts.linkedRecords]
    split
    · exact neighborRecords_reached hprevious
    · exact Keeps.pure fun r hr => by cases hr
  rw [RecallPorts.candidates]
  refine (searchViews_reached _ _ _).bind fun hits hhits => hneighbors.bind fun out hout => ?_
  have hfound : Collected p ctx run (hop + 1) (out.foldl (RecallPorts.addNeighbor ctx run)
      (hits.foldl (RecallPorts.addHit ctx run) ∅)) := by
    apply List.foldlRecOn
    · apply List.foldlRecOn
      · intro e he
        cases he
      · exact fun found hfound hit hmem =>
          hfound.addHit ⟨0, Nat.succ_pos hop, hhits hit hmem⟩
    · exact fun found hfound r hmem => hfound.addNeighbor (hout r hmem)
  generalize out.foldl (RecallPorts.addNeighbor ctx run) _ = found at hfound
  refine (Keeps.foldlM (I := fun rest (kept : List Candidate) =>
    (kept ++ rest).Sublist found.values ∧
      ∀ c ∈ kept, query.asOf = none → c.record.supersededBy = none) ?_
      ⟨List.Sublist.refl _, fun c hc => by cases hc⟩).mono ?_
  · intro kept c rest ⟨hsub, hkept⟩
    refine (asOfVisible_current c.record).bind fun visible hvisible => Keeps.pure ?_
    split
    next htrue =>
      apply And.intro
      · rw [List.append_assoc]
        exact hsub
      · exact List.forall_mem_append.2 ⟨hkept, List.forall_mem_singleton.2 (hvisible htrue)⟩
    · exact ⟨((List.sublist_cons_self c rest).append_left kept).trans hsub, hkept⟩
  · intro cs ⟨hsub, hcurrent⟩
    rw [List.append_nil] at hsub
    have hkeys : found.values.map (fun c => c.record.id) = found.keys := by
      rw [Dict.values, Dict.keys, List.map_map]
      exact List.map_congr_left fun e he => (hfound e he).1
    apply And.intro
    · have hnodup := (hsub.map fun c => c.record.id).nodup (by rw [hkeys]; exact found.nodup)
      exact hnodup
    · intro c hc
      obtain ⟨e, he, rfl⟩ := List.mem_map.1 (hsub.subset hc)
      obtain ⟨hid, hseen, hcovered, hreached⟩ := hfound e he
      rw [hid]
      exact ⟨hseen, hcovered, hcurrent _ hc, hreached⟩

/-! The admission of the ranked candidates. -/

theorem scored_candidates (h : p.scored policy now cs = .ok ranked) :
    (ranked.map Prod.snd).Perm (cs.map Candidate.record) := by
  obtain ⟨scores, hscores, h⟩ := except_bind_ok h
  have hrecords : scores.map Prod.snd = cs.map Candidate.record := by
    refine map_of_mapM_ok (fun c score hc => ?_) hscores
    obtain ⟨value, -, hc⟩ := except_bind_ok hc
    rw [except_pure_ok hc]
  rw [except_pure_ok h, ← hrecords]
  exact (perm_sortBy _ scores).map Prod.snd

theorem Held.admitStep (h : Held p query ctx budget hop run)
    (hnew : x.2.id ∉ run.admitted) (hx : Allowed p query ctx hop x.2)
    (hstep : p.admitStep budget (run, overflow) x = .ok (run', overflow')) :
    Held p query ctx budget hop run' ∧ ∀ k ∈ run'.admitted, k ∈ run.admitted ∨ k = x.2.id := by
  obtain ⟨cost, hcost, hstep⟩ := except_bind_ok hstep
  split at hstep
  · cases hstep
    exact ⟨{ h with seen := fun k hk => List.mem_cons_of_mem _ (h.seen k hk) },
      fun k hk => Or.inl hk⟩
  next hfits =>
    cases hstep
    have hvalues := Dict.values_set_new hnew
      ({ record := x.2, score := x.1, tokens := cost } : RecalledItem)
    refine ⟨⟨?_, ?_, ?_, ?_, ?_, ?_, ?_⟩, ?_⟩
    · rw [hvalues, List.map_append, List.sum_append, ← h.spent]
      rfl
    · exact (not_lt.1 hfits).trans (Int.le_max_left _ _)
    · intro e he
      cases Dict.mem_entries_set he with
      | inl heq =>
        rw [heq]
      | inr he => exact h.keyed e he
    · intro k hk
      cases (Dict.mem_set _).1 hk with
      | inl heq =>
        rw [heq]
        exact List.mem_cons_self
      | inr hk => exact List.mem_cons_of_mem _ (h.seen k hk)
    · rw [hvalues]
      exact List.forall_mem_append.2 ⟨h.cost, List.forall_mem_singleton.2 hcost⟩
    · rw [hvalues]
      exact List.forall_mem_append.2 ⟨h.allowed, List.forall_mem_singleton.2 hx⟩
    · rw [hvalues]
      intro i hi
      cases List.mem_append.1 hi with
      | inl hi => exact List.mem_append_left _ (h.previous i hi)
      | inr hi => exact List.mem_append_right _ hi
    · intro k hk
      exact ((Dict.mem_set _).1 hk).symm

theorem Held.admission {ranked : List (Rat × MemoryRecord)} (h : Held p query ctx budget hop run)
    (hids : (ranked.map fun x => x.2.id).Nodup) (hnew : ∀ x ∈ ranked, x.2.id ∉ run.admitted)
    (hranked : ∀ x ∈ ranked, Allowed p query ctx hop x.2)
    (hfold : ranked.foldlM (p.admitStep budget) (run, overflow) = .ok (run', overflow')) :
    Held p query ctx budget hop run' := by
  induction ranked generalizing run overflow with
  | nil =>
    cases hfold
    exact h
  | cons x ranked ih =>
    rw [List.foldlM_cons] at hfold
    obtain ⟨⟨run₁, overflow₁⟩, hstep, hfold⟩ := except_bind_ok hfold
    obtain ⟨hx, hranked⟩ := List.forall_mem_cons.1 hranked
    obtain ⟨hxnew, hnew⟩ := List.forall_mem_cons.1 hnew
    rw [List.map_cons, List.nodup_cons] at hids
    obtain ⟨hheld, hkeys⟩ := h.admitStep hxnew hx hstep
    refine ih hheld hids.2 ?_ hranked hfold
    intro y hy hmem
    cases hkeys _ hmem with
    | inl hold => exact hnew y hy hold
    | inr heq => exact hids.1 (heq ▸ List.mem_map_of_mem (f := fun x => x.2.id) hy)

theorem hops_held (left : Nat) (h : Held p query ctx budget hop run) (views : List String) :
    Yields (fun r => Held p query ctx budget (hop + left) r.1)
      (p.hops policy query ctx budget now views left hop run) := by
  induction left generalizing hop run with
  | zero => exact Keeps.pure h
  | succ left ih =>
    have hle : hop + 1 ≤ hop + (left + 1) := by omega
    rw [RecallPorts.hops]
    refine (candidates_allowed h views).bind fun cs hcs => ?_
    split
    · exact Keeps.pure (h.mono (Nat.le_add_right hop (left + 1)))
    · have hscored : Yields (fun ranked : List (Rat × MemoryRecord) =>
          (ranked.map fun x => x.2.id).Nodup ∧ (∀ x ∈ ranked, x.2.id ∉ run.admitted) ∧
            ∀ x ∈ ranked, Allowed p query ctx (hop + 1) x.2)
          (MonadExcept.ofExcept (p.scored policy now cs) : EStateM ε σ _) := by
        apply Keeps.ofExcept
        intro ranked hranked
        have hperm := scored_candidates hranked
        have hmem : ∀ x ∈ ranked, ∃ c ∈ cs, c.record = x.2 := fun x hx =>
          List.mem_map.1 (hperm.mem_iff.1 (List.mem_map_of_mem hx))
        refine ⟨?_, ?_, ?_⟩
        · have hids := hperm.map MemoryRecord.id
          rw [List.map_map, List.map_map] at hids
          exact hids.nodup_iff.2 hcs.1
        · intro x hx hmem'
          obtain ⟨c, hc, heq⟩ := hmem x hx
          exact (hcs.2 c hc).1 (heq ▸ h.seen _ hmem')
        · intro x hx
          obtain ⟨c, hc, heq⟩ := hmem x hx
          exact heq ▸ (hcs.2 c hc).2
      refine hscored.bind fun ranked ⟨hids, hnew, hallowed⟩ => ?_
      have hdone : Yields (fun r : RecallRun × Bool => Held p query ctx budget (hop + 1) r.1)
          (MonadExcept.ofExcept (ranked.foldlM (p.admitStep budget)
            ({ run with previous := [] }, false)) : EStateM ε σ _) :=
        Keeps.ofExcept fun r hr =>
          (h.mono (Nat.le_succ hop)).reset.admission hids hnew hallowed hr
      refine hdone.bind fun r hr => ?_
      obtain ⟨run', overflow⟩ := r
      cases overflow with
      | true => exact Keeps.pure (hr.mono hle)
      | false =>
        have hany : Yields (fun _ => True) (p.sufficiency policy query run'.admitted.values) :=
          Yields.of fun _ _ _ _ => trivial
        refine hany.bind fun verdict _ => ?_
        cases verdict with
        | some verdict => exact Keeps.pure (hr.mono hle)
        | none =>
          have hrest := ih hr
          rw [Nat.add_right_comm] at hrest
          exact hrest

/-- What is promised of a recall. The costs are within the budget, where that is not negative. -/
structure Recalled (p : RecallPorts ε σ) (policy : RecallPolicy) (query : RecallQuery)
    (ctx : MemoryContext) (budget : Int) (result : RecallResult) : Prop where
  within : ((result.items.map RecalledItem.tokens).sum : Int) ≤ max budget 0
  rendered : result.tokens = estimateTokens result.rendered ∧ (result.tokens : Int) ≤ max budget 0
  shown : ∀ i ∈ result.items, Shown p.formats result.rendered i.record
  distinct : (result.items.map fun i => i.record.id).Nodup
  covered : ∀ i ∈ result.items, ctx.scope.covers i.record.scope = true
  current : query.asOf = none → ∀ i ∈ result.items, i.record.supersededBy = none
  reached : ∀ i ∈ result.items, ∃ n : Nat, (n : Int) < policy.maxHops ∧ Reached p n i.record

/-- What a recall returns, whatever the backend, the graph and the decisions answer. -/
theorem run_recalled (p : RecallPorts ε σ) (policy : RecallPolicy) (query : RecallQuery)
    (ctx : MemoryContext) (budget : Int) (s : σ) :
    Ends (fun result _ => Recalled p policy query ctx budget result) (fun _ _ => True)
      (p.run policy query ctx budget s) := by
  have hrun : Yields (Recalled p policy query ctx budget) (p.run policy query ctx budget) := by
    have hany {α : Type} (m : EStateM ε σ α) : Yields (fun _ => True) m :=
      Yields.of fun _ _ _ _ => trivial
    rw [RecallPorts.run]
    refine (hany _).bind fun views _ => (hany _).bind fun now _ => ?_
    refine (hops_held policy.maxHops.toNat Held.start views).bind fun r hr => ?_
    obtain ⟨run, stop, hop⟩ := r
    have hrendered : Yields (fun r : String × Nat =>
        renderItems p.formats run.admitted.values budget = .ok r)
        (MonadExcept.ofExcept (renderItems p.formats run.admitted.values budget) :
          EStateM ε σ _) :=
      Keeps.ofExcept fun _ h => h
    refine hrendered.bind fun r hrender => Keeps.pure ?_
    obtain ⟨rendered, tokens⟩ := r
    have hwithin : ((run.admitted.values.map RecalledItem.tokens).sum : Int) ≤ max budget 0 := by
      rw [← hr.spent]
      exact hr.within
    refine ⟨hwithin, renderItems_within hrender, ?_, hr.distinct, ?_, ?_, ?_⟩
    · exact fun i hi => renderItems_shows hr.cost hwithin hrender hi
    · exact fun i hi => (hr.allowed i hi).covered
    · exact fun hnow i hi => (hr.allowed i hi).current hnow
    · intro i hi
      obtain ⟨n, hn, hreached⟩ := (hr.allowed i hi).reached
      exact ⟨n, by omega, hreached⟩
  cases h : p.run policy query ctx budget s with
  | ok result s' => exact hrun.elim h
  | error e s' => trivial

def emptyPorts : RecallPorts Unit Unit where
  decisions := none
  search _ _ _ _ _ := pure []
  get _ _ := pure none
  neighbors := none
  clock := pure 0
  tables := ⟨id, id, fun _ => [], fun _ => false, id, fun _ => ""⟩
  formats := ⟨fun _ => .error (), fun _ => ""⟩
  decay _ _ := .ok 1
  valueError := ()

/-- Nothing costs more than a budget below zero. -/
theorem empty_exceeds : ¬ ∀ (p : RecallPorts Unit Unit) (policy : RecallPolicy)
    (query : RecallQuery) (ctx : MemoryContext) (budget : Int) (s : Unit),
    Ends (fun result _ => ((result.items.map RecalledItem.tokens).sum : Int) ≤ budget)
      (fun _ _ => True) (p.run policy query ctx budget s) := by
  intro hall
  have hle := hall emptyPorts {} { text := "tea" }
    { scope := { orgId := "acme", nonEmpty := by decide }, sessionId := "s", actor := "a" } (-1) ()
  change ((0 : Nat) : Int) ≤ -1 at hle
  omega

end Prismal.Memory
