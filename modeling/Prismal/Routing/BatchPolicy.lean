import Prismal.Routing.BatchFeasible
import Prismal.Routing.Types

namespace Prismal.Routing
open Prismal.Lib
set_option autoImplicit true

structure BatchItem where
  itemId : String
  features : TaskFeatures

inductive Solver where
  | dual
  | greedy
  | maxAccuracy
  deriving DecidableEq, Repr

/-- The solved assignment; `some none` is an infinite gap. -/
structure BatchAssignment where
  choices : Dict String ModelChoice
  predictedMeanAccuracy : Rat
  predictedCostUsd : Rat
  feasible : Bool
  solver : Solver
  iterations : Nat
  dualityGap : Option (Option Rat)
  waves : Nat

/-- A candidate model; `auto` tiers are never candidates. -/
structure Candidate where
  ref : String
  tier : ModelTier
  ordered : tier ≠ .auto

/-- What a policy is constructed with; predictor, price and data policy may raise. -/
structure BatchConfig where
  candidates : List String
  tierOf : String → Except Exn String
  floor : Dict String String
  capabilities : Dict String (List String)
  eligibleFn : Option (TaskFeatures → String → Except Exn Bool)
  pSuccess : TaskFeatures → String → Except Exn Rat
  expectedOutputTokens : TaskFeatures → String → Except Exn Int
  price : String → Int → Int → Except Exn Rat
  modelConcurrency : Dict String Int
  parallelMaxWorkers : Int
  batchAlpha : Rat
  batchMaxIter : Nat
  batchEps : Rat
  sqrt : Nat → Rat

structure BatchPolicy where
  config : BatchConfig
  candidates : List Candidate
  floor : Dict String ModelTier
  nonempty : candidates ≠ []
  distinct : (candidates.map Candidate.ref).Nodup

def safeTier (cfg : BatchConfig) (ref : String) : Option ModelTier :=
  match cfg.tierOf ref with
  | .ok t => (ModelTier.ofValue t).toOption
  | .error _ => none

def candidate (cfg : BatchConfig) (ref : String) : Option Candidate :=
  match safeTier cfg ref with
  | none => none
  | some tier => if h : tier = .auto then none else some ⟨ref, tier, h⟩

def sortedCandidates (cfg : BatchConfig) : List Candidate :=
  (cfg.candidates.dedup.insertionSort (· ≤ ·)).filterMap (candidate cfg)

theorem candidate_ref (h : candidate cfg ref = some c) : c.ref = ref := by
  unfold candidate at h
  split at h
  · cases h
  · split at h
    · cases h
    · cases h
      rfl

theorem sortedCandidates_distinct (cfg : BatchConfig) :
    ((sortedCandidates cfg).map Candidate.ref).Nodup := by
  have hn : (cfg.candidates.dedup.insertionSort (· ≤ ·)).Nodup :=
    (List.perm_insertionSort _ _).nodup_iff.2 (List.nodup_dedup _)
  rw [sortedCandidates]
  generalize cfg.candidates.dedup.insertionSort (· ≤ ·) = refs at hn
  induction refs with
  | nil => exact List.nodup_nil
  | cons ref refs ih =>
    rw [List.nodup_cons] at hn
    rw [List.filterMap_cons]
    split
    · exact ih hn.2
    next c hc =>
      rw [List.map_cons, List.nodup_cons, candidate_ref hc]
      refine ⟨fun hm => hn.1 ?_, ih hn.2⟩
      obtain ⟨d, hd, hr⟩ := List.mem_map.1 hm
      obtain ⟨ref', hm', hd'⟩ := List.mem_filterMap.1 hd
      rwa [← hr, candidate_ref hd']

/-- `{risk: ModelTier(t)}` of the configured floors, none of which may be `auto`. -/
def parseFloor (raw : List (String × String)) : Except Exn (List (String × ModelTier)) :=
  raw.mapM fun e => do
    let tier ← ModelTier.ofValue e.2
    return (e.1, tier)

def BatchPolicy.make (cfg : BatchConfig) : Except Exn BatchPolicy := do
  if h : sortedCandidates cfg = [] then
    throw ⟨"RoutingConfigError",
      "BatchAssignmentPolicy has no candidate with a known, ordered (non-auto) tier."⟩
  else
    let floor ← match parseFloor cfg.floor.entries with
      | .ok floor => pure floor
      | .error _ => throw ⟨"RoutingConfigError", "invalid risk floor"⟩
    if floor.any fun e => e.2 = .auto then
      throw ⟨"RoutingConfigError", "'auto' is never a risk floor"⟩
    return ⟨cfg, sortedCandidates cfg, Dict.collect floor, h, sortedCandidates_distinct cfg⟩

namespace BatchPolicy

variable (policy : BatchPolicy)

def needed (f : TaskFeatures) : List String :=
  (if f.needsTools then ["tools"] else []) ++
    if f.needsStructuredOutput then ["structured_output"] else []

def meetsFloor (f : TaskFeatures) (c : Candidate) : Except Exn Bool :=
  match policy.floor.get? f.riskTier.value with
  | none => .ok true
  | some floor => tierAtLeast c.tier floor

def hasCapabilities (f : TaskFeatures) (c : Candidate) : Bool :=
  (needed f).all fun cap => cap ∈ (policy.config.capabilities.get? c.tier.value).getD []

def eligible (f : TaskFeatures) (c : Candidate) : Except Exn Bool := do
  if ← policy.meetsFloor f c then
    if policy.hasCapabilities f c then
      match policy.config.eligibleFn with
      | none => return true
      | some fn =>
        match fn f c.ref with
        | .ok b => return b
        | .error _ => return false
    else return false
  else return false

def cap (ref : String) (concurrency : Option (Dict String Int)) : Nat :=
  match concurrency.bind fun d => d.get? ref with
  | some c => c.toNat
  | none => ((policy.config.modelConcurrency.get? ref).getD policy.config.parallelMaxWorkers).toNat

/-- What the policy knows of an item on a model: ineligible, or its accuracy and raw cost. -/
structure Cell where
  ok : Bool
  acc : Rat
  raw : Rat

def cell (f : TaskFeatures) (c : Candidate) (ok : Bool) : Except Exn Cell :=
  if ok then do
    let p ← policy.config.pSuccess f c.ref
    let out ← policy.config.expectedOutputTokens f c.ref
    let price ← policy.config.price c.ref f.estInputTokens out
    return ⟨true, min 1 (max 0 p), max 0 price⟩
  else return ⟨false, 0, 0⟩

def cells (f : TaskFeatures) : List Candidate → List Bool → Except Exn (List Cell)
  | c :: cs, ok :: oks => do
    let first ← policy.cell f c ok
    let rest ← cells f cs oks
    return first :: rest
  | _, _ => pure []

def quote (item : BatchItem) : Except Exn (Option (BatchItem × List Cell)) := do
  let mask ← policy.candidates.mapM (policy.eligible item.features)
  if mask.any id then
    let row ← policy.cells item.features policy.candidates mask
    return some (item, row)
  else return none

def quotes : List BatchItem → Except Exn (List (BatchItem × List Cell))
  | [] => pure []
  | item :: items => do
    let first ← policy.quote item
    let rest ← quotes items
    return first.toList ++ rest

def cellAt (qs : List (BatchItem × List Cell)) (i : Fin qs.length) (j : Nat) : Cell :=
  (qs.get i).2.getD j ⟨false, 0, 0⟩

def cmax (qs : List (BatchItem × List Cell)) : Rat :=
  (qs.flatMap Prod.snd).foldl (fun a c => max a c.raw) 0

/-- The solvers' problem: normalised costs, accuracies, caps scaled by the waves, and the mask. -/
def problem (qs : List (BatchItem × List Cell)) (caps : Fin policy.candidates.length → Nat) :
    Problem qs.length policy.candidates.length where
  cost i j := if 0 < cmax qs then (cellAt qs i j).raw / cmax qs else 0
  acc i j := (cellAt qs i j).acc
  caps := caps
  eligible := some fun i j => (cellAt qs i j).ok

/-- The outcome of the solver cascade; `none` is an unroutable item. -/
structure Solved (n k : Nat) where
  x : Fin n → Option (Fin k)
  solver : Solver
  iterations : Nat
  gap : Option (Option Rat)
  reached : Bool

def solve (P : Problem n k) (target : Rat) (p : DualParams) : Solved n k :=
  let dual := solveDual P target p
  match dual.1 with
  | some x => ⟨fun i => some (x i), .dual, dual.2.1, some dual.2.2, true⟩
  | none =>
    if n = 0 then ⟨fun _ => none, .dual, dual.2.1, some dual.2.2, true⟩
    else
      match solveGreedy P target with
      | (some x, true) => ⟨fun i => some (x i), .greedy, dual.2.1, none, true⟩
      | _ => ⟨maxAccuracy P, .maxAccuracy, dual.2.1, none, false⟩

def choice (c : Candidate) : ModelChoice :=
  { modelRef := c.ref, tier := c.tier, reason := "batch", policy := "batch" }

def report (qs : List (BatchItem × List Cell)) (r : Solved qs.length policy.candidates.length)
    (allRouted : Bool) (waves : Nat) : BatchAssignment :=
  let picks := (List.finRange qs.length).filterMap fun i => (r.x i).map fun j => (i, j)
  let choices := Dict.collect (picks.map fun p =>
    ((qs.get p.1).1.itemId, choice (policy.candidates.get p.2)))
  let totalAcc := (picks.map fun p => (cellAt qs p.1 p.2).acc).sum
  { choices := choices
    predictedMeanAccuracy :=
      if choices.entries.isEmpty then 0 else totalAcc / choices.entries.length
    predictedCostUsd := (picks.map fun p => (cellAt qs p.1 p.2).raw).sum
    feasible := r.reached && allRouted && decide (∀ i, (r.x i).isSome)
    solver := r.solver
    iterations := r.iterations
    dualityGap := r.gap
    waves := waves }

def sortItems (items : List BatchItem) : List BatchItem :=
  items.insertionSort fun a b => a.itemId ≤ b.itemId

def wavesFor (items total : Nat) : Nat := max 1 ⌈(items : Rat) / total⌉₊

def totalCap (concurrency : Option (Dict String Int)) : Nat :=
  (policy.candidates.map fun c => policy.cap c.ref concurrency).sum

def infeasible : BatchAssignment :=
  { choices := ∅
    predictedMeanAccuracy := 0
    predictedCostUsd := 0
    feasible := false
    solver := .maxAccuracy
    iterations := 0
    dualityGap := none
    waves := 1 }

/-- `_assign` -/
def assignBatch (items : List BatchItem) (alpha : Option Rat)
    (concurrency : Option (Dict String Int)) : Except Exn BatchAssignment := do
  let target := alpha.getD policy.config.batchAlpha
  let ordered := sortItems items
  if ordered.isEmpty then
    return { infeasible with feasible := true, solver := .dual, dualityGap := some (some 0) }
  else if policy.totalCap concurrency = 0 then return infeasible
  else
    let waves := wavesFor ordered.length (policy.totalCap concurrency)
    let qs ← policy.quotes ordered
    let P := policy.problem qs fun j =>
      policy.cap (policy.candidates.get j).ref concurrency * waves
    let r := solve P target ⟨policy.config.batchMaxIter, 1, policy.config.batchEps,
      policy.config.sqrt⟩
    return policy.report qs r (qs.length = ordered.length) waves

def assign (items : List BatchItem) (alpha : Option Rat) (concurrency : Option (Dict String Int)) :
    BatchAssignment :=
  match policy.assignBatch items alpha concurrency with
  | .ok r => r
  | .error _ => infeasible

end BatchPolicy

end Prismal.Routing
