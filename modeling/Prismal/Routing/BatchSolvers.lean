import Mathlib.Algebra.Order.Floor.Semiring
import Mathlib.Data.Rat.Floor
import Prismal.Lib.Assignment
import Prismal.Lib.Lists

namespace Prismal.Routing
open Prismal.Lib Function
set_option autoImplicit true

/-- An eligible model of an item, with the cost and the accuracy it has there. -/
structure Entry (k : Nat) where
  cost : Rat
  model : Fin k
  acc : Rat

/-- Cost and accuracy matrices, eligibility mask and caps of a batch. -/
structure Problem (n k : Nat) where
  cost : Fin n → Fin k → Rat
  acc : Fin n → Fin k → Rat
  caps : Fin k → Nat
  eligible : Option (Fin n → Fin k → Bool)

abbrev Assignment (n k : Nat) := Fin n → Fin k

def tol : Rat := 1 / 10 ^ 9

namespace Problem

variable {n k : Nat} (P : Problem n k)

def allows (i : Fin n) (j : Fin k) : Bool := P.eligible.elim true fun mask => mask i j

def rows (i : Fin n) : List (Entry k) :=
  (((List.finRange k).filter (P.allows i)).map fun j => ⟨P.cost i j, j, P.acc i j⟩).insertionSort
    fun e f => e.cost < f.cost ∨ (e.cost = f.cost ∧ e.model ≤ f.model)

def assignmentCost (x : Assignment n k) : Rat := totalOf P.cost x

end Problem

structure Move (n k : Nat) where
  key : Rat
  item : Fin n
  model : Fin k

/-- Tuple order of `(key, item, model)`. -/
def Move.lt (a b : Move n k) : Bool :=
  a.key < b.key ∨ (a.key = b.key ∧ (a.item < b.item ∨ (a.item = b.item ∧ a.model < b.model)))

/-- An assignment with the model counts and the total accuracy that the solvers keep beside it. -/
structure Work (n k : Nat) where
  x : Assignment n k
  count : Fin k → Nat
  total : Rat

def Work.start (P : Problem n k) (x : Assignment n k) : Work n k := ⟨x, load x, totalOf P.acc x⟩

def Work.move (P : Problem n k) (w : Work n k) (i : Fin n) (j : Fin k) : Work n k where
  x := update w.x i j
  count := shiftLoad w.count (w.x i) j
  total := w.total - P.acc i (w.x i) + P.acc i j

/-! `_polish` -/

def savings (P : Problem n k) (need : Rat) (w : Work n k) (i : Fin n) : List (Move n k) :=
  let ci := P.cost i (w.x i)
  (((P.rows i).takeWhile fun e => ¬ ci - tol ≤ e.cost).filter fun e =>
    ¬ (P.caps e.model ≤ w.count e.model ∨ w.total - P.acc i (w.x i) + e.acc < need - tol)).map
      fun e => ⟨e.cost - ci, i, e.model⟩

def bestSaving (P : Problem n k) (need : Rat) (w : Work n k) : Option (Move n k) :=
  pickMin Move.lt ((List.finRange n).flatMap (savings P need w))

def polishLoop (P : Problem n k) (need : Rat) : Nat → Work n k → Work n k
  | 0, w => w
  | fuel + 1, w =>
    match bestSaving P need w with
    | none => w
    | some m => polishLoop P need fuel (w.move P m.item m.model)

/-- Entries cheaper than the current ones: every move of `_polish` lowers their number. -/
def cheaper (P : Problem n k) (x : Assignment n k) : Nat :=
  ∑ i, (P.rows i).countP fun e => e.cost < P.cost i (x i)

def polish (P : Problem n k) (need : Rat) (x : Assignment n k) : Assignment n k :=
  (polishLoop P need (cheaper P x) (Work.start P x)).x

/-! `_upgrade` -/

/-- A queued upgrade of an item, by its negated ratio (`none` for minus infinity). -/
structure HeapEntry (n k : Nat) where
  negRatio : Option Rat
  item : Fin n
  model : Fin k
  source : Fin k
  tried : Bool

def negRatioLt : Option Rat → Option Rat → Bool
  | none, some _ => true
  | some a, some b => a < b
  | _, none => false

def HeapEntry.le (a b : HeapEntry n k) : Bool :=
  negRatioLt a.negRatio b.negRatio ∨ (a.negRatio = b.negRatio ∧
    (a.item < b.item ∨ (a.item = b.item ∧
      (a.model < b.model ∨ (a.model = b.model ∧
        (a.source < b.source ∨ (a.source = b.source ∧ (a.tried ≤ b.tried))))))))

/-- The state of `_upgrade`; the heap is the sorted list of its entries. -/
structure Upgrade (n k : Nat) where
  x : Assignment n k
  members : Fin k → Finset (Fin n)
  total : Rat
  heap : List (HeapEntry n k)
  parked : Fin k → List (HeapEntry n k)

def heappush (heap : List (HeapEntry n k)) (e : HeapEntry n k) : List (HeapEntry n k) :=
  heap.orderedInsert (fun a b => a.le b) e

def upgrades (P : Problem n k) (x : Assignment n k) (i : Fin n) : List (HeapEntry n k) :=
  let cur := x i
  ((P.rows i).filter fun e => P.acc i cur + tol < e.acc).map fun e =>
    let dc := e.cost - P.cost i cur
    ⟨if dc ≤ tol then none else some (-((e.acc - P.acc i cur) / dc)), i, e.model, cur, false⟩

def Upgrade.push (P : Problem n k) (u : Upgrade n k) (i : Fin n) : Upgrade n k :=
  { u with heap := (upgrades P u.x i).foldl heappush u.heap }

def Upgrade.move (u : Upgrade n k) (i : Fin n) (j : Fin k) (frees : Bool) : Upgrade n k :=
  let old := u.x i
  { u with
    members := shiftFiber u.members i old j
    heap := if frees then (u.parked old).foldl heappush u.heap else u.heap
    parked := if frees then update u.parked old [] else u.parked
    x := update u.x i j }

def Upgrade.park (u : Upgrade n k) (e : HeapEntry n k) : Upgrade n k :=
  { u with parked := update u.parked e.model (u.parked e.model ++ [e]) }

/-- The accuracy that an exchange of item `i` with item `h` gains. -/
def exchangeGain (P : Problem n k) (e : HeapEntry n k) (h : Fin n) : Rat :=
  P.acc e.item e.model - P.acc e.item e.source + P.acc h e.source - P.acc h e.model

/-- An exchange partner with its sort key `(-gain, cost, item)`. -/
structure Partner (n : Nat) where
  negGain : Rat
  cost : Rat
  item : Fin n

def Partner.lt (a b : Partner n) : Bool :=
  a.negGain < b.negGain ∨ (a.negGain = b.negGain ∧
    (a.cost < b.cost ∨ (a.cost = b.cost ∧ a.item < b.item)))

def partner (P : Problem n k) (u : Upgrade n k) (e : HeapEntry n k) : Option (Fin n) :=
  let candidates := (List.finRange n).filter fun h =>
    h ∈ u.members e.model ∧ P.allows h e.source ∧ tol < exchangeGain P e h
  (pickMin Partner.lt (candidates.map fun h =>
    ⟨-exchangeGain P e h, P.cost e.item e.model - P.cost e.item e.source + P.cost h e.source -
      P.cost h e.model, h⟩)).map Partner.item

def Upgrade.attempt (P : Problem n k) (u : Upgrade n k) (e : HeapEntry n k) :
    Bool × Upgrade n k :=
  if u.x e.item ≠ e.source then (false, u)
  else if (u.members e.model).card < P.caps e.model then
    (true, (({ u with total := u.total + (P.acc e.item e.model - P.acc e.item e.source) }).move
      e.item e.model true).push P e.item)
  else if e.tried then (false, u.park e)
  else
    match partner P u e with
    | none => (false, u.park { e with tried := true })
    | some h =>
      (true, (((({ u with total := u.total + exchangeGain P e h }).move h e.source false).move
        e.item e.model false).push P e.item).push P h)

def Upgrade.seek (P : Problem n k) (u : Upgrade n k) : List (HeapEntry n k) → Bool × Upgrade n k
  | [] => (false, { u with heap := [] })
  | e :: es =>
    match Upgrade.attempt P { u with heap := es } e with
    | (true, u') => (true, u')
    | (false, u') => Upgrade.seek P u' es

def upgradeLoop (P : Problem n k) (need : Rat) : Nat → Upgrade n k → Upgrade n k
  | 0, u => u
  | moves + 1, u =>
    if u.total < need - tol then
      match u.seek P u.heap with
      | (true, u') => upgradeLoop P need moves u'
      | (false, u') => u'
    else u

/-- A bound on the moves of `_upgrade`, each of which gains more than `tol`. -/
def moveBound (need total : Rat) : Nat := ⌈(need - total) / tol⌉₊

/-- The state `_upgrade` starts in: every improving upgrade of every item is queued. -/
def Upgrade.start (P : Problem n k) (x : Assignment n k) : Upgrade n k :=
  (List.finRange n).foldl (Upgrade.push P) ⟨x, fiber x, totalOf P.acc x, [], fun _ => []⟩

/-- Raise mean accuracy by single upgrades and exchanges; true when `need` is met. -/
def upgrade (P : Problem n k) (need : Rat) (x : Assignment n k) : Assignment n k × Bool :=
  let u := upgradeLoop P need (moveBound need (totalOf P.acc x)) (Upgrade.start P x)
  (u.x, need - tol ≤ u.total)

/-! `_sweep_polish` -/

def downgrades (P : Problem n k) (x : Assignment n k) : List (Move n k) :=
  ((List.finRange n).flatMap fun i =>
    let ci := P.cost i (x i) - tol
    ((P.rows i).takeWhile fun e => ¬ ci ≤ e.cost).map fun e => ⟨e.cost - ci, i, e.model⟩).insertionSort
      fun a b => ¬ b.lt a

def sweepStep (P : Problem n k) (need : Rat) (w : Work n k) (m : Move n k) : Work n k :=
  let cur := w.x m.item
  if P.cost m.item cur - tol ≤ P.cost m.item m.model ∨ P.caps m.model ≤ w.count m.model then w
  else if w.total - P.acc m.item cur + P.acc m.item m.model < need - tol then w
  else w.move P m.item m.model

def sweepPolish (P : Problem n k) (need : Rat) (x : Assignment n k) : Assignment n k :=
  ((downgrades P x).foldl (sweepStep P need) (Work.start P x)).x

/-! `_repair` -/

structure Multipliers (k : Nat) where
  lam : Rat
  mu : Fin k → Rat

def Multipliers.reduced (m : Multipliers k) (e : Entry k) : Rat :=
  e.cost - m.lam * e.acc + m.mu e.model

/-- An eligible model with room, with its reduced cost. -/
structure Room (k : Nat) where
  reduced : Rat
  cost : Rat
  model : Fin k

def Room.lt (a b : Room k) : Bool :=
  a.reduced < b.reduced ∨ (a.reduced = b.reduced ∧
    (a.cost < b.cost ∨ (a.cost = b.cost ∧ a.model < b.model)))

def cheapestRoom (P : Problem n k) (m : Multipliers k) (count : Fin k → Nat) (i : Fin n) :
    Option (Fin k) :=
  (pickMin Room.lt (((P.rows i).filter fun e => count e.model < P.caps e.model).map fun e =>
    ⟨m.reduced e, e.cost, e.model⟩)).map Room.model

def relieve (P : Problem n k) (m : Multipliers k) : List (Fin n) → Work n k → Option (Work n k)
  | [], w => some w
  | i :: is, w =>
    if w.count (w.x i) ≤ P.caps (w.x i) then relieve P m is w
    else
      match cheapestRoom P m w.count i with
      | none => none
      | some j => relieve P m is (w.move P i j)

def relieveOrder (P : Problem n k) (m : Multipliers k) (x : Assignment n k) : List (Fin n) :=
  let key := fun i => m.lam * P.acc i (x i) - P.cost i (x i)
  (List.finRange n).insertionSort fun i h => key i < key h ∨ (key i = key h ∧ i ≤ h)

def repairUpgrades (P : Problem n k) (m : Multipliers k) (x : Assignment n k) : List (Move n k) :=
  ((List.finRange n).flatMap fun i =>
    let a0 := P.acc i (x i)
    let r0 := P.cost i (x i) - m.lam * a0 + m.mu (x i)
    ((P.rows i).filter fun e => a0 + tol < e.acc).map fun e =>
      ⟨max (m.reduced e - r0) 0 / (e.acc - a0), i, e.model⟩).insertionSort fun a b => ¬ b.lt a

def raiseMoves (P : Problem n k) (need : Rat) :
    List (Move n k) → Finset (Fin n) → Work n k → Work n k
  | [], _, w => w
  | m :: ms, moved, w =>
    if need - tol ≤ w.total then w
    else if m.item ∈ moved ∨ P.caps m.model ≤ w.count m.model then raiseMoves P need ms moved w
    else raiseMoves P need ms (insert m.item moved) (w.move P m.item m.model)

def relieved (P : Problem n k) (m : Multipliers k) (x : Assignment n k) : Option (Work n k) :=
  let w := Work.start P x
  if ∀ j, w.count j ≤ P.caps j then some w else relieve P m (relieveOrder P m x) w

/-- Raise the accuracy to the floor, by the sorted upgrades first and then by `_upgrade`. -/
def raiseFloor (P : Problem n k) (need : Rat) (m : Multipliers k) (w : Work n k) :
    Option (Assignment n k) :=
  if w.total < need - tol then
    let w' := raiseMoves P need (repairUpgrades P m w.x) ∅ w
    if w'.total < need - tol then
      let u := upgrade P need w'.x
      if u.2 then some u.1 else none
    else some w'.x
  else some w.x

/-- Lagrangian-guided primal repair of an iterate; `none` when it fails. -/
def repair (P : Problem n k) (need : Rat) (m : Multipliers k) (x : Assignment n k) :
    Option (Assignment n k) :=
  (relieved P m x).bind fun w =>
    (raiseFloor P need m { w with total := totalOf P.acc w.x }).map (sweepPolish P need)

/-! `solve_dual` -/

def multiplierScale (P : Problem n k) : Rat :=
  let ratios := (List.finRange n).filterMap fun i =>
    match P.rows i with
    | [] => none
    | e :: es =>
      (pickMin (fun a b => b.acc < a.acc ∨ (a.acc = b.acc ∧
        (a.cost < b.cost ∨ (a.cost = b.cost ∧ a.model < b.model)))) (e :: es)).bind fun best =>
          if e.acc + tol < best.acc then some (max (best.cost - e.cost) 0 / (best.acc - e.acc))
          else none
  if ratios.isEmpty then 1
  else max ((ratios.insertionSort fun a b => a ≤ b).getD (ratios.length / 2) 0) (1 / 10 ^ 6)

structure Iterate (n k : Nat) where
  x : Assignment n k
  counts : Fin k → Nat
  totalA : Rat
  totalC : Rat
  dual : Rat

def leastReduced (m : Multipliers k) (row : List (Entry k)) (h : row ≠ []) : Entry k :=
  (pickMin (fun a b => m.reduced a < m.reduced b) row).get (pickMin_isSome h)

def Problem.Routable (P : Problem n k) : Prop := ∀ i, P.rows i ≠ []

instance (P : Problem n k) : Decidable P.Routable := by
  unfold Problem.Routable
  infer_instance

def lagrangianIterate (P : Problem n k) (h : P.Routable) (need : Rat) (m : Multipliers k) :
    Iterate n k :=
  let choice := fun i => leastReduced m (P.rows i) (h i)
  { x := fun i => (choice i).model
    counts := load fun i => (choice i).model
    totalA := ∑ i, (choice i).acc
    totalC := ∑ i, (choice i).cost
    dual := ∑ i, m.reduced (choice i) + (m.lam * need - ∑ j, m.mu j * P.caps j) }

def isSlackOptimal (P : Problem n k) (need : Rat) (m : Multipliers k) (it : Iterate n k) : Bool :=
  |m.lam * (it.totalA - need)| ≤ tol ∧
    ∀ j, |m.mu j * ((P.caps j : Rat) - it.counts j)| ≤ tol

/-- The projected subgradient with its largest component. -/
structure Subgradient (k : Nat) where
  lam : Rat
  mu : Fin k → Rat
  norm : Rat

def subgradient (P : Problem n k) (need : Rat) (m : Multipliers k) (it : Iterate n k) :
    Subgradient k :=
  let g := (need - it.totalA) / n
  let gLam := if m.lam ≤ 0 ∧ g < 0 then 0 else g
  let gMu := fun j =>
    if m.mu j ≤ 0 ∧ it.counts j < P.caps j then 0 else ((it.counts j : Rat) - P.caps j) / n
  ⟨gLam, gMu, (List.finRange k).foldl (fun a j => max a |gMu j|) |gLam|⟩

/-- The state of the subgradient search; `none` stands for the infinite initial bounds. -/
structure DualSearch (n k : Nat) where
  m : Multipliers k
  best : Option (Assignment n k × Rat) := none
  maxD : Option Rat := none
  stall : Nat := 0
  shrink : Rat := 1
  nextRepair : Nat := 1

namespace DualSearch

variable {n k : Nat}

def repairDue (s : DualSearch n k) (t : Nat) : Bool × DualSearch n k :=
  if t = s.nextRepair then (true, { s with nextRepair := s.nextRepair * 2 })
  else (t % 8 = 0, s)

def trackDual (s : DualSearch n k) (dual : Rat) : DualSearch n k :=
  if s.maxD.all fun d => d + 1 / 10 ^ 12 < dual then { s with maxD := some dual, stall := 0 }
  else if 5 ≤ s.stall + 1 then { s with shrink := s.shrink / 2, stall := 0 }
  else { s with stall := s.stall + 1 }

def beats (s : DualSearch n k) (c : Rat) : Bool := s.best.all fun b => c < b.2 - 1 / 10 ^ 12

def offer (s : DualSearch n k) (x : Assignment n k) (c : Rat) : DualSearch n k :=
  if s.beats c then { s with best := some (x, c) } else s

def gap (s : DualSearch n k) (c : Rat) : Option Rat :=
  s.maxD.map fun d => (c - d) / max c (1 / 10 ^ 9)

def converged (s : DualSearch n k) (eps : Rat) : Bool :=
  s.best.any fun b => (s.gap b.2).any fun g => g ≤ eps

def step (s : DualSearch n k) (eta : Rat) (g : Subgradient k) : DualSearch n k :=
  { s with m := ⟨max 0 (s.m.lam + eta * g.lam), fun j => max 0 (s.m.mu j + eta * g.mu j)⟩ }

end DualSearch

/-- The parameters of `solve_dual`; `sqrt` is the square root its step size divides by. -/
structure DualParams where
  maxIter : Nat
  eta0 : Rat
  eps : Rat
  sqrt : Nat → Rat

def recover (P : Problem n k) (need : Rat) (s : DualSearch n k) (it : Iterate n k) (due : Bool) :
    Bool × DualSearch n k :=
  if (∀ j, it.counts j ≤ P.caps j) ∧ need - tol ≤ it.totalA then
    let s := s.offer it.x it.totalC
    if isSlackOptimal P need s.m it then
      (true, { s with maxD := (max s.maxD (s.best.map Prod.snd)) })
    else (false, s)
  else if due ∧ s.beats it.totalC then
    match repair P need s.m it.x with
    | none => (false, s)
    | some y => (false, s.offer y (P.assignmentCost y))
  else (false, s)

/-- The subgradient loop from iteration `t` on, with the number of iterations it ends at. -/
def dualLoop (P : Problem n k) (h : P.Routable) (need scale : Rat) (p : DualParams) :
    Nat → Nat → DualSearch n k → DualSearch n k × Nat
  | 0, t, s => (s, t)
  | left + 1, t, s =>
    let it := lagrangianIterate P h need s.m
    let due := s.repairDue (t + 1)
    let r := recover P need (due.2.trackDual it.dual) it due.1
    if r.1 then (r.2, t + 1)
    else if r.2.converged p.eps then (r.2, t + 1)
    else
      let g := subgradient P need r.2.m it
      if g.norm ≤ 1 / 10 ^ 15 then (r.2, t + 1)
      else dualLoop P h need scale p left (t + 1)
        (r.2.step (p.eta0 * r.2.shrink * scale / p.sqrt (t + 2) / g.norm) g)

/-- Lagrangian dual with primal recovery: the assignment (`none` for the empty one), the
iterations and the gap (`none` for infinity). -/
def solveDual (P : Problem n k) (alpha : Rat) (p : DualParams) :
    Option (Assignment n k) × Nat × Option Rat :=
  if n = 0 then (none, 0, some 0)
  else if h : P.Routable then
    let need := n * alpha
    let (s, t) := dualLoop P h need (multiplierScale P) p p.maxIter 0 { m := ⟨0, fun _ => 0⟩ }
    match s.best with
    | none => (none, t, none)
    | some (x, _) =>
      let y := polish P need x
      (some y, t, (s.gap (P.assignmentCost y)).map (max 0))
  else (none, 0, none)

/-! `solve_greedy` -/

/-- The cost gap between the two cheapest models, infinite (`none`) with one. -/
def regret (row : List (Entry k)) : Option Rat :=
  match row with
  | e :: f :: _ => some (f.cost - e.cost)
  | _ => none

/-- Whether an item with regret `a` goes before a later one with regret `b`, or on a tie. -/
def regretBefore (a b : Option Rat) (tie : Bool) : Bool :=
  match a, b with
  | none, none => tie
  | none, some _ => true
  | some _, none => false
  | some a, some b => b < a ∨ (a = b ∧ tie)

def regretOrder (P : Problem n k) : List (Fin n) :=
  (List.finRange n).insertionSort fun i h =>
    regretBefore (regret (P.rows i)) (regret (P.rows h)) (i ≤ h)

/-- Items put one by one on their first model with residual capacity. -/
structure Placement (n k : Nat) where
  residual : Fin k → Nat
  x : Fin n → Option (Fin k)

def place (s : Placement n k) (i : Fin n) (models : List (Fin k)) : Option (Placement n k) :=
  (models.find? fun j => 0 < s.residual j).map fun j =>
    ⟨update s.residual j (s.residual j - 1), update s.x i (some j)⟩

def placeAll (P : Problem n k) : List (Fin n) → Placement n k → Option (Placement n k)
  | [], s => some s
  | i :: is, s =>
    match place s i ((P.rows i).map Entry.model) with
    | none => none
    | some s' => placeAll P is s'

def Placement.complete (s : Placement n k) : Option (Assignment n k) :=
  if h : ∀ i, (s.x i).isSome then some fun i => (s.x i).get (h i) else none

/-- Regret-ordered cheapest start and upgrades: the assignment, if any, and whether it reaches
`alpha`. -/
def solveGreedy (P : Problem n k) (alpha : Rat) : Option (Assignment n k) × Bool :=
  if n = 0 then (none, true)
  else if P.Routable then
    match (placeAll P (regretOrder P) ⟨P.caps, fun _ => none⟩).bind Placement.complete with
    | none => (none, false)
    | some x =>
      let (y, reached) := upgrade P (n * alpha) x
      if reached then (some (polish P (n * alpha) y), true) else (some y, false)
  else (none, false)

/-! `_max_accuracy` -/

def spread (row : List (Entry k)) : Rat :=
  match row with
  | [] => -1
  | e :: es => es.foldl (fun a f => max a f.acc) e.acc - es.foldl (fun a f => min a f.acc) e.acc

/-- Capacity-feasible most accurate models, largest spread first; `none` is unroutable. -/
def maxAccuracy (P : Problem n k) : Fin n → Option (Fin k) :=
  let order := (List.finRange n).insertionSort fun i h =>
    spread (P.rows h) < spread (P.rows i) ∨ (spread (P.rows i) = spread (P.rows h) ∧ i ≤ h)
  (order.foldl (fun s i =>
    (place s i (((P.rows i).insertionSort fun e f => f.acc < e.acc ∨ (e.acc = f.acc ∧
      (e.cost < f.cost ∨ (e.cost = f.cost ∧ e.model ≤ f.model)))).map Entry.model)).getD s)
    ⟨P.caps, fun _ => none⟩).x

end Prismal.Routing
