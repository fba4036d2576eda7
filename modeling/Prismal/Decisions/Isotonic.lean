import Mathlib.Algebra.Order.BigOperators.Group.List
import Mathlib.Data.List.Dedup
import Prismal.Decisions.Interpolation
import Prismal.Decisions.Types
import Prismal.Lib.Isotonic
import Prismal.Lib.Lists

namespace Prismal.Decisions
open Prismal.Lib
set_option autoImplicit true

/-! Pool-adjacent-violators over the confidence of a top label and whether it was right. -/

structure LabeledExample where
  label : String

/-- A decided example: its confidence and whether the label matched. -/
structure Sample where
  score : Rat
  correct : Bool
  deriving DecidableEq, Repr

/-- `1.0 if is_correct(d, e.label) else 0.0` -/
def Sample.label (s : Sample) : Rat := if s.correct then 1 else 0

def Answer.text : Answer → String
  | .label s => s
  | .truth b => if b then "true" else "false"

/-- `lower` and `strip` are those of Python's strings. -/
def isCorrect (lower strip : String → String) (d : Decision) (label : String) : Bool :=
  match d.value with
  | none => false
  | some value => !d.abstained && decide (lower value.text = lower (strip label))

def tie (tied : Dict Rat (Rat × Rat)) (s : Sample) : Dict Rat (Rat × Rat) :=
  let acc := (tied.get? s.score).getD (0, 0)
  tied.set s.score (acc.1 + s.label, acc.2 + 1)

def tied (samples : List Sample) : Dict Rat (Rat × Rat) := samples.foldl tie ∅

/-- `[sum_x, sum_y, n]` -/
structure Block where
  sumX : Rat
  sumY : Rat
  n : Rat
  deriving DecidableEq, Repr

def Block.mean (b : Block) : Rat := b.sumY / b.n

def Block.centre (b : Block) : Rat := b.sumX / b.n

def Block.join (b c : Block) : Block := ⟨b.sumX + c.sumX, b.sumY + c.sumY, b.n + c.n⟩

/-- `blocks.append` and the loop that merges the last two blocks; the last block comes first. -/
def settle : Block → List Block → List Block
  | b, [] => [b]
  | b, prev :: rest => if b.mean < prev.mean then settle (prev.join b) rest else b :: prev :: rest

def blockAt (tied : Dict Rat (Rat × Rat)) (x : Rat) : Block :=
  let acc := (tied.get? x).getD (0, 0)
  ⟨x * acc.2, acc.1, acc.2⟩

/-- `sorted(tied)` -/
def scores (samples : List Sample) : List Rat := (tied samples).keys.insertionSort (· ≤ ·)

def fitBlocks (samples : List Sample) : List Block :=
  ((scores samples).foldl (fun blocks x => settle (blockAt (tied samples) x) blocks) []).reverse

structure IsotonicParams where
  x : List Rat
  y : List Rat
  deriving DecidableEq, Repr

def fitSamples (samples : List Sample) : IsotonicParams where
  x := (fitBlocks samples).map fun b => round6 b.centre
  y := (fitBlocks samples).map fun b => round6 b.mean

/-- `_fit_isotonic` -/
def fitIsotonic (lower strip : String → String) (pairs : List (Decision × LabeledExample)) :
    IsotonicParams :=
  fitSamples (pairs.map fun p => ⟨p.1.answerConfidence, isCorrect lower strip p.1 p.2.label⟩)

/-! What the blocks stand for. -/

def obs (samples : List Sample) (x : Rat) : List Sample :=
  samples.filter fun s => decide (s.score = x)

def weight (samples : List Sample) (x : Rat) : Rat := (obs samples x).length

def total (samples : List Sample) (x : Rat) : Rat := ((obs samples x).map Sample.label).sum

def blockOf (group : List Sample) : Block :=
  ⟨(group.map Sample.score).sum, (group.map Sample.label).sum, group.length⟩

def squares (f : Rat → Rat) (samples : List Sample) : Rat :=
  (samples.map fun s => (s.label - f s.score) ^ 2).sum

section Samples

variable {samples : List Sample}

theorem obs_append (samples : List Sample) (s : Sample) (x : Rat) :
    obs (samples ++ [s]) x = if s.score = x then obs samples x ++ [s] else obs samples x := by
  rw [obs, List.filter_append, List.filter_singleton]
  by_cases h : s.score = x
  · rw [if_pos h, decide_eq_true h]
    rfl
  · rw [if_neg h, decide_eq_false h]
    exact List.append_nil _

theorem get?_tied (samples : List Sample) (x : Rat) :
    (tied samples).get? x =
      if obs samples x = [] then none else some (total samples x, weight samples x) := by
  induction samples using List.reverseRecOn with
  | nil => rfl
  | append_singleton samples s ih =>
    rw [tied, List.foldl_append, List.foldl_cons, List.foldl_nil, tie, Dict.get?_set, total,
      weight, obs_append]
    by_cases h : s.score = x
    · have hacc : ((tied samples).get? x).getD (0, 0) = (total samples x, weight samples x) := by
        rw [ih]
        split
        next hnil =>
          rw [total, weight, hnil]
          rfl
        next => rfl
      rw [if_pos h, if_pos h, if_neg (by simp), h]
      change some ((((tied samples).get? x).getD (0, 0)).1 + s.label,
        (((tied samples).get? x).getD (0, 0)).2 + 1) = _
      rw [hacc, List.map_append, List.sum_append, List.length_append, total, weight]
      simp
    · rw [if_neg h, if_neg h]
      exact ih

theorem mem_scores : x ∈ scores samples ↔ obs samples x ≠ [] := by
  rw [scores, List.mem_insertionSort]
  apply Iff.trans Dict.mem_iff_get?
  rw [get?_tied]
  split
  next h => simp [h]
  next h => simp [h]

theorem scores_sorted (samples : List Sample) : (scores samples).Pairwise (· < ·) := by
  have hsorted := List.pairwise_insertionSort (· ≤ ·) (tied samples).keys
  have hnodup := (List.perm_insertionSort (· ≤ ·) (tied samples).keys).nodup_iff.2
    (tied samples).nodup
  apply (hsorted.and hnodup).imp
  intro a b h
  exact lt_of_le_of_ne h.1 h.2

theorem weight_pos (h : x ∈ scores samples) : 0 < weight samples x :=
  Nat.cast_pos.2 (List.length_pos_iff.2 (mem_scores.1 h))

theorem sum_score_obs (samples : List Sample) (x : Rat) :
    ((obs samples x).map Sample.score).sum = x * weight samples x := by
  have hall : (obs samples x).map Sample.score = (obs samples x).map fun _ => x :=
    List.map_congr_left fun s hs => of_decide_eq_true (List.mem_filter.1 hs).2
  rw [hall, weight, List.map_const', List.sum_replicate, nsmul_eq_mul, mul_comm]

theorem blockAt_tied (h : x ∈ scores samples) :
    blockAt (tied samples) x = ⟨x * weight samples x, total samples x, weight samples x⟩ := by
  rw [blockAt, get?_tied, if_neg (mem_scores.1 h)]
  rfl

theorem blockOf_flatMap (samples : List Sample) (run : List Rat) :
    blockOf (run.flatMap (obs samples)) =
      ⟨(run.map fun x => x * weight samples x).sum, (run.map (total samples)).sum,
        (run.map (weight samples)).sum⟩ := by
  induction run with
  | nil => rfl
  | cons x run ih =>
    rw [blockOf, Block.mk.injEq] at ih
    rw [List.flatMap_cons, blockOf, List.map_append, List.map_append, List.sum_append,
      List.sum_append, List.length_append, Nat.cast_add, ih.1, ih.2.1, ih.2.2, sum_score_obs]
    rfl

theorem settle_blockOf (samples : List Sample) (run : List Rat) (stack : List (List Rat)) :
    settle (blockOf (run.flatMap (obs samples)))
        (stack.map fun run => blockOf (run.flatMap (obs samples))) =
      (Isotonic.settle (weight samples) (total samples) run stack).map fun run =>
        blockOf (run.flatMap (obs samples)) := by
  have hmean : ∀ run : List Rat, (blockOf (run.flatMap (obs samples))).mean =
      Isotonic.mean (weight samples) (total samples) run := by
    intro run
    rw [blockOf_flatMap]
    rfl
  induction stack generalizing run with
  | nil => rfl
  | cons prev rest ih =>
    rw [List.map_cons, settle, Isotonic.settle, hmean, hmean]
    split
    · have hjoin : (blockOf (prev.flatMap (obs samples))).join
          (blockOf (run.flatMap (obs samples))) =
            blockOf ((prev ++ run).flatMap (obs samples)) := by
        rw [List.flatMap_append, blockOf, blockOf, blockOf, Block.join, List.map_append,
          List.map_append, List.sum_append, List.sum_append, List.length_append, Nat.cast_add]
      rw [hjoin]
      exact ih (prev ++ run)
    · rfl

def scoreRuns (samples : List Sample) : List (List Rat) :=
  (Isotonic.runs (weight samples) (total samples) (scores samples)).reverse

theorem foldl_settle {xs : List Rat} (stack : List (List Rat))
    (hxs : ∀ x ∈ xs, x ∈ scores samples) :
    xs.foldl (fun blocks x => settle (blockAt (tied samples) x) blocks)
        (stack.map fun run => blockOf (run.flatMap (obs samples))) =
      (xs.foldl (fun stack x =>
        Isotonic.settle (weight samples) (total samples) [x] stack) stack).map fun run =>
          blockOf (run.flatMap (obs samples)) := by
  induction xs generalizing stack with
  | nil => rfl
  | cons x xs ih =>
    have hx : blockAt (tied samples) x = blockOf ([x].flatMap (obs samples)) := by
      rw [blockAt_tied (hxs x List.mem_cons_self), blockOf_flatMap]
      simp
    rw [List.foldl_cons, List.foldl_cons, hx, settle_blockOf]
    exact ih _ fun y hy => hxs y (List.mem_cons_of_mem x hy)

theorem fitBlocks_eq (samples : List Sample) :
    fitBlocks samples = (scoreRuns samples).map fun run => blockOf (run.flatMap (obs samples)) := by
  rw [fitBlocks, scoreRuns, List.map_reverse]
  exact congrArg List.reverse (foldl_settle [] fun x hx => hx)

theorem scoreRuns_spec (samples : List Sample) :
    (∀ run ∈ scoreRuns samples, Isotonic.Run (weight samples) (total samples) run) ∧
      (scoreRuns samples).Pairwise (fun prev run =>
        Isotonic.mean (weight samples) (total samples) prev ≤
          Isotonic.mean (weight samples) (total samples) run) ∧
      (scoreRuns samples).flatten = scores samples := by
  obtain ⟨hfitted, hflat⟩ :=
    Isotonic.runs_spec (t := total samples) fun x (hx : x ∈ scores samples) => weight_pos hx
  refine ⟨fun run hrun => ?_, ?_, hflat⟩
  · exact hfitted.runs run (List.mem_reverse.1 hrun)
  · exact List.pairwise_reverse.2 hfitted.rising

theorem perm_flatMap_obs (samples : List Sample) {xs : List Rat} (hn : xs.Nodup) :
    (xs.flatMap (obs samples)).Perm (samples.filter fun s => decide (s.score ∈ xs)) := by
  induction xs with
  | nil => simp
  | cons x xs ih =>
    rw [List.nodup_cons] at hn
    have hsplit := List.filter_append_perm (fun s : Sample => decide (s.score = x))
      (samples.filter fun s => decide (s.score ∈ x :: xs))
    rw [List.filter_filter, List.filter_filter] at hsplit
    have hfirst : (samples.filter fun s => decide (s.score = x) && decide (s.score ∈ x :: xs)) =
        obs samples x := by
      apply List.filter_congr
      intro s _
      by_cases h : s.score = x
      · simp [h]
      · simp [h]
    have hrest : (samples.filter fun s => !decide (s.score = x) && decide (s.score ∈ x :: xs)) =
        samples.filter fun s => decide (s.score ∈ xs) := by
      apply List.filter_congr
      intro s _
      by_cases h : s.score = x
      · simp [h, hn.1]
      · simp [h]
    rw [hfirst, hrest] at hsplit
    rw [List.flatMap_cons]
    exact ((ih hn.2).append_left (obs samples x)).trans hsplit

theorem score_mem (hs : s ∈ samples) : s.score ∈ scores samples :=
  mem_scores.2 (List.ne_nil_of_mem (List.mem_filter.2 ⟨hs, decide_eq_true rfl⟩))

theorem perm_obs (samples : List Sample) :
    ((scores samples).flatMap (obs samples)).Perm samples := by
  have hall : (samples.filter fun s => decide (s.score ∈ scores samples)) = samples :=
    List.filter_eq_self.2 fun s hs => decide_eq_true (score_mem hs)
  have hn : (scores samples).Nodup := (scores_sorted samples).imp fun h => ne_of_lt h
  have hperm := perm_flatMap_obs samples hn
  rwa [hall] at hperm

/-! Least squares. -/

theorem squares_append (f : Rat → Rat) (xs ys : List Sample) :
    squares f (xs ++ ys) = squares f xs + squares f ys := by
  rw [squares, List.map_append, List.sum_append]
  rfl

theorem squares_same (f g : Rat → Rat) (group : List Sample) (h : ∀ s ∈ group, s.score = x) :
    squares g group = squares f group + group.length * (f x - g x) ^ 2 -
      2 * ((group.map Sample.label).sum - f x * group.length) * (g x - f x) := by
  induction group with
  | nil => simp [squares]
  | cons s group ih =>
    have hs := h s List.mem_cons_self
    have hgroup := ih fun s' hs' => h s' (List.mem_cons_of_mem s hs')
    simp only [squares] at hgroup ⊢
    rw [List.map_cons, List.sum_cons, List.map_cons, List.sum_cons, List.map_cons, List.sum_cons,
      List.length_cons, hgroup, hs, Nat.cast_add, Nat.cast_one]
    ring

theorem squares_flatMap (samples : List Sample) (f g : Rat → Rat) (xs : List Rat) :
    squares g (xs.flatMap (obs samples)) = squares f (xs.flatMap (obs samples)) +
      (xs.map fun x => weight samples x * (f x - g x) ^ 2).sum -
      2 * (xs.map fun x => (total samples x - f x * weight samples x) * (g x - f x)).sum := by
  induction xs with
  | nil => simp [squares]
  | cons x xs ih =>
    have hx := squares_same f g (obs samples x)
      fun s hs => of_decide_eq_true (List.mem_filter.1 hs).2
    rw [List.flatMap_cons, squares_append, squares_append, ih, hx, List.map_cons, List.sum_cons,
      List.map_cons, List.sum_cons, weight, total]
    ring

theorem squares_perm (f : Rat → Rat) {xs ys : List Sample} (h : xs.Perm ys) :
    squares f xs = squares f ys :=
  (h.map _).sum_eq

end Samples

def fitted (samples : List Sample) : Rat → Rat :=
  Isotonic.level (weight samples) (total samples) (scoreRuns samples)

/-- The blocks are the least-squares isotonic regression of the labels in score order: each is the
mean of the samples of a range of scores, the means rise, and no other rising function of the
scores has errors as small. -/
structure IsotonicFit (samples : List Sample) (blocks : List Block) (fit : Rat → Rat) : Prop where
  ranges : ∃ groups : List (List Sample), groups.flatten.Perm samples ∧
    groups.Pairwise (fun group later => ∀ s ∈ group, ∀ s' ∈ later, s.score < s'.score) ∧
    blocks = groups.map blockOf ∧
    ∀ group ∈ groups, group ≠ [] ∧ ∀ s ∈ group, fit s.score = (blockOf group).mean
  rising : MonotoneOn fit {x | ∃ s ∈ samples, s.score = x}
  least : ∀ g, MonotoneOn g {x | ∃ s ∈ samples, s.score = x} →
    squares fit samples ≤ squares g samples
  unique : ∀ g, MonotoneOn g {x | ∃ s ∈ samples, s.score = x} →
    squares g samples = squares fit samples → ∀ s ∈ samples, g s.score = fit s.score

section Fit

variable {samples : List Sample}

theorem fitted_eq (hrun : run ∈ scoreRuns samples) (hx : x ∈ run) :
    fitted samples x = Isotonic.mean (weight samples) (total samples) run := by
  have hn : (scoreRuns samples).flatten.Nodup := by
    rw [(scoreRuns_spec samples).2.2]
    exact (scores_sorted samples).imp fun h => ne_of_lt h
  exact Isotonic.level_eq hn hrun hx

theorem fitted_pairwise (samples : List Sample) :
    (scores samples).Pairwise fun x y => fitted samples x ≤ fitted samples y := by
  obtain ⟨-, hrising, hflat⟩ := scoreRuns_spec samples
  rw [← hflat]
  apply List.pairwise_flatten.2
  apply And.intro
  · intro run hrun
    apply List.pairwise_of_forall_mem_list
    intro x hx y hy
    rw [fitted_eq hrun hx, fitted_eq hrun hy]
  · apply hrising.imp_of_mem
    intro prev run hprev hrun hle x hx y hy
    rw [fitted_eq hprev hx, fitted_eq hrun hy]
    exact hle

theorem pairwise_of_monotoneOn {g : Rat → Rat}
    (hg : MonotoneOn g {x | ∃ s ∈ samples, s.score = x}) :
    (scores samples).Pairwise fun x y => g x ≤ g y := by
  have hmem : ∀ x ∈ scores samples, ∃ s ∈ samples, s.score = x := by
    intro x hx
    obtain ⟨s, hs⟩ := List.exists_mem_of_ne_nil _ (mem_scores.1 hx)
    exact ⟨s, (List.mem_filter.1 hs).1, of_decide_eq_true (List.mem_filter.1 hs).2⟩
  apply (scores_sorted samples).imp_of_mem
  intro x y hx hy hlt
  exact hg (hmem x hx) (hmem y hy) hlt.le

theorem fitted_monotone (samples : List Sample) :
    MonotoneOn (fitted samples) {x | ∃ s ∈ samples, s.score = x} := by
  intro x hx y hy hxy
  obtain ⟨s, hs, rfl⟩ := hx
  obtain ⟨s', hs', rfl⟩ := hy
  cases lt_or_eq_of_le hxy with
  | inl hlt =>
    have hsorted : ((scores samples).map fun x => x).Pairwise (· < ·) := by
      rw [List.map_id']
      exact scores_sorted samples
    exact rel_of_lt (R := fun x y => fitted samples x ≤ fitted samples y) hsorted
      (fitted_pairwise samples) (score_mem hs) (score_mem hs') hlt
  | inr heq => rw [heq]

theorem squares_fitted_le {g : Rat → Rat}
    (hg : MonotoneOn g {x | ∃ s ∈ samples, s.score = x}) :
    squares (fitted samples) samples +
        ((scores samples).map fun x => weight samples x * (fitted samples x - g x) ^ 2).sum ≤
      squares g samples := by
  obtain ⟨hruns, -, hflat⟩ := scoreRuns_spec samples
  have hlevels : ∀ run ∈ scoreRuns samples, Isotonic.Pooled (weight samples) (total samples)
      (Isotonic.mean (weight samples) (total samples) run) run ∧ ∀ x ∈ run, fitted samples x =
        Isotonic.mean (weight samples) (total samples) run :=
    fun run hrun => ⟨(hruns run hrun).pooled, fun x hx => fitted_eq hrun hx⟩
  have hpull := Isotonic.pull_flatten (g := g) hlevels (by
    rw [hflat]
    exact pairwise_of_monotoneOn hg)
  rw [hflat] at hpull
  rw [← squares_perm g (perm_obs samples), ← squares_perm (fitted samples) (perm_obs samples),
    squares_flatMap samples (fitted samples) g]
  linarith

theorem fitted_isotonic (samples : List Sample) :
    IsotonicFit samples (fitBlocks samples) (fitted samples) where
  ranges := by
    obtain ⟨hruns, -, hflat⟩ := scoreRuns_spec samples
    refine ⟨(scoreRuns samples).map fun run => run.flatMap (obs samples), ?_, ?_, ?_, ?_⟩
    · have hflatten : ((scoreRuns samples).map fun run => run.flatMap (obs samples)).flatten =
          (scoreRuns samples).flatten.flatMap (obs samples) := by
        rw [← List.flatMap_def, ← List.flatMap_id, List.flatMap_assoc]
        rfl
      rw [hflatten, hflat]
      exact perm_obs samples
    · have hsorted := scores_sorted samples
      rw [← hflat] at hsorted
      apply List.pairwise_map.2
      apply (List.pairwise_flatten.1 hsorted).2.imp
      intro run later h s hs s' hs'
      obtain ⟨x, hx, hsx⟩ := List.mem_flatMap.1 hs
      obtain ⟨y, hy, hsy⟩ := List.mem_flatMap.1 hs'
      rw [of_decide_eq_true (List.mem_filter.1 hsx).2, of_decide_eq_true (List.mem_filter.1 hsy).2]
      exact h x hx y hy
    · rw [fitBlocks_eq, List.map_map]
      rfl
    · intro group hgroup
      obtain ⟨run, hrun, rfl⟩ := List.mem_map.1 hgroup
      apply And.intro
      · obtain ⟨x, hx⟩ := List.exists_mem_of_ne_nil _ (hruns run hrun).nonempty
        have hscore : x ∈ scores samples := hflat ▸ List.mem_flatten.2 ⟨run, hrun, hx⟩
        obtain ⟨s, hs⟩ := List.exists_mem_of_ne_nil _ (mem_scores.1 hscore)
        exact List.ne_nil_of_mem (List.mem_flatMap.2 ⟨x, hx, hs⟩)
      · intro s hs
        obtain ⟨x, hx, hsx⟩ := List.mem_flatMap.1 hs
        rw [of_decide_eq_true (List.mem_filter.1 hsx).2, fitted_eq hrun hx, blockOf_flatMap]
        rfl
  rising := fitted_monotone samples
  least g hg := by
    have hle := squares_fitted_le hg
    have hdistance : 0 ≤
        ((scores samples).map fun x => weight samples x * (fitted samples x - g x) ^ 2).sum := by
      apply List.sum_nonneg
      intro d hd
      obtain ⟨x, hx, rfl⟩ := List.mem_map.1 hd
      exact mul_nonneg (weight_pos hx).le (sq_nonneg _)
    linarith
  unique g hg heq := by
    have hle := squares_fitted_le hg
    intro s hs
    have hx := score_mem hs
    have hterm := List.single_le_sum (l := (scores samples).map fun x =>
      weight samples x * (fitted samples x - g x) ^ 2) (fun d hd => by
        obtain ⟨x, hx, rfl⟩ := List.mem_map.1 hd
        exact mul_nonneg (weight_pos hx).le (sq_nonneg _)) _ (List.mem_map_of_mem hx)
    have hzero : weight samples s.score * (fitted samples s.score - g s.score) ^ 2 ≤ 0 := by
      linarith
    have hsquare : (fitted samples s.score - g s.score) ^ 2 ≤ 0 :=
      nonpos_of_mul_nonpos_right hzero (weight_pos hx)
    have hdiff := sq_eq_zero_iff.1 (le_antisymm hsquare (sq_nonneg _))
    linarith

theorem fitBlocks_rising (samples : List Sample) :
    ((fitBlocks samples).map Block.mean).Pairwise (· ≤ ·) := by
  rw [fitBlocks_eq, List.map_map]
  apply List.pairwise_map.2
  apply (scoreRuns_spec samples).2.1.imp
  intro prev run h
  change (blockOf (prev.flatMap (obs samples))).mean ≤ (blockOf (run.flatMap (obs samples))).mean
  rw [blockOf_flatMap, blockOf_flatMap]
  exact h

theorem centres_rising (samples : List Sample) :
    ((fitBlocks samples).map Block.centre).Pairwise (· ≤ ·) := by
  obtain ⟨hruns, -, hflat⟩ := scoreRuns_spec samples
  have hsorted := scores_sorted samples
  rw [← hflat, List.pairwise_flatten] at hsorted
  rw [fitBlocks_eq, List.map_map]
  apply List.pairwise_map.2
  apply hsorted.2.imp_of_mem
  intro prev run hprev hrun h
  have hcentre : ∀ run : List Rat, (blockOf (run.flatMap (obs samples))).centre =
      Isotonic.mean (weight samples) (fun x => x * weight samples x) run := by
    intro run
    rw [blockOf_flatMap]
    rfl
  change (blockOf (prev.flatMap (obs samples))).centre ≤
    (blockOf (run.flatMap (obs samples))).centre
  rw [hcentre, hcentre]
  have hprevRun := hruns prev hprev
  have hrunRun := hruns run hrun
  have hinner := hsorted.1 run hrun
  cases run with
  | nil => exact absurd rfl hrunRun.nonempty
  | cons first rest =>
    -- the first score of the later run separates the two
    have hbelow := Isotonic.mean_le (m := first) (Isotonic.weight_pos hprevRun.nonempty
      hprevRun.weighs) fun x hx => mul_le_mul_of_nonneg_right
        (h x hx first List.mem_cons_self).le (hprevRun.weighs x hx).le
    have habove : ∀ x ∈ first :: rest, first ≤ x := by
      intro x hx
      cases List.mem_cons.1 hx with
      | inl heq => rw [heq]
      | inr hmem => exact ((List.pairwise_cons.1 hinner).1 x hmem).le
    exact hbelow.trans (Isotonic.le_mean (Isotonic.weight_pos hrunRun.nonempty hrunRun.weighs)
      fun x hx => mul_le_mul_of_nonneg_right (habove x hx) (hrunRun.weighs x hx).le)

/-- The blocks are the isotonic least-squares fit of the samples, their means rise, and so does the
map that is read off the rounded points. -/
theorem fitSamples_spec (samples : List Sample) :
    (∃ fit, IsotonicFit samples (fitBlocks samples) fit) ∧
    ((fitBlocks samples).map Block.mean).Pairwise (· ≤ ·) ∧
    Monotone fun x => interp x (fitSamples samples).x (fitSamples samples).y := by
  refine ⟨⟨fitted samples, fitted_isotonic samples⟩, fitBlocks_rising samples, ?_⟩
  have hx : (fitSamples samples).x.Pairwise (· ≤ ·) :=
    List.pairwise_map.2 ((List.pairwise_map.1 (centres_rising samples)).imp round6_mono)
  have hy : (fitSamples samples).y.Pairwise (· ≤ ·) :=
    List.pairwise_map.2 ((List.pairwise_map.1 (fitBlocks_rising samples)).imp round6_mono)
  have hlen : (fitSamples samples).x.length = (fitSamples samples).y.length := by
    rw [fitSamples, List.length_map, List.length_map]
  exact interp_monotone hlen hx hy

end Fit

end Prismal.Decisions

namespace Prismal.Decisions
open Prismal.Lib
set_option autoImplicit true

/-! The threshold above which a calibration set is precise enough. -/

/-- `{n} predictions for {m} labeled examples` -/
structure LengthMismatch where
  predictions : Nat
  examples : Nat
  deriving DecidableEq, Repr

/-- `_pairs`: abstentions are left out. -/
def calibrationPairs (preds : List Decision) (examples : List LabeledExample) :
    Except LengthMismatch (List (Decision × LabeledExample)) :=
  if preds.length ≠ examples.length then .error ⟨preds.length, examples.length⟩
  else .ok ((preds.zip examples).filter fun p => !p.1.abstained)

def samplesOf (lower strip : String → String) (pairs : List (Decision × LabeledExample)) :
    List Sample :=
  pairs.map fun p => ⟨p.1.answerConfidence, isCorrect lower strip p.1 p.2.label⟩

def selectedAt (samples : List Sample) (tau : Rat) : List Bool :=
  (samples.filter fun s => decide (tau ≤ s.score)).map Sample.correct

/-- `sum(selected) / len(selected)` -/
def precision (selected : List Bool) : Rat := (selected.count true : Rat) / selected.length

def reaches (samples : List Sample) (target tau : Rat) : Bool :=
  !(selectedAt samples tau).isEmpty && decide (target ≤ precision (selectedAt samples tau))

def thresholdCandidates (samples : List Sample) (floor : Rat) : List Rat :=
  ((samples.map Sample.score).filter fun c => decide (floor ≤ c)).dedup.insertionSort (· ≤ ·)

/-- The first candidate that reaches the target, or else `1.0`. -/
def thresholdFor (samples : List Sample) (target floor : Rat) : Rat :=
  ((thresholdCandidates samples floor).find? (reaches samples target)).getD 1

def fitThresholds (lower strip : String → String) (preds : List Decision)
    (examples : List LabeledExample) (target floor : Rat) : Except LengthMismatch Rat :=
  (calibrationPairs preds examples).map fun pairs =>
    thresholdFor (samplesOf lower strip pairs) target floor

def PreciseAt (samples : List Sample) (target tau : Rat) : Prop :=
  (∀ s ∈ samples, s.score < tau) ∨ target ≤ precision (selectedAt samples tau)

def Unreachable (samples : List Sample) (target floor : Rat) : Prop :=
  ∀ s ∈ samples, floor ≤ s.score → ¬ target ≤ precision (selectedAt samples s.score)

theorem mem_thresholdCandidates : c ∈ thresholdCandidates samples floor ↔
    (∃ s ∈ samples, s.score = c) ∧ floor ≤ c := by
  rw [thresholdCandidates, List.mem_insertionSort, List.mem_dedup, List.mem_filter, List.mem_map,
    decide_eq_true_eq]

theorem selectedAt_ne_nil {samples : List Sample} (hs : s ∈ samples) :
    (selectedAt samples s.score).isEmpty = false := by
  rw [List.isEmpty_eq_false_iff]
  exact List.ne_nil_of_mem
    (List.mem_map_of_mem (List.mem_filter.2 ⟨hs, decide_eq_true (le_refl s.score)⟩))

theorem thresholdFor_spec (samples : List Sample) (target floor : Rat) :
    PreciseAt samples target (thresholdFor samples target floor) ∨
      thresholdFor samples target floor = 1 ∧ Unreachable samples target floor := by
  rw [thresholdFor]
  cases hfound : (thresholdCandidates samples floor).find? (reaches samples target) with
  | some tau =>
    have hreaches := List.find?_some hfound
    rw [reaches, Bool.and_eq_true, decide_eq_true_eq] at hreaches
    exact .inl (.inr hreaches.2)
  | none =>
    right
    apply And.intro rfl
    intro s hs hfloor hprecise
    have hfails := List.find?_eq_none.1 hfound s.score
      (mem_thresholdCandidates.2 ⟨⟨s, hs, rfl⟩, hfloor⟩)
    apply hfails
    rw [reaches, selectedAt_ne_nil hs, decide_eq_true hprecise]
    rfl

/-- Whatever `fit_thresholds` returns is precise on the decided examples, or it is the fallback
because none of their confidences is. -/
theorem fitThresholds_precise
    (h : fitThresholds lower strip preds examples target floor = .ok tau) :
    ∃ pairs, calibrationPairs preds examples = .ok pairs ∧
      (PreciseAt (samplesOf lower strip pairs) target tau ∨
        tau = 1 ∧ Unreachable (samplesOf lower strip pairs) target floor) := by
  rw [fitThresholds] at h
  cases hpairs : calibrationPairs preds examples with
  | error e =>
    rw [hpairs] at h
    cases h
  | ok pairs =>
    rw [hpairs] at h
    cases h
    exact ⟨pairs, rfl, thresholdFor_spec _ target floor⟩

def sureOf (option : String) : Decision where
  questionId := "q"
  kind := .choice
  value := some (.label option)
  probabilities := [(option, 1)]
  answerConfidence := 1
  spreadConfidence := 1
  margin := 1
  expectedLevel := none
  model := "jev-1"
  backend := "jev"
  calibrationVersion := none
  latencyMs := 1
  outcome := .accepted

theorem fitThresholds_sure :
    ∃ pairs, calibrationPairs [sureOf "a", sureOf "b"] [⟨"a"⟩, ⟨"b"⟩] = .ok pairs ∧
      (PreciseAt (samplesOf id id pairs) (9 / 10) 1 ∨
        (1 : Rat) = 1 ∧ Unreachable (samplesOf id id pairs) (9 / 10) (1 / 2)) :=
  fitThresholds_precise
    (show fitThresholds id id [sureOf "a", sureOf "b"] [⟨"a"⟩, ⟨"b"⟩] (9 / 10) (1 / 2) = .ok 1 by
      decide +kernel)

/-- A wrong answer of confidence one lies at the fallback, however high the target is. -/
theorem fallback_imprecise :
    fitThresholds id id [sureOf "a"] [⟨"b"⟩] (1 / 2) 0 = .ok 1 ∧
    calibrationPairs [sureOf "a"] [⟨"b"⟩] = .ok [(sureOf "a", ⟨"b"⟩)] ∧
    ¬ PreciseAt (samplesOf id id [(sureOf "a", ⟨"b"⟩)]) (1 / 2) 1 := by
  apply And.intro (by decide +kernel)
  apply And.intro rfl
  intro hprecise
  cases hprecise with
  | inl hnone => exact absurd (hnone ⟨1, false⟩ List.mem_cons_self) (lt_irrefl 1)
  | inr hle => exact absurd hle (by decide +kernel)

end Prismal.Decisions
