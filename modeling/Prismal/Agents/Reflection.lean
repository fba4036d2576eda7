import Mathlib.Algebra.Order.Ring.Rat
import Mathlib.Data.List.MinMax

namespace Prismal.Agents
set_option autoImplicit true

/-! The loop that drafts, has the draft criticised, and drafts again. -/

/-- What a loop calls: its own functions, which act on a world and may raise. -/
structure ReflectionCalls (ω ε : Type) where
  generate : Option (String × String) → ω → Except ε (String × ω)
  critique : String → ω → Except ε ((String × ℚ) × ω)
  budgetGuard : Option (Nat → ω → Except ε (Bool × ω)) := none

structure ReflectionSettings where
  enabled : Bool := true
  maxIterations : Nat := 3
  bounds : 1 ≤ maxIterations ∧ maxIterations ≤ 10 := by decide

inductive ReflectionError (ε : Type) where
  | threshold (got : ℚ)
  | maxIterations (got : Int)
  | raised (e : ε)

def ReflectionCalls.allowed (c : ReflectionCalls ω ε) (iteration : Nat) (w : ω) :
    Except ε (Bool × ω) :=
  match c.budgetGuard with
  | none => .ok (true, w)
  | some guard => if 1 < iteration then guard iteration w else .ok (true, w)

structure Draft where
  text : String
  feedback : String
  score : ℚ

def Draft.scored (d : Draft) : String × ℚ := (d.text, d.score)

def ReflectionCalls.next (c : ReflectionCalls ω ε) (iteration : Nat)
    (previous : Option (String × String)) (w : ω) : Except ε (Option Draft × ω) := do
  let (go, w) ← c.allowed iteration w
  if !go then return (none, w)
  let (text, w) ← c.generate previous w
  let ((feedback, score), w) ← c.critique text w
  return (some ⟨text, feedback, score⟩, w)

def better (best scored : String × ℚ) : String × ℚ := if best.2 < scored.2 then scored else best

def ReflectionCalls.iterations (c : ReflectionCalls ω ε) (threshold : ℚ) :
    Nat → Nat → String × ℚ → Option (String × String) → ω → Except ε ((String × ℚ) × ω)
  | 0, _, best, _, w => .ok (best, w)
  | left + 1, iteration, best, previous, w =>
    match c.next iteration previous w with
    | .error e => .error e
    | .ok (none, w) => .ok (best, w)
    | .ok (some d, w) =>
      if threshold ≤ d.score then .ok (better best d.scored, w)
      else c.iterations threshold left (iteration + 1) (better best d.scored)
        (some (d.text, d.feedback)) w

def raised : Except ε α → Except (ReflectionError ε) α
  | .error e => .error (.raised e)
  | .ok a => .ok a

def noDraft : String × ℚ := ("", -1)

def ReflectionCalls.reflectionLoop (c : ReflectionCalls ω ε) (s : ReflectionSettings)
    (threshold : ℚ) (maxIterations : Int) (w : ω) :
    Except (ReflectionError ε) ((String × ℚ) × ω) :=
  if ¬(0 ≤ threshold ∧ threshold ≤ 1) then .error (.threshold threshold)
  else if maxIterations < 1 then .error (.maxIterations maxIterations)
  else if !s.enabled then raised ((c.generate none w).map fun r => ((r.1, 1), r.2))
  else
    raised (c.iterations threshold (min maxIterations.toNat s.maxIterations) 1 noDraft none w)

def ReflectionCalls.Drafts (c : ReflectionCalls ω ε) :
    Nat → Option (String × String) → ω → List Draft → ω → Prop
  | _, _, w, [], w' => w = w'
  | iteration, previous, w, d :: ds, w' => ∃ w₁, c.next iteration previous w = .ok (some d, w₁) ∧
    c.Drafts (iteration + 1) (some (d.text, d.feedback)) w₁ ds w'

/-- Drafts below the threshold, and then one that meets it, as many as there may be, or as many as
the budget allows; of those below it the first of the best counts. -/
def ReflectionCalls.Reflects (c : ReflectionCalls ω ε) (threshold : ℚ) (limit iteration : Nat)
    (best : String × ℚ) (previous : Option (String × String)) (w : ω) (b : String × ℚ) (w' : ω) :
    Prop :=
  ∃ ds, (∀ d ∈ ds, d.score < threshold) ∧
    ((∃ d, threshold ≤ d.score ∧ ds.length < limit ∧
        c.Drafts iteration previous w (ds ++ [d]) w' ∧ b = d.scored) ∨
      (List.argmax Prod.snd (best :: ds.map Draft.scored) = some b ∧
        ∃ w₁, c.Drafts iteration previous w ds w₁ ∧
          (ds.length = limit ∧ w₁ = w' ∨
            ds.length < limit ∧ c.allowed (iteration + ds.length) w₁ = .ok (false, w'))))

theorem argmax_better (best d : String × ℚ) (ds : List (String × ℚ)) :
    List.argmax Prod.snd (best :: d :: ds) = List.argmax Prod.snd (better best d :: ds) := by
  have hstep : List.argAux (fun b c : String × ℚ => c.2 < b.2) (some best) d =
      some (better best d) := (apply_ite some _ _ _).symm
  exact congrArg (fun o => ds.foldl (List.argAux fun b c : String × ℚ => c.2 < b.2) o) hstep

variable {c : ReflectionCalls ω ε} {threshold : ℚ} {iteration left : Nat} {best b : String × ℚ}
  {previous : Option (String × String)} {w w' : ω}

theorem next_refused : c.next iteration previous w = .ok (none, w') ↔
    c.allowed iteration w = .ok (false, w') := by
  rw [ReflectionCalls.next]
  cases c.allowed iteration w with
  | error e => exact iff_of_false (fun h => nomatch h) (fun h => nomatch h)
  | ok r =>
    obtain ⟨_ | _, w₁⟩ := r
    · change Except.ok (none, w₁) = _ ↔ _
      simp
    · apply iff_of_false _ (by simp)
      change (c.generate previous w₁ >>= _) ≠ _
      cases c.generate previous w₁ with
      | error e => exact fun h => nomatch h
      | ok r =>
        change (c.critique r.1 r.2 >>= _) ≠ _
        cases c.critique r.1 r.2 with
        | error e => exact fun h => nomatch h
        | ok r => exact fun h => nomatch h

theorem reflects_zero : c.Reflects threshold 0 iteration best previous w b w' ↔
    b = best ∧ w' = w := by
  apply Iff.intro
  · intro h
    obtain ⟨ds, _, ⟨_, _, hlt, _⟩ | ⟨hbest, w₁, hds, hend⟩⟩ := h
    · exact absurd hlt (Nat.not_lt_zero _)
    · obtain ⟨hlen, rfl⟩ | ⟨hlt, _⟩ := hend
      · obtain rfl := List.length_eq_zero_iff.1 hlen
        exact ⟨(Option.some.inj hbest).symm, hds.symm⟩
      · exact absurd hlt (Nat.not_lt_zero _)
  · intro h
    obtain ⟨rfl, rfl⟩ := h
    exact ⟨[], List.forall_mem_nil _, Or.inr ⟨rfl, w', rfl, Or.inl ⟨rfl, rfl⟩⟩⟩

theorem reflects_succ : c.Reflects threshold (left + 1) iteration best previous w b w' ↔
    c.next iteration previous w = .ok (none, w') ∧ b = best ∨
      ∃ d w₁, c.next iteration previous w = .ok (some d, w₁) ∧
        (threshold ≤ d.score ∧ b = d.scored ∧ w₁ = w' ∨
          d.score < threshold ∧ c.Reflects threshold left (iteration + 1) (better best d.scored)
            (some (d.text, d.feedback)) w₁ b w') := by
  rw [next_refused]
  apply Iff.intro
  · intro h
    obtain ⟨ds, hbelow, hend⟩ := h
    cases ds with
    | nil =>
      obtain ⟨d, hmet, _, ⟨w₁, hnext, rfl⟩, rfl⟩ | ⟨hbest, w₁, rfl, ⟨hlen, _⟩ | ⟨_, hrefused⟩⟩ :=
        hend
      · exact Or.inr ⟨d, w₁, hnext, Or.inl ⟨hmet, rfl, rfl⟩⟩
      · cases hlen
      · exact Or.inl ⟨hrefused, (Option.some.inj hbest).symm⟩
    | cons d ds =>
      have hd := hbelow d List.mem_cons_self
      have hds : ∀ e ∈ ds, e.score < threshold := fun e he => hbelow e (List.mem_cons_of_mem _ he)
      obtain ⟨e, hmet, hlt, ⟨w₁, hnext, hrest⟩, rfl⟩ |
        ⟨hbest, w₀, ⟨w₁, hnext, hrest⟩, hstop⟩ := hend
      · exact Or.inr ⟨d, w₁, hnext,
          Or.inr ⟨hd, ds, hds, Or.inl ⟨e, hmet, Nat.lt_of_succ_lt_succ hlt, hrest, rfl⟩⟩⟩
      · rw [List.map_cons, argmax_better] at hbest
        rw [List.length_cons, Nat.succ_inj, Nat.succ_lt_succ_iff, Nat.add_comm ds.length,
          ← Nat.add_assoc] at hstop
        exact Or.inr ⟨d, w₁, hnext, Or.inr ⟨hd, ds, hds, Or.inr ⟨hbest, w₀, hrest, hstop⟩⟩⟩
  · intro h
    obtain ⟨hrefused, rfl⟩ | ⟨d, w₁, hnext, ⟨hmet, rfl, rfl⟩ | ⟨hd, ds, hds, hend⟩⟩ := h
    · exact ⟨[], List.forall_mem_nil _,
        Or.inr ⟨rfl, w, rfl, Or.inr ⟨Nat.succ_pos _, hrefused⟩⟩⟩
    · exact ⟨[], List.forall_mem_nil _,
        Or.inl ⟨d, hmet, Nat.succ_pos _, ⟨w₁, hnext, rfl⟩, rfl⟩⟩
    · have hbelow : ∀ e ∈ d :: ds, e.score < threshold := List.forall_mem_cons.2 ⟨hd, hds⟩
      obtain ⟨e, hmet, hlt, hrest, rfl⟩ | ⟨hbest, w₀, hrest, hstop⟩ := hend
      · exact ⟨d :: ds, hbelow,
          Or.inl ⟨e, hmet, Nat.succ_lt_succ hlt, ⟨w₁, hnext, hrest⟩, rfl⟩⟩
      · rw [← argmax_better, ← List.map_cons] at hbest
        rw [← Nat.succ_inj, ← Nat.succ_lt_succ_iff, Nat.add_assoc, Nat.add_comm 1] at hstop
        exact ⟨d :: ds, hbelow, Or.inr ⟨hbest, w₀, ⟨w₁, hnext, hrest⟩, hstop⟩⟩

theorem better_lt (hbest : best.2 < threshold) {d : Draft} (hd : d.score < threshold) :
    (better best d.scored).2 < threshold := by
  rw [better]
  split
  · exact hd
  · exact hbest

theorem iterations_iff (hbest : best.2 < threshold) :
    c.iterations threshold left iteration best previous w = .ok (b, w') ↔
      c.Reflects threshold left iteration best previous w b w' := by
  induction left generalizing iteration best previous w with
  | zero =>
    rw [reflects_zero, ReflectionCalls.iterations, Except.ok.injEq, Prod.mk.injEq]
    exact and_congr eq_comm eq_comm
  | succ left ih =>
    rw [reflects_succ, ReflectionCalls.iterations]
    cases c.next iteration previous w with
    | error e => simp
    | ok r =>
      obtain ⟨_ | d, w₁⟩ := r
      · simp [and_comm, eq_comm]
      · simp only [Except.ok.injEq, Prod.mk.injEq, reduceCtorEq, false_and, false_or,
          Option.some.injEq]
        by_cases hmet : threshold ≤ d.score
        · have hbetter : better best d.scored = d.scored := if_pos (hbest.trans_le hmet)
          rw [if_pos hmet, hbetter, Except.ok.injEq, Prod.mk.injEq]
          apply Iff.intro
          · intro h
            exact ⟨d, w₁, ⟨rfl, rfl⟩, Or.inl ⟨hmet, h.1.symm, h.2⟩⟩
          · intro h
            obtain ⟨_, _, ⟨rfl, rfl⟩, ⟨_, rfl, rfl⟩ | ⟨hlt, _⟩⟩ := h
            · exact ⟨rfl, rfl⟩
            · exact absurd hmet hlt.not_ge
        · have hd := lt_of_not_ge hmet
          rw [if_neg hmet, ih (better_lt hbest hd)]
          apply Iff.intro
          · intro h
            exact ⟨d, w₁, ⟨rfl, rfl⟩, Or.inr ⟨hd, h⟩⟩
          · intro h
            obtain ⟨_, _, ⟨rfl, rfl⟩, ⟨hge, _⟩ | ⟨_, h⟩⟩ := h
            · exact absurd hge hmet
            · exact h

theorem raised_ok {x : Except ε α} {a : α} : raised x = .ok a ↔ x = .ok a := by
  cases x with
  | error e => exact iff_of_false (fun h => nomatch h) (fun h => nomatch h)
  | ok a' => rw [raised, Except.ok.injEq, Except.ok.injEq]

/-- What the loop returns, whatever its functions do: the draft that met the threshold as soon as
there is one, else the first of the best, within the bounds of the caller, the settings and the
budget; switched off, the first draft. -/
theorem reflection_exact (c : ReflectionCalls ω ε) (s : ReflectionSettings) (threshold : ℚ)
    (maxIterations : Int) (w : ω) (b : String × ℚ) (w' : ω) :
    c.reflectionLoop s threshold maxIterations w = .ok (b, w') ↔
      0 ≤ threshold ∧ threshold ≤ 1 ∧ 1 ≤ maxIterations ∧
        if s.enabled then
          c.Reflects threshold (min maxIterations.toNat s.maxIterations) 1 noDraft none w b w'
        else c.generate none w = .ok (b.1, w') ∧ b.2 = 1 := by
  rw [ReflectionCalls.reflectionLoop]
  by_cases hrange : 0 ≤ threshold ∧ threshold ≤ 1
  · rw [if_neg (not_not.2 hrange)]
    by_cases hmax : maxIterations < 1
    · rw [if_pos hmax]
      apply iff_of_false (fun h => nomatch h)
      intro h
      exact absurd h.2.2.1 (Int.not_le.2 hmax)
    · have hbounds : ∀ p : Prop, (0 ≤ threshold ∧ threshold ≤ 1 ∧ 1 ≤ maxIterations ∧ p) ↔ p :=
        fun p => by simp [hrange.1, hrange.2, Int.not_lt.1 hmax]
      rw [if_neg hmax, hbounds]
      cases s.enabled with
      | false =>
        rw [if_pos (by rfl), if_neg Bool.false_ne_true, raised_ok]
        cases c.generate none w with
        | error e => exact iff_of_false (fun h => nomatch h) (fun h => nomatch h.1)
        | ok r =>
          change Except.ok ((r.1, (1 : ℚ)), r.2) = _ ↔ _
          simp only [Except.ok.injEq, Prod.ext_iff]
          rw [and_assoc, and_assoc, and_comm (a := (1 : ℚ) = b.2), eq_comm (a := (1 : ℚ))]
      | true =>
        have hlow : noDraft.2 < threshold := lt_of_lt_of_le (by decide) hrange.1
        rw [if_neg (by simp), if_pos rfl, raised_ok, iterations_iff hlow]
  · rw [if_pos hrange]
    apply iff_of_false (fun h => nomatch h)
    intro h
    exact hrange ⟨h.1, h.2.1⟩

end Prismal.Agents
