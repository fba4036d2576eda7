import Mathlib.Data.List.Basic
import Mathlib.Logic.Basic
import Mathlib.Logic.Function.Basic

namespace Prismal.Lib
set_option autoImplicit true

namespace Run

/-- A run of a machine that answers every action: `P` holds at each of its steps, which it sees
together with the actions that are still to come. -/
def Along (step : σ → α → σ) (P : σ → α → List α → Prop) : σ → List α → Prop
  | _, [] => True
  | s, a :: rest => P s a rest ∧ Along step P (step s a) rest

def final (step : σ → α → σ) : σ → List α → σ
  | s, [] => s
  | s, a :: rest => final step (step s a) rest

instance Along.decidable (step : σ → α → σ) (P : σ → α → List α → Prop)
    [∀ s a rest, Decidable (P s a rest)] : ∀ s acts, Decidable (Along step P s acts)
  | _, [] => isTrue trivial
  | s, a :: rest =>
    have := Along.decidable step P (step s a) rest
    inferInstanceAs (Decidable (_ ∧ _))

variable {step : σ → α → σ} {C P Q : σ → α → List α → Prop} {I : σ → List α → Prop}

theorem along_nil : Along step P s [] := trivial

theorem along_cons :
    Along step P s (a :: rest) ↔ P s a rest ∧ Along step P (step s a) rest := Iff.rfl

theorem Along.of_invariant (hI : I s acts)
    (hstep : ∀ s a rest, I s (a :: rest) → C s a rest → P s a rest ∧ I (step s a) rest)
    (hC : Along step C s acts) : Along step P s acts := by
  induction acts generalizing s with
  | nil => exact along_nil
  | cons a rest ih =>
    obtain ⟨hc, hC⟩ := hC
    obtain ⟨hp, hI⟩ := hstep s a rest hI hc
    exact ⟨hp, ih hI hC⟩

theorem along_of_invariant {I : σ → Prop} (hI : I s)
    (hstep : ∀ s a rest, I s → P s a rest ∧ I (step s a)) (acts : List α) :
    Along step P s acts := by
  induction acts generalizing s with
  | nil => exact along_nil
  | cons a rest ih =>
    obtain ⟨hp, hI⟩ := hstep s a rest hI
    exact ⟨hp, ih hI⟩

theorem final_of_invariant {I : σ → Prop} (hI : I s) (hstep : ∀ s a, I s → I (step s a))
    (acts : List α) : I (final step s acts) := by
  induction acts generalizing s with
  | nil => exact hI
  | cons a rest ih => exact ih (hstep s a hI)

theorem Along.mono (h : ∀ s a rest, P s a rest → Q s a rest) (hP : Along step P s acts) :
    Along step Q s acts := by
  induction acts generalizing s with
  | nil => exact along_nil
  | cons a rest ih => exact ⟨h s a rest hP.1, ih hP.2⟩

theorem final_append (step : σ → α → σ) (s : σ) (xs ys : List α) :
    final step s (xs ++ ys) = final step (final step s xs) ys := by
  induction xs generalizing s with
  | nil => rfl
  | cons a xs ih => exact ih (step s a)

theorem final_singleton (step : σ → α → σ) (s : σ) (a : α) : final step s [a] = step s a := rfl

theorem final_of_along {C : σ → α → Prop} {I : σ → Prop} (hI : I s)
    (hstep : ∀ s a, I s → C s a → I (step s a)) (hC : Along step (fun s a _ => C s a) s acts) :
    I (final step s acts) := by
  induction acts generalizing s with
  | nil => exact hI
  | cons a rest ih => exact ih (hstep s a hI hC.1) hC.2

theorem along_append {C : σ → α → Prop} :
    Along step (fun s a _ => C s a) s (xs ++ ys) ↔
      Along step (fun s a _ => C s a) s xs ∧
        Along step (fun s a _ => C s a) (final step s xs) ys := by
  induction xs generalizing s with
  | nil => exact ⟨fun h => ⟨trivial, h⟩, fun h => h.2⟩
  | cons a xs ih =>
    rw [List.cons_append, along_cons, along_cons, ih, and_assoc]
    rfl

theorem final_iff_along (G : σ → Prop) {I : σ → Prop} {C : σ → α → Prop}
    (hstep : ∀ s a, I s → I (step s a) ∧ (G (step s a) ↔ G s ∧ C s a)) (hI : I s) :
    G (final step s acts) ↔ G s ∧ Along step (fun s a _ => C s a) s acts := by
  induction acts generalizing s with
  | nil => exact ⟨fun h => ⟨h, trivial⟩, fun h => h.1⟩
  | cons a rest ih =>
    obtain ⟨hI', hG⟩ := hstep s a hI
    rw [final, ih hI', hG, along_cons, and_assoc]

end Run

/-! Loops that end. A pass of a loop leads to the next state, or there is none. -/

namespace Loop

variable {σ : Type u} {pass : σ → Option σ}

/-- A loop that is entered in `s` is left in `r`. -/
inductive Halts (pass : σ → Option σ) : σ → σ → Prop
  | done : pass s = none → Halts pass s s
  | next : pass s = some t → Halts pass t r → Halts pass s r

theorem Halts.stuck (h : Halts pass s r) : pass r = none := by
  induction h with
  | done hnone => exact hnone
  | next _ _ ih => exact ih

theorem Halts.invariant {I : σ → Prop} (h : Halts pass s r) (hs : I s)
    (hpass : ∀ s t, I s → pass s = some t → I t) : I r := by
  induction h with
  | done _ => exact hs
  | next hsome _ ih => exact ih (hpass _ _ hs hsome)

def iterate (turn : σ → ρ ⊕ σ) : Nat → σ → Option ρ
  | 0, _ => none
  | n + 1, s =>
    match turn s with
    | .inl r => some r
    | .inr t => iterate turn n t

theorem iterate_ends {turn : σ → ρ ⊕ σ} {I : Nat → σ → Prop} {Q : ρ → Prop} {n : Nat}
    (hlast : ∀ s t, I 0 s → turn s ≠ .inr t)
    (hnext : ∀ n s t, I (n + 1) s → turn s = .inr t → I n t)
    (hleave : ∀ n s r, I n s → turn s = .inl r → Q r) (h : I n s) :
    ∃ r, (∀ m > n, iterate turn m s = some r) ∧ Q r := by
  induction n generalizing s with
  | zero =>
    cases hturn : turn s with
    | inl r =>
      refine ⟨r, fun m hm => ?_, hleave 0 s r h hturn⟩
      obtain ⟨k, rfl⟩ := Nat.exists_eq_succ_of_ne_zero (Nat.ne_of_gt hm)
      rw [iterate, hturn]
    | inr t => exact absurd hturn (hlast s t h)
  | succ n ih =>
    cases hturn : turn s with
    | inl r =>
      refine ⟨r, fun m hm => ?_, hleave _ s r h hturn⟩
      obtain ⟨k, rfl⟩ := Nat.exists_eq_succ_of_ne_zero (Nat.ne_of_gt (Nat.zero_lt_of_lt hm))
      rw [iterate, hturn]
    | inr t =>
      obtain ⟨r, hr, hQ⟩ := ih (hnext n s t h hturn)
      refine ⟨r, fun m hm => ?_, hQ⟩
      obtain ⟨k, rfl⟩ := Nat.exists_eq_succ_of_ne_zero (Nat.ne_of_gt (Nat.zero_lt_of_lt hm))
      rw [iterate, hturn]
      exact hr k (Nat.lt_of_succ_lt_succ hm)

end Loop

end Prismal.Lib

namespace Prismal.Lib
set_option autoImplicit true

/-! Attempts made one after another, for as long as they ask for another one and there are any
left. -/

namespace Retrying

/-- The attempt that such a series ends with: the ones before it all ask for another one, and it
does not, or it is the last one that is allowed. -/
structure Ends (again : Nat → Prop) (limit n : Nat) : Prop where
  below : n < limit
  before : ∀ k < n, again k
  stop : ¬ again n ∨ n + 1 = limit

variable {again again' : Nat → Prop} {limit : Nat}

theorem Ends.not_lt (h : Ends again limit n) (h' : Ends again limit n') : ¬ n < n' := by
  intro hlt
  rcases h.stop with hstop | hlast
  · exact hstop (h'.before n hlt)
  · have hbelow := h'.below
    omega

theorem Ends.unique (h : Ends again limit n) (h' : Ends again limit n') : n = n' :=
  Nat.le_antisymm (Nat.not_lt.1 (h'.not_lt h)) (Nat.not_lt.1 (h.not_lt h'))

theorem Ends.congr (h : Ends again limit n)
    (hsame : ∀ k ≤ n, k + 1 < limit → (again k ↔ again' k)) :
    Ends again' limit n where
  below := h.below
  before k hk := by
    have hlimit := h.below
    exact (hsame k (Nat.le_of_lt hk) (by omega)).1 (h.before k hk)
  stop := by
    rcases h.stop with hstop | hlast
    · by_cases hlast : n + 1 = limit
      · exact Or.inr hlast
      · have hlimit := h.below
        exact Or.inl fun hagain => hstop ((hsame n (Nat.le_refl n) (by omega)).2 hagain)
    · exact Or.inr hlast

theorem exists_ends (again : Nat → Prop) (h : 0 < limit) : ∃ n, Ends again limit n := by
  induction limit generalizing again with
  | zero => exact absurd h (Nat.lt_irrefl 0)
  | succ limit ih =>
    by_cases hzero : again 0 ∧ 0 < limit
    · obtain ⟨n, hn⟩ := ih (fun k => again (k + 1)) hzero.2
      refine ⟨n + 1, Nat.succ_lt_succ hn.below, ?_, ?_⟩
      · intro k hk
        cases k with
        | zero => exact hzero.1
        | succ k => exact hn.before k (Nat.lt_of_succ_lt_succ hk)
      · exact hn.stop.imp_right fun hlast => by rw [hlast]
    · refine ⟨0, h, fun k hk => absurd hk (Nat.not_lt_zero k), ?_⟩
      by_cases hagain : again 0
      · have hlimit := not_and.1 hzero hagain
        exact Or.inr (by omega)
      · exact Or.inl hagain

end Retrying

/-! Branches of commands that act on separate parts of one shared state. -/

namespace Interleave

variable {ι σ γ ε ν : Type} [DecidableEq ι]

def stream (step : γ → σ → List ε × σ) (s : σ) : List γ → List ε × σ
  | [] => ([], s)
  | c :: cs =>
    let first := step c s
    let rest := stream step first.2 cs
    (first.1 ++ rest.1, rest.2)

def branch (i : ι) (run : List (ι × γ)) : List γ :=
  (run.filter fun x => decide (x.1 = i)).map Prod.snd

theorem branch_cons_self (i : ι) (c : γ) (run : List (ι × γ)) :
    branch i ((i, c) :: run) = c :: branch i run := by
  rw [branch, List.filter_cons_of_pos (by simp)]
  rfl

theorem branch_cons_ne {i j : ι} (h : i ≠ j) (c : γ) (run : List (ι × γ)) :
    branch j ((i, c) :: run) = branch j run := by
  rw [branch, List.filter_cons_of_neg (by simpa using h)]
  rfl

/-- A command acts on the part of its own branch as it would act alone, and on no other part. -/
structure Separated (step : γ → σ → List ε × σ) (inv : σ → Prop) (part : ι → σ → ν)
    (mine : ι → ε → Bool) (belongs : ι → γ → Prop) (ok : γ → σ → Prop) : Prop where
  keeps : ∀ i c s, belongs i c → inv s → ok c s → inv (step c s).2
  agrees : ∀ i c s t, belongs i c → inv s → inv t → part i s = part i t → ok c t → ok c s
  own : ∀ i c s t, belongs i c → inv s → inv t → part i s = part i t → ok c t →
    (step c s).1.filter (mine i) = (step c t).1.filter (mine i) ∧
      part i (step c s).2 = part i (step c t).2
  other : ∀ i j c s, belongs i c → inv s → ok c s → i ≠ j →
    (step c s).1.filter (mine j) = [] ∧ part j (step c s).2 = part j s

variable {step : γ → σ → List ε × σ} {inv : σ → Prop} {part : ι → σ → ν} {mine : ι → ε → Bool}
  {belongs : ι → γ → Prop} {ok : γ → σ → Prop}

theorem Separated.interleaving (h : Separated step inv part mine belongs ok) {run : List (ι × γ)}
    {s : σ} {t : ι → σ} (hs : inv s) (ht : ∀ i, inv (t i)) (hpart : ∀ i, part i s = part i (t i))
    (hrun : ∀ x ∈ run, belongs x.1 x.2)
    (hok : ∀ i, Run.Along (fun s c => (step c s).2) (fun s c _ => ok c s) (t i) (branch i run)) :
    inv (stream step s (run.map Prod.snd)).2 ∧
    (∀ i, inv (stream step (t i) (branch i run)).2) ∧
    ∀ i, (stream step s (run.map Prod.snd)).1.filter (mine i) =
        (stream step (t i) (branch i run)).1.filter (mine i) ∧
      part i (stream step s (run.map Prod.snd)).2 =
        part i (stream step (t i) (branch i run)).2 := by
  induction run generalizing s t with
  | nil => exact ⟨hs, ht, fun i => ⟨rfl, hpart i⟩⟩
  | cons x run ih =>
    obtain ⟨i, c⟩ := x
    have hb : belongs i c := hrun _ List.mem_cons_self
    have hi := hok i
    rw [branch_cons_self, Run.along_cons] at hi
    have hc : ok c s := h.agrees i c s (t i) hb hs (ht i) (hpart i) hi.1
    -- only the branch of the command moves
    let t' : ι → σ := Function.update t i (step c (t i)).2
    have ht'_self : t' i = (step c (t i)).2 := Function.update_self ..
    have ht'_ne : ∀ j, i ≠ j → t' j = t j := fun j hj => Function.update_of_ne hj.symm ..
    have hinv' : ∀ j, inv (t' j) := by
      intro j
      by_cases hj : i = j
      · subst hj
        rw [ht'_self]
        exact h.keeps i c _ hb (ht i) hi.1
      · rw [ht'_ne j hj]
        exact ht j
    have hpart' : ∀ j, part j (step c s).2 = part j (t' j) := by
      intro j
      by_cases hj : i = j
      · subst hj
        rw [ht'_self]
        exact (h.own i c s (t i) hb hs (ht i) (hpart i) hi.1).2
      · rw [ht'_ne j hj, (h.other i j c s hb hs hc hj).2]
        exact hpart j
    have hok' : ∀ j, Run.Along (fun s c => (step c s).2) (fun s c _ => ok c s) (t' j)
        (branch j run) := by
      intro j
      by_cases hj : i = j
      · subst hj
        rw [ht'_self]
        exact hi.2
      · rw [ht'_ne j hj, ← branch_cons_ne hj c run]
        exact hok j
    obtain ⟨h₁, h₂, h₃⟩ := ih (h.keeps i c s hb hs hc) hinv' hpart'
      (fun x hx => hrun x (List.mem_cons_of_mem _ hx)) hok'
    refine ⟨h₁, fun j => ?_, fun j => ?_⟩
    · by_cases hj : i = j
      · subst hj
        have hj' := h₂ i
        rw [ht'_self] at hj'
        rw [branch_cons_self]
        exact hj'
      · have hj' := h₂ j
        rw [ht'_ne j hj] at hj'
        rw [branch_cons_ne hj]
        exact hj'
    · obtain ⟨hevs, hlast⟩ := h₃ j
      rw [List.map_cons, stream, List.filter_append]
      by_cases hj : i = j
      · subst hj
        rw [ht'_self] at hevs hlast
        rw [branch_cons_self, stream, List.filter_append,
          (h.own i c s (t i) hb hs (ht i) (hpart i) hi.1).1, hevs]
        exact ⟨rfl, hlast⟩
      · rw [ht'_ne j hj] at hevs hlast
        rw [branch_cons_ne hj, (h.other i j c s hb hs hc hj).1, List.nil_append]
        exact ⟨hevs, hlast⟩

end Interleave

end Prismal.Lib

namespace Prismal.Lib
set_option autoImplicit true

/-! Loops that pass over a list until a pass changes nothing. -/

/-- `while raised: lower the flag, visit every item` -/
def saturate (visit : σ → α → σ) (raised : σ → Bool) (lower : σ → σ) (xs : List α) :
    Nat → σ → σ
  | 0, s => s
  | fuel + 1, s =>
    let s' := xs.foldl visit (lower s)
    if raised s' then saturate visit raised lower xs fuel s' else s'

def Settling (visit : σ → α → σ) (raised : σ → Bool) (μ : σ → Nat) (xs : List α) : Prop :=
  ∀ s, ∀ x ∈ xs, visit s x = s ∨ raised (visit s x) = true ∧ μ (visit s x) < μ s

def Lowers (raised : σ → Bool) (lower : σ → σ) (μ : σ → Nat) : Prop :=
  ∀ s, raised (lower s) = false ∧ μ (lower s) = μ s

variable {visit : σ → α → σ} {raised : σ → Bool} {lower : σ → σ} {μ : σ → Nat} {xs : List α}

theorem Settling.tail (h : Settling visit raised μ (x :: xs)) : Settling visit raised μ xs :=
  fun s y hy => h s y (List.mem_cons_of_mem x hy)

theorem Settling.pass (h : Settling visit raised μ xs) (s : σ) :
    (∀ x ∈ xs, visit s x = s) ∧ xs.foldl visit s = s ∨
      raised (xs.foldl visit s) = true ∧ μ (xs.foldl visit s) < μ s := by
  induction xs generalizing s with
  | nil => exact Or.inl ⟨List.forall_mem_nil _, rfl⟩
  | cons x xs ih =>
    rw [List.foldl_cons]
    rcases h s x List.mem_cons_self with hx | ⟨hr, hlt⟩
    · rw [hx]
      apply (ih h.tail s).imp_left
      rintro ⟨hall, hfold⟩
      exact ⟨List.forall_mem_cons.2 ⟨hx, hall⟩, hfold⟩
    · right
      rcases ih h.tail (visit s x) with ⟨-, hfold⟩ | ⟨hr', hlt'⟩
      · rw [hfold]
        exact ⟨hr, hlt⟩
      · exact ⟨hr', Nat.lt_trans hlt' hlt⟩

theorem Settling.saturated (h : Settling visit raised μ xs) (hl : Lowers raised lower μ)
    (hfuel : μ s < fuel) :
    raised (saturate visit raised lower xs fuel s) = false ∧
      ∀ x ∈ xs, visit (saturate visit raised lower xs fuel s) x =
        saturate visit raised lower xs fuel s := by
  induction fuel generalizing s with
  | zero => omega
  | succ fuel ih =>
    obtain ⟨hlow, hμ⟩ := hl s
    rw [saturate]
    rcases h.pass (lower s) with ⟨hall, hfold⟩ | ⟨hr, hlt⟩
    · rw [hfold, if_neg (by simp [hlow])]
      exact ⟨hlow, hall⟩
    · rw [if_pos hr]
      apply ih
      omega

theorem Settling.saturate_congr (h : Settling visit raised μ xs) (hl : Lowers raised lower μ)
    (hfuel : μ s < fuel) (hfuel' : μ s < fuel') :
    saturate visit raised lower xs fuel s = saturate visit raised lower xs fuel' s := by
  induction fuel generalizing s fuel' with
  | zero => omega
  | succ fuel ih =>
    cases fuel' with
    | zero => omega
    | succ fuel' =>
      have hμ := (hl s).2
      rw [saturate, saturate]
      rcases h.pass (lower s) with ⟨-, hfold⟩ | ⟨hr, hlt⟩
      · rw [hfold, if_neg (by simp [(hl s).1]), if_neg (by simp [(hl s).1])]
      · rw [if_pos hr, if_pos hr]
        apply ih
        · omega
        · omega

theorem saturate_of_visit {P : σ → Prop} (hlower : ∀ s, P s → P (lower s))
    (hvisit : ∀ s, ∀ x ∈ xs, P s → P (visit s x)) (hs : P s) (fuel : Nat) :
    P (saturate visit raised lower xs fuel s) := by
  have hpass : ∀ (ys : List α) (s : σ), (∀ y ∈ ys, y ∈ xs) → P s → P (ys.foldl visit s) := by
    intro ys
    induction ys with
    | nil => exact fun s _ hs => hs
    | cons y ys ih =>
      intro s hsub hs
      rw [List.forall_mem_cons] at hsub
      exact ih _ hsub.2 (hvisit s y hsub.1 hs)
  induction fuel generalizing s with
  | zero => exact hs
  | succ fuel ih =>
    have hp := hpass xs (lower s) (fun _ h => h) (hlower s hs)
    rw [saturate]
    split
    · exact ih hp
    · exact hp

end Prismal.Lib
