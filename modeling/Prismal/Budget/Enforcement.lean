import Mathlib.Data.List.MinMax
import Prismal.Budget.Guard

namespace Prismal.Budget
set_option autoImplicit true

/-! Cutoffs over a run: what a guard names, and what it never takes back. -/

structure BudgetExceeded where
  dimension : Dimension
  used : Rat
  limit : Rat

namespace BudgetGuard

/-- `enforce`: the action that is audited, and what is returned or raised. -/
def enforce (g : BudgetGuard) (hardCap : Bool) (u : Usage) :
    Option String × Except BudgetExceeded BudgetStatus :=
  let status := g.check u
  let d := status.breachedDimension.getD .tokens
  if status.hardExceeded then
    (some "abort", if hardCap then .error ⟨d, u.used d, g.budget.limit d⟩ else .ok status)
  else (if status.softExceeded then some "degrade" else none, .ok status)

variable {g : BudgetGuard} {u u' : Usage}

def ratio (g : BudgetGuard) (u : Usage) (d : Dimension) : Rat := u.used d / g.budget.limit d

def Reached (g : BudgetGuard) (u : Usage) (d : Dimension) : Prop :=
  0 < g.budget.limit d ∧ g.budget.limit d ≤ u.used d

/-- Past the soft ratio, and short of the limit. -/
def Pressed (g : BudgetGuard) (u : Usage) (d : Dimension) : Prop :=
  0 < g.budget.limit d ∧ u.used d < g.budget.limit d ∧ g.softRatio ≤ g.ratio u d

instance : DecidablePred (g.Reached u) := fun _ => inferInstanceAs (Decidable (_ ∧ _))

instance : DecidablePred (g.Pressed u) := fun _ => inferInstanceAs (Decidable (_ ∧ _))

/-- The first of the dimensions with the greatest ratio. -/
def worst (g : BudgetGuard) (u : Usage) (ds : List Dimension) : Option (Dimension × Rat) :=
  (List.argmax (g.ratio u) ds).map fun d => (d, g.ratio u d)

theorem worst_concat (ds : List Dimension) (d : Dimension) : g.worst u (ds ++ [d]) =
    if (g.worst u ds).all fun h => decide (h.2 < g.ratio u d) then some (d, g.ratio u d)
    else g.worst u ds := by
  rw [worst, worst, List.argmax_concat]
  cases List.argmax (g.ratio u) ds with
  | none => rfl
  | some e =>
    change Option.map _ (if g.ratio u e < g.ratio u d then some d else some e) =
      if decide (g.ratio u e < g.ratio u d) = true then _ else _
    simp only [decide_eq_true_eq]
    exact apply_ite _ _ _ _

theorem foldl_weigh_eq (ds : List Dimension) : ds.foldl (g.weigh u) {} =
    ⟨g.worst u (ds.filter (g.Reached u)), g.worst u (ds.filter (g.Pressed u))⟩ := by
  induction ds using List.reverseRecOn with
  | nil => rfl
  | append_singleton ds d ih =>
    rw [List.foldl_append, List.foldl_cons, List.foldl_nil, ih, weigh, ← ratio, List.filter_append,
      List.filter_append, List.filter_singleton, List.filter_singleton]
    by_cases hlimit : g.budget.limit d ≤ 0
    · have hreached : ¬g.Reached u d := fun h => absurd h.1 hlimit.not_gt
      have hpressed : ¬g.Pressed u d := fun h => absurd h.1 hlimit.not_gt
      simp [hlimit, hreached, hpressed]
    · have hpos := lt_of_not_ge hlimit
      by_cases hused : g.budget.limit d ≤ u.used d
      · have hreached : g.Reached u d := ⟨hpos, hused⟩
        have hpressed : ¬g.Pressed u d := fun h => absurd hused h.2.1.not_ge
        simp only [hlimit, hused, hreached, hpressed, if_true, if_false, decide_true,
          decide_false, cond_true, cond_false, worst_concat, List.append_nil]
        split <;> rfl
      · have hreached : ¬g.Reached u d := fun h => hused h.2
        by_cases hratio : g.softRatio ≤ g.ratio u d
        · have hpressed : g.Pressed u d := ⟨hpos, lt_of_not_ge hused, hratio⟩
          simp only [hlimit, hused, hreached, hpressed, hratio, if_false, decide_true,
            decide_false, cond_true, cond_false, worst_concat, List.append_nil, Bool.true_and]
          split <;> rfl
        · have hpressed : ¬g.Pressed u d := fun h => hratio h.2.2
          simp [hlimit, hused, hreached, hpressed, hratio]

/-- What has been spent after some records. -/
def spent (spends : List Spend) : Usage := spends.foldl (fun u s => u + s.usage) {}

theorem used_le_add (u : Usage) (s : Spend) (d : Dimension) : u.used d ≤ (u + s.usage).used d := by
  have hcolumn : ∀ c, u.column c ≤ (u + s.usage).column c := by
    intro c
    rw [Usage.column_add]
    exact le_add_of_nonneg_right (s.nonneg c)
  cases d with
  | tokens =>
    have hsum := add_le_add (hcolumn .promptTokens) (hcolumn .completionTokens)
    simp only [Usage.used, Usage.totalTokens, Int.cast_add]
    exact hsum
  | cost => exact hcolumn .costUsd
  | calls => exact hcolumn .calls
  | wallClock => exact hcolumn .wallClockS

theorem used_le_spent (before later : List Spend) (d : Dimension) :
    (spent before).used d ≤ (spent (before ++ later)).used d := by
  induction later using List.reverseRecOn with
  | nil => rw [List.append_nil]
  | append_singleton later s ih =>
    have hspent : spent (before ++ (later ++ [s])) = spent (before ++ later) + s.usage := by
      rw [spent, ← List.append_assoc, List.foldl_append]
      rfl
    rw [hspent]
    exact ih.trans (used_le_add _ s d)

theorem check_eq (g : BudgetGuard) (u : Usage) : g.check u =
    match List.argmax (g.ratio u) (dimensions.filter (g.Reached u)),
      List.argmax (g.ratio u) (dimensions.filter (g.Pressed u)) with
    | some d, _ => ⟨false, false, true, some d⟩
    | none, some d => ⟨false, true, false, some d⟩
    | none, none => ⟨true, false, false, none⟩ := by
  rw [check, foldl_weigh_eq]
  simp only [worst]
  cases List.argmax (g.ratio u) (dimensions.filter (g.Reached u)) with
  | some d => rfl
  | none =>
    cases List.argmax (g.ratio u) (dimensions.filter (g.Pressed u)) with
    | some d => rfl
    | none => rfl

theorem argmax_none {p : Dimension → Prop} [DecidablePred p] {f : Dimension → Rat} :
    List.argmax f (dimensions.filter p) = none ↔ ∀ d, ¬p d := by
  rw [List.argmax_eq_none, List.filter_eq_nil_iff]
  exact ⟨fun h d hd => h d (mem_dimensions d) (decide_eq_true hd),
    fun h d _ hd => h d (of_decide_eq_true hd)⟩

theorem within_iff : (g.check u).within = true ↔ ∀ d, ¬g.Reached u d ∧ ¬g.Pressed u d := by
  rw [forall_and, ← argmax_none (f := g.ratio u), ← argmax_none (f := g.ratio u), check_eq]
  cases List.argmax (g.ratio u) (dimensions.filter (g.Reached u)) with
  | some d => exact iff_of_false Bool.false_ne_true fun h => nomatch h.1
  | none =>
    cases List.argmax (g.ratio u) (dimensions.filter (g.Pressed u)) with
    | some d => exact iff_of_false Bool.false_ne_true fun h => nomatch h.2
    | none => exact iff_of_true rfl ⟨rfl, rfl⟩

theorem raises_iff {hardCap : Bool} {e : BudgetExceeded} :
    (g.enforce hardCap u).2 = .error e ↔ hardCap = true ∧
      List.argmax (g.ratio u) (dimensions.filter (g.Reached u)) = some e.dimension ∧
      e.used = u.used e.dimension ∧ e.limit = g.budget.limit e.dimension := by
  obtain ⟨d', used, limit⟩ := e
  rw [enforce, check_eq]
  cases List.argmax (g.ratio u) (dimensions.filter (g.Reached u)) with
  | none =>
    apply iff_of_false _ fun h => nomatch h.2.1
    cases List.argmax (g.ratio u) (dimensions.filter (g.Pressed u)) with
    | none => exact fun h => nomatch h
    | some d => exact fun h => nomatch h
  | some d =>
    cases hardCap with
    | false => exact iff_of_false (fun h => nomatch h) fun h => nomatch h.1
    | true =>
      simp only [if_true, Option.getD_some, Except.error.injEq, BudgetExceeded.mk.injEq,
        Option.some.injEq, true_and]
      apply Iff.intro
      · intro h
        obtain ⟨rfl, rfl, rfl⟩ := h
        exact ⟨rfl, rfl, rfl⟩
      · intro h
        obtain ⟨rfl, rfl, rfl⟩ := h
        exact ⟨rfl, rfl, rfl⟩

/-- The hard cap is final, and a budget that was pressed is never within again. An error names the
first of the dimensions with the greatest ratio. -/
theorem enforce_exact (g : BudgetGuard) (hardCap : Bool) (before later : List Spend) :
    (∀ e, (g.enforce hardCap (spent before)).2 = .error e ↔ hardCap = true ∧
      List.argmax (g.ratio (spent before)) (dimensions.filter (g.Reached (spent before))) =
        some e.dimension ∧ e.used = (spent before).used e.dimension ∧
      e.limit = g.budget.limit e.dimension) ∧
    ((∃ e, (g.enforce hardCap (spent before)).2 = .error e) →
      ∃ e, (g.enforce hardCap (spent (before ++ later))).2 = .error e) ∧
    ((g.check (spent (before ++ later))).within = true →
      (g.check (spent before)).within = true) := by
  have hmono : ∀ d, g.Reached (spent before) d → g.Reached (spent (before ++ later)) d :=
    fun d h => ⟨h.1, h.2.trans (used_le_spent before later d)⟩
  refine ⟨fun e => raises_iff, ?_, ?_⟩
  · intro h
    obtain ⟨e, he⟩ := h
    obtain ⟨hcap, hworst, _⟩ := raises_iff.1 he
    have hreached := of_decide_eq_true (List.mem_filter.1 (List.argmax_mem hworst)).2
    cases hlater : List.argmax (g.ratio (spent (before ++ later)))
        (dimensions.filter (g.Reached (spent (before ++ later)))) with
    | none => exact absurd (hmono _ hreached) (argmax_none.1 hlater _)
    | some d =>
      exact ⟨⟨d, (spent (before ++ later)).used d, g.budget.limit d⟩,
        raises_iff.2 ⟨hcap, hlater, rfl, rfl⟩⟩
  · intro h
    rw [within_iff] at h ⊢
    intro d
    apply And.intro
    · intro hreached
      exact (h d).1 (hmono d hreached)
    · intro hpressed
      obtain ⟨hpos, _, hsoft⟩ := hpressed
      have hgrown := used_le_spent before later d
      by_cases hused : g.budget.limit d ≤ (spent (before ++ later)).used d
      · exact (h d).1 ⟨hpos, hused⟩
      · exact (h d).2 ⟨hpos, lt_of_not_ge hused,
          hsoft.trans (div_le_div_of_nonneg_right hgrown hpos.le)⟩

end BudgetGuard

end Prismal.Budget
