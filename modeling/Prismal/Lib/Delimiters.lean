import Mathlib.Data.List.Infix

namespace Prismal.Lib
set_option autoImplicit true

/-! Texts that are told apart by the delimiters between them. -/

variable {α : Type u} {s t p q a b : List α}

/-- No occurrence of either that begins before one of the other reaches into it. -/
structure Apart (s t : List α) : Prop where
  before : ∀ y ∈ s.tail.tails, y ≠ [] → ¬ y <+: t ∧ ¬ t <+: y
  inside : ∀ x ∈ t.tail.tails, x ≠ [] → ¬ x <+: s ∧ ¬ s <+: x

instance [DecidableEq α] : Decidable (Apart s t) :=
  decidable_of_iff
    ((∀ y ∈ s.tail.tails, y ≠ [] → ¬ y <+: t ∧ ¬ t <+: y) ∧
      ∀ x ∈ t.tail.tails, x ≠ [] → ¬ x <+: s ∧ ¬ s <+: x)
    ⟨fun h => ⟨h.1, h.2⟩, fun h => ⟨h.before, h.inside⟩⟩

theorem Apart.symm (h : Apart s t) : Apart t s := ⟨h.inside, h.before⟩

theorem prefix_of_append_eq (h : s ++ q = t ++ b) : s <+: t ∨ t <+: s := by
  rcases List.append_eq_append_iff.1 h with ⟨c, rfl, -⟩ | ⟨c, rfl, -⟩
  · exact Or.inl (List.prefix_append _ _)
  · exact Or.inr (List.prefix_append _ _)

/-- The boundary between `a` and `b` stands further on than the one between `s` and `t`. -/
def Shifted (a b s t : List α) : Prop := ∃ u, u ≠ [] ∧ a = s ++ u ∧ t = u ++ b

theorem Shifted.append (h : Shifted a b s t) : a ++ b = s ++ t := by
  obtain ⟨u, hu, rfl, rfl⟩ := h
  exact List.append_assoc s u b

theorem Shifted.ne (h : Shifted a b s t) : a ≠ s := by
  obtain ⟨u, hu, rfl, rfl⟩ := h
  intro heq
  exact hu (List.append_right_eq_self.1 heq)

theorem shifted_of_append (h : a ++ b = s ++ t) :
    (a = s ∧ b = t) ∨ Shifted a b s t ∨ Shifted s t a b := by
  rcases List.append_eq_append_iff.1 h with ⟨u, rfl, rfl⟩ | ⟨u, rfl, rfl⟩
  · cases u with
    | nil => exact Or.inl ⟨(List.append_nil a).symm, rfl⟩
    | cons c u => exact Or.inr (Or.inr ⟨c :: u, List.cons_ne_nil c u, rfl, rfl⟩)
  · cases u with
    | nil => exact Or.inl ⟨List.append_nil s, rfl⟩
    | cons c u => exact Or.inr (Or.inl ⟨c :: u, List.cons_ne_nil c u, rfl, rfl⟩)

theorem mem_tails_tail (hk : k ≠ []) (h : s = k ++ y) : y ∈ s.tail.tails := by
  rw [List.mem_tails]
  cases k with
  | nil => exact absurd rfl hk
  | cons c k =>
    subst h
    exact List.suffix_append k y

theorem Apart.ends_before (h : Apart s t) (hk : k ≠ []) (heq : s ++ q = k ++ (t ++ b)) :
    ∃ c, k = s ++ c := by
  rcases List.append_eq_append_iff.1 heq with ⟨c, hc, -⟩ | ⟨y, hy, hq⟩
  · exact ⟨c, hc⟩
  · cases y with
    | nil => exact ⟨[], by rw [hy, List.append_nil, List.append_nil]⟩
    | cons c y =>
      have hnone := h.before _ (mem_tails_tail hk hy) (List.cons_ne_nil c y)
      rcases prefix_of_append_eq hq.symm with hprefix | hprefix
      · exact absurd hprefix hnone.1
      · exact absurd hprefix hnone.2

theorem Apart.cases (h : Apart s t) (heq : p ++ (s ++ q) = a ++ (t ++ b)) :
    (∃ c, a = p ++ s ++ c) ∨ p = a ∨ ∃ c, p = a ++ t ++ c := by
  rcases List.append_eq_append_iff.1 heq with ⟨k, rfl, hk⟩ | ⟨k, rfl, hk⟩
  · by_cases hnil : k = []
    · subst hnil
      exact Or.inr (Or.inl (List.append_nil p).symm)
    · obtain ⟨c, rfl⟩ := h.ends_before hnil hk
      exact Or.inl ⟨c, (List.append_assoc p s c).symm⟩
  · by_cases hnil : k = []
    · subst hnil
      exact Or.inr (Or.inl (List.append_nil a))
    · obtain ⟨c, rfl⟩ := h.symm.ends_before hnil hk
      exact Or.inr (Or.inr ⟨c, (List.append_assoc a t c).symm⟩)

theorem Apart.last_unique (h : Apart s s) (hq : ¬ s <:+: q) (hb : ¬ s <:+: b)
    (heq : p ++ (s ++ q) = a ++ (s ++ b)) : p = a ∧ q = b := by
  rcases h.cases heq with ⟨c, rfl⟩ | rfl | ⟨c, rfl⟩
  · rw [List.append_assoc, List.append_assoc] at heq
    have hrest := List.append_cancel_left (List.append_cancel_left heq)
    exact absurd ⟨c, b, by rw [hrest, List.append_assoc]⟩ hq
  · exact ⟨rfl, List.append_cancel_left (List.append_cancel_left heq)⟩
  · rw [List.append_assoc, List.append_assoc] at heq
    have hrest := List.append_cancel_left (List.append_cancel_left heq)
    exact absurd ⟨c, q, by rw [← hrest, List.append_assoc]⟩ hb

theorem Apart.first_le (h : Apart s s) (hp : ¬ s <:+: p) (heq : p ++ (s ++ q) = a ++ (s ++ b)) :
    p <+: a := by
  rcases h.cases heq with ⟨c, rfl⟩ | rfl | ⟨c, rfl⟩
  · exact ⟨s ++ c, (List.append_assoc p s c).symm⟩
  · exact List.prefix_refl p
  · exact absurd ⟨a, c, rfl⟩ hp

theorem Apart.not_infix_append (h : Apart s t) (hst : ¬ s <+: t) (hts : ¬ t <+: s)
    (ha : ¬ s <:+: a) (hb : ¬ s <:+: b) : ¬ s <:+: a ++ (t ++ b) := by
  rintro ⟨p, q, heq⟩
  rw [List.append_assoc] at heq
  rcases h.cases heq with ⟨c, rfl⟩ | rfl | ⟨c, rfl⟩
  · exact ha ⟨p, c, rfl⟩
  · rcases prefix_of_append_eq (List.append_cancel_left heq) with hprefix | hprefix
    · exact hst hprefix
    · exact hts hprefix
  · rw [List.append_assoc, List.append_assoc] at heq
    have hrest := List.append_cancel_left (List.append_cancel_left heq)
    exact hb ⟨c, q, by rw [← hrest, List.append_assoc]⟩

theorem not_infix_nil (hs : s ≠ []) : ¬ s <:+: [] := fun h => hs (List.infix_nil.1 h)

theorem infix_intercalate {ds : List (List α)} (hd : d ∈ ds) (s : List α) :
    d <:+: s.intercalate ds := by
  induction ds with
  | nil => cases hd
  | cons e es ih =>
    cases es with
    | nil =>
      rw [List.intercalate_singleton, List.mem_singleton.1 hd]
    | cons e' es =>
      rw [List.intercalate_cons_cons]
      cases hd with
      | head => exact ((List.prefix_append _ _).trans (List.prefix_append _ _)).isInfix
      | tail _ hd => exact (ih hd).trans (List.suffix_append _ _).isInfix

theorem Apart.not_infix_intercalate (h : Apart s t) (hs : s ≠ []) (hst : ¬ s <+: t)
    (hts : ¬ t <+: s) {ds : List (List α)} (hds : ∀ d ∈ ds, ¬ s <:+: d) :
    ¬ s <:+: t.intercalate ds := by
  induction ds with
  | nil => exact not_infix_nil hs
  | cons d ds ih =>
    obtain ⟨hd, hrest⟩ := List.forall_mem_cons.1 hds
    cases ds with
    | nil =>
      rw [List.intercalate_singleton]
      exact hd
    | cons e es =>
      rw [List.intercalate_cons_cons, List.append_assoc]
      exact h.not_infix_append hst hts hd (ih hrest)

theorem Apart.intercalate_injective (h : Apart s s) {ds es : List (List α)} (hd : ds ≠ [])
    (he : es ≠ []) (hds : ∀ d ∈ ds, ¬ s <:+: d) (hes : ∀ e ∈ es, ¬ s <:+: e)
    (heq : s.intercalate ds = s.intercalate es) : ds = es := by
  induction ds generalizing es with
  | nil => exact absurd rfl hd
  | cons d ds ih =>
    cases es with
    | nil => exact absurd rfl he
    | cons e es =>
      obtain ⟨hd', hrest⟩ := List.forall_mem_cons.1 hds
      obtain ⟨he', hrest'⟩ := List.forall_mem_cons.1 hes
      cases ds with
      | nil =>
        cases es with
        | nil =>
          rw [List.intercalate_singleton, List.intercalate_singleton] at heq
          rw [heq]
        | cons e₂ es =>
          rw [List.intercalate_singleton, List.intercalate_cons_cons] at heq
          exact absurd ⟨e, _, heq.symm⟩ hd'
      | cons d₂ ds =>
        cases es with
        | nil =>
          rw [List.intercalate_singleton, List.intercalate_cons_cons] at heq
          exact absurd ⟨d, _, heq⟩ he'
        | cons e₂ es =>
          rw [List.intercalate_cons_cons, List.intercalate_cons_cons, List.append_assoc,
            List.append_assoc] at heq
          rcases h.cases heq with ⟨c, rfl⟩ | rfl | ⟨c, rfl⟩
          · exact absurd ⟨d, c, rfl⟩ he'
          · have htail := List.append_cancel_left (List.append_cancel_left heq)
            rw [ih (List.cons_ne_nil d₂ ds) (List.cons_ne_nil e₂ es) hrest hrest' htail]
          · exact absurd ⟨e, c, rfl⟩ hd'

end Prismal.Lib
