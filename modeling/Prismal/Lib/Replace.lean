import Prismal.Lib.Regex

namespace Prismal.Lib
set_option autoImplicit true

/-! Searching a text for expressions, and replacing what they match. -/

namespace Regex

def nullable : Regex → Bool
  | one _ => false
  | lineStart => true
  | boundary => true
  | seq r s => r.nullable && s.nullable
  | alt r s => r.nullable || s.nullable
  | many _ least _ => least == 0

def mayStart (c : Char) : Regex → Bool
  | one k => k.has c
  | lineStart => false
  | boundary => false
  | seq r s => r.mayStart c || (r.nullable && s.mayStart c)
  | alt r s => r.mayStart c || s.mayStart c
  | many k _ _ => k.has c

end Regex

structure Pattern where
  expr : Regex
  nonempty : expr.nullable = false

namespace Pattern
variable (A : Alphabet α) (p : Pattern)

/-- `search`, from a position on. -/
def foundFrom : Option α → List α → Bool
  | _, [] => false
  | prev, a :: t => !(p.expr.ends A ⟨prev, a :: t⟩).isEmpty || foundFrom (some a) t

/-- `search` -/
def found (t : List α) : Bool := p.foundFrom A none t

def span (c : Cursor α) : Option Nat :=
  (p.expr.ends A c).head?.map fun d => c.rest.length - d.rest.length

/-- `sub`, past the symbols of the match before. -/
def subFrom (r : List α) : Nat → Option α → List α → List α
  | _, _, [] => []
  | n + 1, _, a :: t => subFrom r n (some a) t
  | 0, prev, a :: t =>
    match p.span A ⟨prev, a :: t⟩ with
    | some n => r ++ subFrom r (n - 1) (some a) t
    | none => a :: subFrom r 0 (some a) t

/-- `sub`: every match, from left to right, gives way to a text. -/
def sub (r t : List α) : List α := p.subFrom A r 0 none t

end Pattern

def subAll (A : Alphabet α) (r : List α) (ps : List Pattern) (t : List α) : List α :=
  ps.foldl (fun t p => p.sub A r t) t

variable {A : Alphabet α} {p : Pattern}

namespace Regex

theorem nullable_of_matches {r : Regex} (h : r.Matches A prev [] next) : r.nullable = true := by
  induction r generalizing prev next with
  | one k =>
    obtain ⟨a, ha, _⟩ := h
    cases ha
  | lineStart => rfl
  | boundary => rfl
  | seq r s ihr ihs =>
    obtain ⟨u, v, huv, hr, hs⟩ := h
    obtain ⟨rfl, rfl⟩ := List.append_eq_nil_iff.1 huv.symm
    rw [nullable, ihr hr, ihs hs]
    rfl
  | alt r s ihr ihs =>
    rw [nullable, Bool.or_eq_true]
    cases h with
    | inl hr => exact Or.inl (ihr hr)
    | inr hs => exact Or.inr (ihs hs)
  | many k least most =>
    rw [nullable, beq_iff_eq]
    exact Nat.le_zero.1 h.1

theorem mayStart_of_matches {r : Regex} (h : r.Matches A prev (a :: w) next) :
    r.mayStart (A.char a) = true := by
  induction r generalizing prev w next with
  | one k =>
    obtain ⟨b, hb, hk⟩ := h
    cases hb
    exact hk
  | lineStart => cases h.1
  | boundary => cases h.1
  | seq r s ihr ihs =>
    rw [mayStart, Bool.or_eq_true, Bool.and_eq_true]
    obtain ⟨u, v, huv, hr, hs⟩ := h
    cases u with
    | nil =>
      rw [List.nil_append] at huv
      rw [← huv] at hs
      exact Or.inr ⟨nullable_of_matches hr, ihs hs⟩
    | cons b u =>
      rw [List.cons_append, List.cons.injEq] at huv
      rw [← huv.1] at hr
      exact Or.inl (ihr hr)
  | alt r s ihr ihs =>
    rw [mayStart, Bool.or_eq_true]
    cases h with
    | inl hr => exact Or.inl (ihr hr)
    | inr hs => exact Or.inr (ihs hs)
  | many k least most => exact h.2.2 a List.mem_cons_self

end Regex

namespace Pattern

theorem matches_cons (h : p.expr.Matches A prev w next) : ∃ a u, w = a :: u := by
  cases w with
  | nil =>
    have hnull := Regex.nullable_of_matches h
    rw [p.nonempty] at hnull
    cases hnull
  | cons a u => exact ⟨a, u, rfl⟩

theorem span_eq_none : p.span A c = none ↔ p.expr.ends A c = [] := by
  rw [span, Option.map_eq_none_iff, List.head?_eq_none_iff]

theorem not_matches_of_ends (h : p.expr.ends A ⟨prev, w ++ t⟩ = []) :
    ¬ p.expr.Matches A prev w t.head? := by
  intro hm
  have hmem : (⟨w.getLast?.or prev, t⟩ : Cursor α) ∈ p.expr.ends A ⟨prev, w ++ t⟩ :=
    Regex.mem_ends.2 ⟨w, rfl, rfl, hm⟩
  rw [h] at hmem
  cases hmem

theorem mayStart_of_ends (h : p.expr.ends A ⟨prev, a :: t⟩ ≠ []) :
    p.expr.mayStart (A.char a) = true := by
  obtain ⟨d, hd⟩ := List.exists_mem_of_ne_nil _ h
  obtain ⟨w, hw, _, hm⟩ := Regex.mem_ends.1 hd
  obtain ⟨b, u, rfl⟩ := matches_cons hm
  cases hw
  exact Regex.mayStart_of_matches hm

theorem subFrom_first (hb : p.expr.mayStart (A.char b) = false) (prev : Option α) (t : List α) :
    (p.foundFrom A prev t = false ∧ p.subFrom A (b :: r) 0 prev t = t) ∨
      ∃ u d v v', t = u ++ d :: v ∧ p.subFrom A (b :: r) 0 prev t = u ++ b :: v' ∧
        A.char d ≠ A.char b := by
  induction t generalizing prev with
  | nil => exact Or.inl ⟨rfl, rfl⟩
  | cons a t ih =>
    rw [foundFrom, subFrom]
    cases hspan : p.span A ⟨prev, a :: t⟩ with
    | none =>
      rw [span_eq_none.1 hspan]
      cases ih (some a) with
      | inl h => exact Or.inl ⟨h.1, by rw [h.2]⟩
      | inr h =>
        obtain ⟨u, d, v, v', ht, hsub, hd⟩ := h
        exact Or.inr ⟨a :: u, d, v, v', by rw [ht]; rfl, by rw [hsub]; rfl, hd⟩
    | some n =>
      right
      refine ⟨[], a, t, r ++ p.subFrom A (b :: r) (n - 1) (some a) t, rfl, rfl, ?_⟩
      intro heq
      have hends : p.expr.ends A ⟨prev, a :: t⟩ ≠ [] := by
        intro hnil
        rw [span_eq_none.2 hnil] at hspan
        cases hspan
      rw [← heq, mayStart_of_ends hends] at hb
      cases hb

theorem sub_of_not_found (h : p.found A t = false) : p.sub A r t = t := by
  rw [sub]
  rw [found] at h
  generalize (none : Option α) = prev at h ⊢
  induction t generalizing prev with
  | nil => rfl
  | cons a t ih =>
    rw [foundFrom, Bool.or_eq_false_iff, Bool.not_eq_false'] at h
    have hspan := span_eq_none.2 (List.isEmpty_iff.1 h.1)
    rw [subFrom, hspan, ih (some a) h.2]

end Pattern

def Diverges (A : Alphabet α) (b : α) (s t : List α) : Prop :=
  ∃ u d v v', s = u ++ d :: v ∧ t = u ++ b :: v' ∧ A.char d ≠ A.char b

theorem Diverges.ne (h : Diverges A b s t) : t ≠ s := by
  obtain ⟨u, d, v, v', rfl, rfl, hd⟩ := h
  intro heq
  rw [List.append_cancel_left_eq, List.cons.injEq] at heq
  exact hd (by rw [heq.1])

theorem Diverges.sub (h : Diverges A b s t) (hb : p.expr.mayStart (A.char b) = false) :
    Diverges A b s (p.sub A (b :: r) t) := by
  obtain ⟨u, d, v, v', hs, ht, hd⟩ := h
  cases Pattern.subFrom_first (r := r) hb none t with
  | inl hsame =>
    rw [Pattern.sub, hsame.2]
    exact ⟨u, d, v, v', hs, ht, hd⟩
  | inr hfirst =>
    obtain ⟨u₁, d₁, v₁, v₁', ht₁, hsub, hd₁⟩ := hfirst
    rw [Pattern.sub, hsub]
    rw [ht] at ht₁
    cases List.append_eq_append_iff.1 ht₁ with
    | inl hlong =>
      obtain ⟨w, rfl, hw⟩ := hlong
      cases w with
      | nil =>
        cases hw
        exact absurd rfl hd₁
      | cons x w =>
        cases hw
        exact ⟨u, d, v, w ++ b :: v₁', hs, by simp, hd⟩
    | inr hshort =>
      obtain ⟨w, rfl, hw⟩ := hshort
      cases w with
      | nil =>
        cases hw
        exact absurd rfl hd₁
      | cons x w =>
        cases hw
        exact ⟨u₁, d₁, w ++ d :: v, v₁', by rw [hs]; simp, rfl, hd₁⟩

theorem Diverges.subAll (h : Diverges A b s t)
    (hb : ∀ p ∈ ps, p.expr.mayStart (A.char b) = false) :
    Diverges A b s (subAll A (b :: r) ps t) := by
  induction ps generalizing t with
  | nil => exact h
  | cons p ps ih =>
    exact ih (h.sub (hb p List.mem_cons_self)) fun q hq => hb q (List.mem_cons_of_mem _ hq)

theorem subAll_eq_self (hb : ∀ p ∈ ps, p.expr.mayStart (A.char b) = false) :
    subAll A (b :: r) ps t = t ↔ ∀ p ∈ ps, p.found A t = false := by
  induction ps with
  | nil => exact ⟨fun _ p hp => (by cases hp), fun _ => rfl⟩
  | cons p ps ih =>
    have hps : ∀ q ∈ ps, q.expr.mayStart (A.char b) = false :=
      fun q hq => hb q (List.mem_cons_of_mem _ hq)
    have hp := hb p List.mem_cons_self
    have hcons : subAll A (b :: r) (p :: ps) t = subAll A (b :: r) ps (p.sub A (b :: r) t) := rfl
    rw [hcons, List.forall_mem_cons]
    cases Pattern.subFrom_first (r := r) hp none t with
    | inl hsame =>
      rw [Pattern.sub, hsame.2, ih hps]
      exact ⟨fun h => ⟨hsame.1, h⟩, fun h => h.2⟩
    | inr hfirst =>
      obtain ⟨u, d, v, v', ht, hsub, hd⟩ := hfirst
      have hdiverges : Diverges A b t (p.sub A (b :: r) t) := ⟨u, d, v, v', ht, hsub, hd⟩
      apply Iff.intro
      · intro heq
        exact absurd heq (hdiverges.subAll hps).ne
      · intro hnone
        have hsame := Pattern.sub_of_not_found (r := b :: r) hnone.1
        exact absurd hsame hdiverges.ne

def Pattern.Only (A : Alphabet α) (p : Pattern) (fresh : α → Bool) (t : List α) : Prop :=
  ∀ s w e, t = s ++ w ++ e → p.expr.Matches A s.getLast? w e.head? →
    ∃ x ∈ s.getLast?.toList ++ w ++ e.head?.toList, fresh x = true

namespace Pattern
variable {fresh : α → Bool}

theorem subFrom_cons (hr : r ≠ []) (hfresh : ∀ x ∈ r, fresh x = true) (ha : fresh a = false)
    (h : p.subFrom A r 0 prev t = a :: s) :
    ∃ t', t = a :: t' ∧ p.expr.ends A ⟨prev, t⟩ = [] ∧ s = p.subFrom A r 0 (some a) t' := by
  cases t with
  | nil => cases h
  | cons b t =>
    rw [subFrom] at h
    cases hspan : p.span A ⟨prev, b :: t⟩ with
    | none =>
      rw [hspan] at h
      cases h
      exact ⟨t, rfl, span_eq_none.1 hspan, rfl⟩
    | some n =>
      rw [hspan] at h
      obtain ⟨x, r, rfl⟩ := List.exists_cons_of_ne_nil hr
      cases h
      rw [hfresh a List.mem_cons_self] at ha
      cases ha

theorem subFrom_nil (hr : r ≠ []) (h : p.subFrom A r 0 prev t = []) : t = [] := by
  cases t with
  | nil => rfl
  | cons b t =>
    rw [subFrom] at h
    cases hspan : p.span A ⟨prev, b :: t⟩ with
    | none =>
      rw [hspan] at h
      cases h
    | some n =>
      rw [hspan] at h
      exact absurd (List.append_eq_nil_iff.1 h).1 hr

theorem subFrom_split (hfresh : ∀ x ∈ r, fresh x = true) (ha : fresh a = false)
    (h : p.subFrom A r n prev t = s ++ a :: e) :
    ∃ s' t', t = s' ++ a :: t' ∧ e = p.subFrom A r 0 (some a) t' := by
  induction t generalizing n prev s with
  | nil =>
    rw [subFrom] at h
    cases (List.append_eq_nil_iff.1 h.symm).2
  | cons b t ih =>
    have hpast : ∀ m prev s, p.subFrom A r m prev t = s ++ a :: e →
        ∃ s' t', b :: t = s' ++ a :: t' ∧ e = p.subFrom A r 0 (some a) t' := by
      intro m prev s hm
      obtain ⟨s', t', ht, he⟩ := ih hm
      exact ⟨b :: s', t', by rw [ht]; rfl, he⟩
    cases n with
    | succ n => exact hpast _ _ _ h
    | zero =>
      rw [subFrom] at h
      cases hspan : p.span A ⟨prev, b :: t⟩ with
      | none =>
        rw [hspan] at h
        cases s with
        | nil =>
          cases h
          exact ⟨[], t, rfl, rfl⟩
        | cons c s =>
          rw [List.cons_append, List.cons.injEq] at h
          exact hpast _ _ s h.2
      | some m =>
        rw [hspan] at h
        cases List.append_eq_append_iff.1 h with
        | inl hlong =>
          obtain ⟨w, _, hw⟩ := hlong
          exact hpast _ _ w hw
        | inr hshort =>
          obtain ⟨w, hw, htail⟩ := hshort
          cases w with
          | nil =>
            rw [List.nil_append] at htail
            exact hpast _ _ [] htail.symm
          | cons c w =>
            cases htail
            have hmem : a ∈ r := by
              rw [hw]
              simp
            rw [hfresh a hmem] at ha
            cases ha

theorem subFrom_append (hr : r ≠ []) (hfresh : ∀ x ∈ r, fresh x = true)
    (hw : ∀ x ∈ w, fresh x = false) (he : ∀ x ∈ e.head?, fresh x = false)
    (h : p.subFrom A r 0 prev t = w ++ e) :
    ∃ e', t = w ++ e' ∧ e'.head? = e.head? := by
  induction w generalizing prev t with
  | nil =>
    cases e with
    | nil => exact ⟨t, rfl, by rw [subFrom_nil hr h]⟩
    | cons x e =>
      obtain ⟨t', rfl, _, _⟩ := subFrom_cons hr hfresh (he x rfl) h
      exact ⟨x :: t', rfl, rfl⟩
  | cons x w ih =>
    obtain ⟨t', rfl, _, hs⟩ := subFrom_cons hr hfresh (hw x List.mem_cons_self) h
    obtain ⟨e', rfl, he'⟩ := ih (fun y hy => hw y (List.mem_cons_of_mem _ hy)) hs.symm
    exact ⟨e', rfl, he'⟩

theorem sub_window (hr : r ≠ []) (hfresh : ∀ x ∈ r, fresh x = true)
    (h : p.sub A r t = s ++ a :: w ++ e)
    (hold : ∀ x ∈ s.getLast?.toList ++ a :: w ++ e.head?.toList, fresh x = false) :
    ∃ s' e', t = s' ++ a :: w ++ e' ∧ s'.getLast? = s.getLast? ∧ e'.head? = e.head? ∧
      p.expr.ends A ⟨s.getLast?, a :: w ++ e'⟩ = [] := by
  have hword : ∀ x ∈ a :: w, fresh x = false := by
    intro x hx
    exact hold x (List.mem_append_left _ (List.mem_append_right _ hx))
  have hnext : ∀ x ∈ e.head?, fresh x = false := by
    intro x hx
    exact hold x (List.mem_append_right _ (Option.mem_toList.2 hx))
  -- From where the symbol before the word stands, the pass reads the word itself.
  have hfrom : ∀ prev t, p.subFrom A r 0 prev t = a :: w ++ e →
      ∃ e', t = a :: w ++ e' ∧ e'.head? = e.head? ∧ p.expr.ends A ⟨prev, a :: w ++ e'⟩ = [] := by
    intro prev t ht
    obtain ⟨e', rfl, he'⟩ := subFrom_append hr hfresh hword hnext ht
    obtain ⟨_, _, hends, _⟩ := subFrom_cons hr hfresh (hword a List.mem_cons_self) ht
    exact ⟨e', rfl, he', hends⟩
  rw [List.append_assoc] at h
  cases hlast : s.getLast? with
  | none =>
    rw [List.getLast?_eq_none_iff] at hlast
    subst hlast
    obtain ⟨e', rfl, he', hends⟩ := hfrom none t h
    exact ⟨[], e', rfl, rfl, he', hends⟩
  | some x =>
    obtain ⟨s₀, rfl⟩ := List.getLast?_eq_some_iff.1 hlast
    have hx : fresh x = false := hold x (by rw [hlast]; simp)
    rw [List.append_assoc] at h
    obtain ⟨s', t', rfl, ht'⟩ := subFrom_split hfresh hx h
    obtain ⟨e', rfl, he', hends⟩ := hfrom (some x) t' ht'.symm
    exact ⟨s' ++ [x], e', by simp, by simp, he', hends⟩

theorem only_sub (hr : r ≠ []) (hfresh : ∀ x ∈ r, fresh x = true) (t : List α) :
    p.Only A fresh (p.sub A r t) := by
  intro s w e ht hm
  by_contra hnone
  obtain ⟨a, u, rfl⟩ := matches_cons hm
  obtain ⟨s', e', _, _, he', hends⟩ := sub_window hr hfresh ht fun x hx =>
    Bool.eq_false_of_not_eq_true fun htrue => hnone ⟨x, hx, htrue⟩
  rw [← he'] at hm
  exact not_matches_of_ends hends hm

theorem Only.sub (h : Pattern.Only A q fresh t) (hr : r ≠ []) (hfresh : ∀ x ∈ r, fresh x = true) :
    Pattern.Only A q fresh (p.sub A r t) := by
  intro s w e ht hm
  by_contra hnone
  obtain ⟨a, u, rfl⟩ := matches_cons hm
  obtain ⟨s', e', ht', hs', he', _⟩ := sub_window hr hfresh ht fun x hx =>
    Bool.eq_false_of_not_eq_true fun htrue => hnone ⟨x, hx, htrue⟩
  rw [← hs', ← he'] at hm hnone
  exact hnone (h s' (a :: u) e' ht' hm)

end Pattern

theorem only_subAll {fresh : α → Bool} (hr : r ≠ []) (hfresh : ∀ x ∈ r, fresh x = true)
    (hp : p ∈ ps) (t : List α) : p.Only A fresh (subAll A r ps t) := by
  have hkeep : ∀ ps t, p.Only A fresh t → p.Only A fresh (subAll A r ps t) := by
    intro ps
    induction ps with
    | nil => exact fun t h => h
    | cons q ps ih => exact fun t h => ih _ (h.sub hr hfresh)
  induction ps generalizing t with
  | nil => cases hp
  | cons q ps ih =>
    cases List.mem_cons.1 hp with
    | inl heq =>
      subst heq
      exact hkeep ps _ (Pattern.only_sub hr hfresh t)
    | inr hp => exact ih hp _

/-! Passes over symbols that stand for characters are passes over the characters. -/

section
variable {B : Alphabet β} {f : α → β} (hchar : ∀ a, B.char (f a) = A.char a)
  (hword : B.isWord = A.isWord)
include hchar hword

namespace Regex

theorem isWordAt_map (a : Option α) : B.isWordAt (a.map f) = A.isWordAt a := by
  cases a with
  | none => rfl
  | some a => rw [Option.map_some, Alphabet.isWordAt, Alphabet.isWordAt, hchar, hword]

omit hword in
theorem manyEnds_map (k : CharClass) (least : Nat) (most : Option Nat) (prev : Option α)
    (t : List α) : manyEnds B k least most (prev.map f) (t.map f) =
      (manyEnds A k least most prev t).map (Cursor.map f) := by
  induction t generalizing least most prev with
  | nil =>
    rw [List.map_nil, manyEnds, manyEnds]
    split <;> rfl
  | cons a t ih =>
    rw [List.map_cons, manyEnds, manyEnds, hchar, List.map_append]
    congr 1
    · split
      · exact ih (least - 1) (most.map (· - 1)) (some a)
      · rfl
    · split <;> rfl

theorem ends_map (r : Regex) (c : Cursor α) :
    r.ends B (c.map f) = (r.ends A c).map (Cursor.map f) := by
  induction r generalizing c with
  | one k =>
    rw [ends, ends, Cursor.map]
    cases c.rest with
    | nil => rfl
    | cons a t =>
      simp only [List.map_cons, hchar]
      split <;> rfl
  | lineStart =>
    have hline : (c.map f).prev.all (fun b => B.char b == '\n') =
        c.prev.all fun a => A.char a == '\n' := by
      rw [Cursor.map]
      cases c.prev <;> simp [hchar]
    rw [ends, ends, hline]
    split <;> rfl
  | boundary =>
    simp only [ends, Cursor.map, List.head?_map, isWordAt_map hchar hword]
    split <;> rfl
  | seq r s ihr ihs =>
    rw [ends, ends, ihr, List.flatMap_map, List.map_flatMap, funext ihs]
  | alt r s ihr ihs => rw [ends, ends, List.map_append, ihr, ihs]
  | many k least most => exact manyEnds_map hchar k least most c.prev c.rest

end Regex

theorem Pattern.subFrom_map (r : List α) (n : Nat) (prev : Option α) (t : List α) :
    p.subFrom B (r.map f) n (prev.map f) (t.map f) = (p.subFrom A r n prev t).map f := by
  induction t generalizing n prev with
  | nil => cases n <;> rfl
  | cons a t ih =>
    cases n with
    | succ n => exact ih n (some a)
    | zero =>
      have hspan : p.span B ⟨prev.map f, f a :: t.map f⟩ = p.span A ⟨prev, a :: t⟩ := by
        have hends := Regex.ends_map hchar hword p.expr ⟨prev, a :: t⟩
        rw [Cursor.map, List.map_cons] at hends
        rw [span, span, hends, List.head?_map, Option.map_map]
        simp [Function.comp_def, Cursor.map]
      rw [List.map_cons]
      rw [subFrom, subFrom, hspan]
      cases p.span A ⟨prev, a :: t⟩ with
      | none => exact congrArg _ (ih 0 (some a))
      | some m => exact (congrArg _ (ih (m - 1) (some a))).trans List.map_append.symm

theorem subAll_map (r : List α) (ps : List Pattern) (t : List α) :
    subAll B (r.map f) ps (t.map f) = (subAll A r ps t).map f := by
  induction ps generalizing t with
  | nil => rfl
  | cons p ps ih =>
    have hsub : p.sub B (r.map f) (t.map f) = (p.sub A r t).map f :=
      Pattern.subFrom_map hchar hword r 0 none t
    rw [subAll, List.foldl_cons, hsub]
    exact ih _

end

end Prismal.Lib
