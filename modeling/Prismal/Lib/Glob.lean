import Mathlib.Data.List.Infix

namespace Prismal.Lib
set_option autoImplicit true

/-! Shell patterns as Python's `fnmatch` reads them. -/

/-- A set of characters: ranges, or everything outside them. A single character is a range. -/
structure CharSet where
  negated : Bool
  ranges : List (Char × Char)
  deriving DecidableEq, Repr

namespace CharSet

def admits (s : CharSet) (c : Char) : Bool :=
  s.negated ^^ s.ranges.any fun r => decide (r.1 ≤ c ∧ c ≤ r.2)

def lit (c : Char) : CharSet := ⟨false, [(c, c)]⟩

def any : CharSet := ⟨true, []⟩

@[simp] theorem admits_lit : (lit c).admits d = true ↔ d = c := by
  simp only [admits, lit, List.any_cons, List.any_nil, Bool.or_false, Bool.false_xor,
    decide_eq_true_eq]
  constructor
  · intro h
    exact Char.le_antisymm h.2 h.1
  · rintro rfl
    exact ⟨Char.le_refl d, Char.le_refl d⟩

@[simp] theorem admits_any : any.admits c = true := rfl

instance : HasSubset CharSet := ⟨fun s t => ∀ c, s.admits c = true → t.admits c = true⟩

theorem subset_refl (s : CharSet) : s ⊆ s := fun _ h => h

theorem subset_trans {s t u : CharSet} (hst : s ⊆ t) (htu : t ⊆ u) : s ⊆ u :=
  fun c h => htu c (hst c h)

theorem lit_subset {s : CharSet} : lit c ⊆ s ↔ s.admits c = true :=
  ⟨fun h => h c (admits_lit.2 rfl), fun h _ hd => admits_lit.1 hd ▸ h⟩

end CharSet

namespace Glob

/-- What a pattern is made of: a star, or one character out of a set. -/
inductive Tok where
  | star
  | one (set : CharSet)
  deriving DecidableEq, Repr

/-- What stands between brackets: single characters and ranges. -/
inductive Item where
  | lit (c : Char)
  | range (lo hi : Char)
  deriving DecidableEq, Repr

/-- A hyphen between two characters makes a range; one at the front or after a range is itself. -/
def items : List Char → List Item
  | a :: '-' :: b :: rest => .range a b :: items rest
  | a :: rest => .lit a :: items rest
  | [] => []

def Item.proper : Item → Bool
  | .lit _ => true
  | .range lo hi => decide (lo ≤ hi)

def Item.pair : Item → Char × Char
  | .lit c => (c, c)
  | .range lo hi => (lo, hi)

/-- The set between two brackets. An exclamation mark that comes first negates it, also where it
comes first only because empty ranges were dropped before it. -/
def bracket (stuff : List Char) : CharSet :=
  match stuff with
  | '!' :: rest => ⟨true, ((items rest).filter Item.proper).map Item.pair⟩
  | _ =>
    match (items stuff).filter Item.proper with
    | .lit '!' :: rest => ⟨true, rest.map Item.pair⟩
    | .range '!' hi :: rest => ⟨true, ('-', '-') :: (hi, hi) :: rest.map Item.pair⟩
    | found => ⟨false, found.map Item.pair⟩

/-- What stands between an opening bracket and the one that closes it. A closing bracket that
comes first, or right after the exclamation mark, does not close. -/
def enclosed (cs : List Char) : Option (List Char) :=
  let lead :=
    match cs with
    | '!' :: ']' :: _ => 2
    | '!' :: _ => 1
    | ']' :: _ => 1
    | _ => 0
  let body := (cs.drop lead).takeWhile (· ≠ ']')
  if (cs.drop lead).length ≤ body.length then none else some (cs.take lead ++ body)

def tokensFrom : Nat → List Char → List Tok
  | _, [] => []
  | skip + 1, _ :: cs => tokensFrom skip cs
  | 0, c :: cs =>
    if c = '*' then .star :: tokensFrom 0 cs
    else if c = '?' then .one CharSet.any :: tokensFrom 0 cs
    else if c = '[' then
      match enclosed cs with
      | none => .one (CharSet.lit c) :: tokensFrom 0 cs
      | some stuff => .one (bracket stuff) :: tokensFrom (stuff.length + 1) cs
    else .one (CharSet.lit c) :: tokensFrom 0 cs

def tokens (pat : String) : List Tok := tokensFrom 0 pat.toList

def accepts : List Tok → List Char → Bool
  | [], cs => cs.isEmpty
  | .star :: p, cs => cs.tails.any (accepts p)
  | .one _ :: _, [] => false
  | .one s :: p, c :: cs => s.admits c && accepts p cs

/-- `fnmatchcase` -/
def fnmatchcase (name pat : String) : Bool := accepts (tokens pat) name.toList

/-- One pattern lies under another, token by token: a star covers any tokens, a set covers a
smaller one. -/
inductive Covers : List Tok → List Tok → Prop
  | nil : Covers [] []
  | one : s ⊆ t → Covers p q → Covers (.one t :: p) (.one s :: q)
  | skip : Covers p q → Covers (.star :: p) q
  | take : Covers (.star :: p) q → Covers (.star :: p) (x :: q)

def literal (cs : List Char) : List Tok := cs.map fun c => .one (CharSet.lit c)

theorem Covers.trans (h : Covers p q) (hq : Covers q r) : Covers p r := by
  induction h generalizing r with
  | nil => exact hq
  | one hst _ ih =>
    cases hq with
    | one hus hq => exact Covers.one (CharSet.subset_trans hus hst) (ih hq)
  | skip _ ih => exact Covers.skip (ih hq)
  | @take p q x _ ih =>
    generalize hw : x :: q = w at hq
    induction hq with
    | nil => cases hw
    | one _ hq =>
      cases hw
      exact (ih hq).take
    | skip hq =>
      cases hw
      exact ih hq
    | take _ ihr => exact (ihr hw).take

theorem Covers.append_literal (h : Covers p q) (cs : List Char) :
    Covers (literal cs ++ p) (literal cs ++ q) := by
  induction cs with
  | nil => exact h
  | cons c cs ih => exact Covers.one (CharSet.subset_refl _) ih

theorem covers_star (q : List Tok) : Covers [.star] q := by
  induction q with
  | nil => exact Covers.nil.skip
  | cons x q ih => exact ih.take

theorem covers_star_iff : Covers (.star :: p) q ↔ ∃ r, r <:+ q ∧ Covers p r := by
  constructor
  · intro h
    generalize hw : Tok.star :: p = w at h
    induction h with
    | nil => cases hw
    | one => cases hw
    | @skip _ q h =>
      cases hw
      exact ⟨q, List.suffix_refl q, h⟩
    | take _ ih =>
      obtain ⟨r, hr, h⟩ := ih hw
      exact ⟨r, hr.trans (List.suffix_cons _ _), h⟩
  · rintro ⟨r, ⟨front, rfl⟩, h⟩
    induction front with
    | nil => exact h.skip
    | cons x front ih => exact ih.take

theorem literal_suffix : r <:+ literal cs ↔ ∃ ds, ds <:+ cs ∧ literal ds = r := by
  rw [literal, List.suffix_map_iff]
  constructor
  · rintro ⟨ds, hds, rfl⟩
    exact ⟨ds, hds, rfl⟩
  · rintro ⟨ds, hds, rfl⟩
    exact ⟨ds, hds, rfl⟩

theorem accepts_iff (p : List Tok) (cs : List Char) :
    accepts p cs = true ↔ Covers p (literal cs) := by
  induction p generalizing cs with
  | nil =>
    cases cs with
    | nil => exact ⟨fun _ => Covers.nil, fun _ => rfl⟩
    | cons c cs =>
      constructor
      · intro h
        cases h
      · intro h
        cases h
  | cons x p ih =>
    cases x with
    | star =>
      simp only [accepts, List.any_eq_true, List.mem_tails, covers_star_iff, ih]
      constructor
      · rintro ⟨ds, hds, h⟩
        exact ⟨literal ds, literal_suffix.2 ⟨ds, hds, rfl⟩, h⟩
      · rintro ⟨r, hr, h⟩
        obtain ⟨ds, hds, rfl⟩ := literal_suffix.1 hr
        exact ⟨ds, hds, h⟩
    | one s =>
      cases cs with
      | nil =>
        constructor
        · intro h
          cases h
        · intro h
          cases h
      | cons c cs =>
        rw [accepts, Bool.and_eq_true, ih]
        constructor
        · rintro ⟨hs, h⟩
          exact Covers.one (CharSet.lit_subset.2 hs) h
        · intro h
          cases h with
          | one hs h => exact ⟨CharSet.lit_subset.1 hs, h⟩

theorem Covers.accepts (h : Covers p q) (hq : Glob.accepts q cs = true) :
    Glob.accepts p cs = true :=
  (accepts_iff p cs).2 (h.trans ((accepts_iff q cs).1 hq))

def Plain (cs : List Char) : Prop := ∀ c ∈ cs, c ≠ '*' ∧ c ≠ '?' ∧ c ≠ '['

instance : Decidable (Plain cs) := List.decidableBAll _ cs

theorem Plain.tokens (h : Plain cs) : tokensFrom 0 cs = literal cs := by
  induction cs with
  | nil => rfl
  | cons c cs ih =>
    obtain ⟨hstar, hmark, hopen⟩ := h c List.mem_cons_self
    rw [tokensFrom, if_neg hstar, if_neg hmark, if_neg hopen,
      ih fun d hd => h d (List.mem_cons_of_mem c hd)]
    rfl

theorem Plain.covers (h : Plain pat.toList) (hm : fnmatchcase pat held = true) :
    Covers (Glob.tokens held) (Glob.tokens pat) := by
  rw [Glob.tokens, Glob.tokens, h.tokens]
  exact (accepts_iff _ _).1 hm

end Glob

end Prismal.Lib
