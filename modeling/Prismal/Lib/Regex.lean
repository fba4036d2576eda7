import Prismal.Lib.Text

namespace Prismal.Lib
set_option autoImplicit true

/-! Regular expressions as Python's `re` reads them with the flags IGNORECASE, DOTALL and
MULTILINE: the texts an expression matches, and the backtracking search for them. -/

/-- A set of characters. A single one stands in lower case and is compared without case; a test is
made on the character as it is. -/
inductive CharClass where
  | lit (c : Char)
  | test (p : Char → Bool)
  | space
  | notSpace
  | any
  | or (k l : CharClass)

/-- The lower-case letter a character is compared as. Four letters outside ASCII are compared as
one of ASCII. -/
def foldCase (c : Char) : Char :=
  if c = '\u0130' ∨ c = '\u0131' then 'i'
  else if c = '\u017F' then 's'
  else if c = '\u212A' then 'k'
  else c.toLower

namespace CharClass

def has : CharClass → Char → Bool
  | lit c, d => foldCase d == c
  | test p, d => p d
  | space, d => isSpace d
  | notSpace, d => !isSpace d
  | any, _ => true
  | or k l, d => k.has d || l.has d

end CharClass

/-- An expression. Only a set of characters is repeated, as often as it can be. -/
inductive Regex where
  | one (k : CharClass)
  | lineStart
  | boundary
  | seq (r s : Regex)
  | alt (r s : Regex)
  | many (k : CharClass) (least : Nat) (most : Option Nat)

/-- How the symbols of a text are read: the character each stands for, and which characters are
those of words. -/
structure Alphabet (α : Type u) where
  char : α → Char
  isWord : Char → Bool

/-- A position in a text: the symbol before it and the symbols behind it. -/
@[ext] structure Cursor (α : Type u) where
  prev : Option α
  rest : List α

def Cursor.map (f : α → β) (c : Cursor α) : Cursor β := ⟨c.prev.map f, c.rest.map f⟩

namespace Alphabet
variable (A : Alphabet α)

def isWordAt : Option α → Bool
  | none => false
  | some a => A.isWord (A.char a)

end Alphabet

namespace Regex
variable (A : Alphabet α)

def eps : Regex := many .any 0 (some 0)

def text (s : String) : Regex := s.toList.foldr (fun c r => seq (one (.lit c)) r) eps

def seqs (rs : List Regex) : Regex := rs.foldr seq eps

def alts : List Regex → Regex
  | [] => many .any 1 (some 0)
  | [r] => r
  | r :: rs => alt r (alts rs)

def Matches : Regex → Option α → List α → Option α → Prop
  | one k, _, w, _ => ∃ a, w = [a] ∧ k.has (A.char a) = true
  | lineStart, prev, w, _ => w = [] ∧ ∀ a, prev = some a → A.char a = '\n'
  | boundary, prev, w, next => w = [] ∧ A.isWordAt prev ≠ A.isWordAt next
  | seq r s, prev, w, next => ∃ u v, w = u ++ v ∧ r.Matches prev u (v.head?.or next) ∧
      s.Matches (u.getLast?.or prev) v next
  | alt r s, prev, w, next => r.Matches prev w next ∨ s.Matches prev w next
  | many k least most, _, w, _ => least ≤ w.length ∧ (∀ n, most = some n → w.length ≤ n) ∧
      ∀ a ∈ w, k.has (A.char a) = true

def manyEnds (k : CharClass) : Nat → Option Nat → Option α → List α → List (Cursor α)
  | least, _, prev, [] => if least = 0 then [⟨prev, []⟩] else []
  | least, most, prev, a :: rest =>
    (if most ≠ some 0 ∧ k.has (A.char a) = true then
      manyEnds k (least - 1) (most.map (· - 1)) (some a) rest
    else []) ++ if least = 0 then [⟨prev, a :: rest⟩] else []

def ends : Regex → Cursor α → List (Cursor α)
  | one k, c =>
    match c.rest with
    | [] => []
    | a :: rest => if k.has (A.char a) = true then [⟨some a, rest⟩] else []
  | lineStart, c => if c.prev.all (fun a => A.char a == '\n') = true then [c] else []
  | boundary, c => if A.isWordAt c.prev ≠ A.isWordAt c.rest.head? then [c] else []
  | seq r s, c => (r.ends c).flatMap s.ends
  | alt r s, c => r.ends c ++ s.ends c
  | many k least most, c => manyEnds A k least most c.prev c.rest

variable {A}

theorem getLast?_cons_or (a : α) (w : List α) (prev : Option α) :
    (a :: w).getLast?.or prev = w.getLast?.or (some a) := by
  rw [List.getLast?_cons]
  cases w.getLast? <;> rfl

theorem getLast?_append_or (u v : List α) (prev : Option α) :
    (u ++ v).getLast?.or prev = v.getLast?.or (u.getLast?.or prev) := by
  rw [List.getLast?_append, Option.or_assoc]

theorem mem_manyEnds : d ∈ manyEnds A k least most prev rest ↔ ∃ w, rest = w ++ d.rest ∧
    d.prev = w.getLast?.or prev ∧ least ≤ w.length ∧ (∀ n, most = some n → w.length ≤ n) ∧
      ∀ a ∈ w, k.has (A.char a) = true := by
  induction rest generalizing least most prev with
  | nil =>
    rw [manyEnds]
    apply Iff.intro
    · intro hd
      split at hd
      next hleast =>
        cases List.mem_singleton.1 hd
        exact ⟨[], rfl, rfl, Nat.le_of_eq hleast, fun n _ => Nat.zero_le n, fun a ha => by cases ha⟩
      · cases hd
    · rintro ⟨w, hw, hprev, hleast, _, _⟩
      obtain ⟨rfl, hrest⟩ := List.append_eq_nil_iff.1 hw.symm
      rw [if_pos (Nat.le_zero.1 hleast), List.mem_singleton]
      exact Cursor.ext hprev hrest
  | cons a rest ih =>
    rw [manyEnds, List.mem_append]
    apply Iff.intro
    · intro hd
      cases hd with
      | inl hd =>
        split at hd
        next hmore =>
          obtain ⟨w, hw, hprev, hleast, hmost, hall⟩ := ih.1 hd
          refine ⟨a :: w, by rw [hw]; rfl, ?_, ?_, ?_, ?_⟩
          · rw [getLast?_cons_or, hprev]
          · rw [List.length_cons]
            omega
          · intro n hn
            have hlength := hmost (n - 1) (by rw [hn]; rfl)
            have hpos : n ≠ 0 := by
              intro hzero
              exact hmore.1 (by rw [hn, hzero])
            rw [List.length_cons]
            omega
          · intro b hb
            cases List.mem_cons.1 hb with
            | inl heq => exact heq ▸ hmore.2
            | inr hb => exact hall b hb
        · cases hd
      | inr hd =>
        split at hd
        next hleast =>
          cases List.mem_singleton.1 hd
          exact ⟨[], rfl, rfl, Nat.le_of_eq hleast, fun n _ => Nat.zero_le n,
            fun a ha => by cases ha⟩
        · cases hd
    · rintro ⟨w, hw, hprev, hleast, hmost, hall⟩
      cases w with
      | nil =>
        right
        rw [if_pos (Nat.le_zero.1 hleast), List.mem_singleton]
        exact Cursor.ext hprev hw.symm
      | cons b w =>
        rw [List.cons_append, List.cons.injEq] at hw
        obtain ⟨rfl, hw⟩ := hw
        left
        have hmore : most ≠ some 0 ∧ k.has (A.char a) = true := by
          apply And.intro
          · intro hzero
            have := hmost 0 hzero
            rw [List.length_cons] at this
            omega
          · exact hall a List.mem_cons_self
        rw [if_pos hmore]
        refine ih.2 ⟨w, hw, ?_, ?_, ?_, fun b hb => hall b (List.mem_cons_of_mem _ hb)⟩
        · rw [hprev, getLast?_cons_or]
        · rw [List.length_cons] at hleast
          omega
        · intro n hn
          obtain ⟨m, hm, rfl⟩ := Option.map_eq_some_iff.1 hn
          have hlength := hmost m hm
          rw [List.length_cons] at hlength
          omega

theorem mem_ends : d ∈ ends A r c ↔ ∃ w, c.rest = w ++ d.rest ∧ d.prev = w.getLast?.or c.prev ∧
    Matches A r c.prev w d.rest.head? := by
  induction r generalizing c d with
  | one k =>
    rw [ends]
    cases hrest : c.rest with
    | nil =>
      apply Iff.intro
      · intro hd
        cases hd
      · rintro ⟨w, hw, _, a, rfl, _⟩
        cases hw
    | cons a rest =>
      apply Iff.intro
      · intro hd
        simp only at hd
        split at hd
        next hk =>
          cases List.mem_singleton.1 hd
          exact ⟨[a], rfl, rfl, a, rfl, hk⟩
        · cases hd
      · rintro ⟨w, hw, hprev, b, rfl, hk⟩
        cases hw
        simp only
        rw [if_pos hk, List.mem_singleton]
        exact Cursor.ext hprev rfl
  | lineStart =>
    have hall : c.prev.all (fun a => A.char a == '\n') = true ↔
        ∀ a, c.prev = some a → A.char a = '\n' := by
      cases c.prev <;> simp
    rw [ends]
    apply Iff.intro
    · intro hd
      split at hd
      next hline =>
        cases List.mem_singleton.1 hd
        exact ⟨[], rfl, rfl, rfl, hall.1 hline⟩
      · cases hd
    · rintro ⟨w, hw, hprev, rfl, hline⟩
      rw [if_pos (hall.2 hline), List.mem_singleton]
      exact Cursor.ext hprev hw.symm
  | boundary =>
    rw [ends]
    apply Iff.intro
    · intro hd
      split at hd
      next hbound =>
        cases List.mem_singleton.1 hd
        exact ⟨[], rfl, rfl, rfl, hbound⟩
      · cases hd
    · rintro ⟨w, hw, hprev, rfl, hbound⟩
      rw [List.nil_append] at hw
      rw [hw, if_pos hbound, List.mem_singleton]
      exact Cursor.ext hprev hw.symm
  | seq r s ihr ihs =>
    rw [ends, List.mem_flatMap]
    apply Iff.intro
    · rintro ⟨e, he, hd⟩
      obtain ⟨u, hu, hprev, hr⟩ := ihr.1 he
      obtain ⟨v, hv, hlast, hs⟩ := ihs.1 hd
      refine ⟨u ++ v, by rw [hu, hv, List.append_assoc], ?_, u, v, rfl, ?_, ?_⟩
      · rw [hlast, hprev, getLast?_append_or]
      · rw [hv, List.head?_append] at hr
        exact hr
      · rw [hprev] at hs
        exact hs
    · rintro ⟨w, hw, hlast, u, v, rfl, hr, hs⟩
      refine ⟨⟨u.getLast?.or c.prev, v ++ d.rest⟩, ihr.2 ⟨u, ?_, rfl, ?_⟩, ihs.2 ⟨v, rfl, ?_, hs⟩⟩
      · rw [hw, List.append_assoc]
      · rw [List.head?_append]
        exact hr
      · rw [hlast, getLast?_append_or]
  | alt r s ihr ihs =>
    rw [ends, List.mem_append, ihr, ihs]
    simp only [Matches, ← exists_or, ← and_or_left]
  | many k least most => rw [ends, mem_manyEnds]; rfl

/-! What an expression sees of the text around its match. -/

def lineless : Regex → Bool
  | lineStart => false
  | seq r s => r.lineless && s.lineless
  | alt r s => r.lineless && s.lineless
  | _ => true

def free : Regex → Bool
  | lineStart => false
  | boundary => false
  | seq r s => r.free && s.free
  | alt r s => r.free && s.free
  | _ => true

def Avoids (c : Char) : Regex → Prop
  | one k => k.has c = false
  | seq r s => r.Avoids c ∧ s.Avoids c
  | alt r s => r.Avoids c ∧ s.Avoids c
  | many k _ most => most = some 0 ∨ k.has c = false
  | _ => True

theorem ne_of_avoids {r : Regex} (hr : r.Avoids c) (h : r.Matches A prev w next) :
    ∀ a ∈ w, A.char a ≠ c := by
  induction r generalizing prev w next with
  | one k =>
    obtain ⟨b, rfl, hb⟩ := h
    intro a ha heq
    cases List.mem_singleton.1 ha
    rw [heq, hr] at hb
    cases hb
  | lineStart =>
    rw [h.1]
    simp
  | boundary =>
    rw [h.1]
    simp
  | seq r s ihr ihs =>
    obtain ⟨u, v, rfl, hu, hv⟩ := h
    intro a ha
    rcases List.mem_append.1 ha with ha | ha
    · exact ihr hr.1 hu a ha
    · exact ihs hr.2 hv a ha
  | alt r s ihr ihs =>
    rcases h with h | h
    · exact ihr hr.1 h
    · exact ihs hr.2 h
  | many k least most =>
    intro a ha heq
    rcases hr with hr | hr
    · have hlen := List.length_pos_of_mem ha
      have hmost := h.2.1 0 hr
      omega
    · have hk := h.2.2 a ha
      rw [heq, hr] at hk
      cases hk

theorem matches_congr {r : Regex} (hr : r.lineless = true) (h : r.Matches A prev w next)
    (hprev : A.isWordAt prev = A.isWordAt prev') (hnext : A.isWordAt next = A.isWordAt next') :
    r.Matches A prev' w next' := by
  have hword {x y : Option α} (z : Option α) (hxy : A.isWordAt x = A.isWordAt y) :
      A.isWordAt (z.or x) = A.isWordAt (z.or y) := by
    cases z with
    | none => exact hxy
    | some a => rfl
  induction r generalizing prev prev' w next next' with
  | one k => exact h
  | lineStart => cases hr
  | boundary =>
    obtain ⟨hw, hne⟩ := h
    rw [hprev, hnext] at hne
    exact ⟨hw, hne⟩
  | seq r s ihr ihs =>
    rw [lineless, Bool.and_eq_true] at hr
    obtain ⟨u, v, hw, hu, hv⟩ := h
    exact ⟨u, v, hw, ihr hr.1 hu hprev (hword _ hnext), ihs hr.2 hv (hword _ hprev) hnext⟩
  | alt r s ihr ihs =>
    rw [lineless, Bool.and_eq_true] at hr
    exact h.imp (fun h => ihr hr.1 h hprev hnext) fun h => ihs hr.2 h hprev hnext
  | many k least most => exact h

theorem matches_of_free {r : Regex} (hr : r.free = true) (h : r.Matches A prev w next)
    (prev' next' : Option α) : r.Matches A prev' w next' := by
  induction r generalizing prev prev' w next next' with
  | one k => exact h
  | lineStart => cases hr
  | boundary => cases hr
  | seq r s ihr ihs =>
    rw [free, Bool.and_eq_true] at hr
    obtain ⟨u, v, hw, hu, hv⟩ := h
    exact ⟨u, v, hw, ihr hr.1 hu prev' _, ihs hr.2 hv _ next'⟩
  | alt r s ihr ihs =>
    rw [free, Bool.and_eq_true] at hr
    exact h.imp (fun h => ihr hr.1 h prev' next') fun h => ihs hr.2 h prev' next'
  | many k least most => exact h

theorem matches_one_seq {k : CharClass} {r : Regex} :
    (seq (one k) r).Matches A prev (a :: w) next ↔
      k.has (A.char a) = true ∧ r.Matches A (some a) w next := by
  apply Iff.intro
  · rintro ⟨u, v, huv, ⟨b, rfl, hb⟩, hv⟩
    cases huv
    exact ⟨hb, hv⟩
  · rintro ⟨ha, hr⟩
    exact ⟨[a], w, rfl, ⟨a, rfl, ha⟩, hr⟩

theorem matches_times {k : CharClass} : (many k n (some n)).Matches A prev w next ↔
    w.length = n ∧ ∀ a ∈ w, k.has (A.char a) = true := by
  apply Iff.intro
  · rintro ⟨hge, hle, hall⟩
    exact ⟨Nat.le_antisymm (hle n rfl) hge, hall⟩
  · rintro ⟨rfl, hall⟩
    exact ⟨Nat.le_refl _, fun m hm => (Option.some.inj hm).symm ▸ Nat.le_refl _, hall⟩

theorem matches_eps {prev next : Option α} {w : List α} :
    eps.Matches A prev w next ↔ w = [] := by
  apply Iff.intro
  · intro h
    exact List.eq_nil_of_length_eq_zero (Nat.le_zero.1 (h.2.1 0 rfl))
  · rintro rfl
    exact ⟨Nat.le_refl 0, fun n _ => Nat.zero_le n, by simp⟩

/-- `\b(?:_)\b` -/
def bounded (r : Regex) : Regex := seqs [boundary, r, boundary]

theorem matches_bounded {r : Regex} {prev next : Option α} {w : List α}
    (h : (bounded r).Matches A prev w next) :
    A.isWordAt prev ≠ A.isWordAt (w.head?.or next) ∧ r.Matches A prev w next ∧
      A.isWordAt (w.getLast?.or prev) ≠ A.isWordAt next := by
  obtain ⟨u₁, v₁, rfl, ⟨rfl, hstart⟩, u₂, v₂, rfl, hr, u₃, v₃, rfl, ⟨rfl, hend⟩, heps⟩ := h
  cases matches_eps.1 heps
  simp only [List.nil_append, List.append_nil] at hstart hr hend ⊢
  exact ⟨hstart, hr, hend⟩

/-- A position where the text stops and one where something follows that the expression does not
match, both after a symbol of a word or both not. -/
structure Alike (A : Alphabet α) (tail : List α) (c d : Cursor α) : Prop where
  rest : d.rest = c.rest ++ tail
  prev : A.isWordAt c.prev = A.isWordAt d.prev

def Stops (A : Alphabet α) (r : Regex) (tail : List α) : Prop :=
  ∀ a, tail.head? = some a → r.Avoids (A.char a) ∧ A.isWord (A.char a) = false

theorem forall₂_flatMap {R : α → β → Prop} {S : γ → δ → Prop} {f : α → List γ} {g : β → List δ}
    {xs : List α} {ys : List β} (h : List.Forall₂ R xs ys)
    (hfg : ∀ x y, R x y → List.Forall₂ S (f x) (g y)) :
    List.Forall₂ S (xs.flatMap f) (ys.flatMap g) := by
  induction h with
  | nil => exact .nil
  | cons hxy _ ih =>
    rw [List.flatMap_cons, List.flatMap_cons]
    exact List.rel_append (hfg _ _ hxy) ih

theorem manyEnds_alike {k : CharClass} {tail : List α} {prev prev' : Option α}
    (hk : ∀ a, tail.head? = some a → k.has (A.char a) = false)
    (hprev : A.isWordAt prev = A.isWordAt prev') (least : Nat) (most : Option Nat)
    (rest : List α) :
    List.Forall₂ (Alike A tail) (manyEnds A k least most prev rest)
      (manyEnds A k least most prev' (rest ++ tail)) := by
  induction rest generalizing least most prev prev' with
  | nil =>
    cases tail with
    | nil =>
      rw [manyEnds, List.append_nil, manyEnds]
      split
      · exact .cons ⟨rfl, hprev⟩ .nil
      · exact .nil
    | cons a tail =>
      have hno : ¬ (most ≠ some 0 ∧ k.has (A.char a) = true) := by
        intro h
        rw [hk a rfl] at h
        cases h.2
      rw [manyEnds, List.nil_append, manyEnds, if_neg hno, List.nil_append]
      split
      · exact .cons ⟨rfl, hprev⟩ .nil
      · exact .nil
  | cons a rest ih =>
    rw [manyEnds, List.cons_append, manyEnds]
    apply List.rel_append
    · split
      · exact ih rfl _ _
      · exact .nil
    · split
      · exact .cons ⟨rfl, hprev⟩ .nil
      · exact .nil

theorem ends_alike {r : Regex} (hr : r.lineless = true) {tail : List α} (hs : Stops A r tail)
    {c d : Cursor α} (h : Alike A tail c d) :
    List.Forall₂ (Alike A tail) (r.ends A c) (r.ends A d) := by
  induction r generalizing c d with
  | one k =>
    rw [ends, ends, h.rest]
    cases c.rest with
    | cons a rest =>
      simp only [List.cons_append]
      split
      · exact .cons ⟨rfl, rfl⟩ .nil
      · exact .nil
    | nil =>
      cases htail : tail with
      | nil => exact .nil
      | cons a tail' =>
        have hno : k.has (A.char a) = false := (hs a (by rw [htail]; rfl)).1
        simp only [List.nil_append]
        rw [if_neg (Bool.eq_false_iff.1 hno)]
        exact .nil
  | lineStart => cases hr
  | boundary =>
    have hhead : A.isWordAt c.rest.head? = A.isWordAt d.rest.head? := by
      rw [h.rest]
      cases c.rest with
      | cons a rest => rfl
      | nil =>
        cases htail : tail with
        | nil => rfl
        | cons a tail' => exact ((hs a (by rw [htail]; rfl)).2).symm
    rw [ends, ends, h.prev, hhead]
    split
    · exact .cons h .nil
    · exact .nil
  | seq r s ihr ihs =>
    rw [lineless, Bool.and_eq_true] at hr
    rw [ends, ends]
    have hsr : Stops A r tail := fun a ha => ⟨(hs a ha).1.1, (hs a ha).2⟩
    have hss : Stops A s tail := fun a ha => ⟨(hs a ha).1.2, (hs a ha).2⟩
    exact forall₂_flatMap (ihr hr.1 hsr h) fun _ _ hxy => ihs hr.2 hss hxy
  | alt r s ihr ihs =>
    rw [lineless, Bool.and_eq_true] at hr
    have hsr : Stops A r tail := fun a ha => ⟨(hs a ha).1.1, (hs a ha).2⟩
    have hss : Stops A s tail := fun a ha => ⟨(hs a ha).1.2, (hs a ha).2⟩
    rw [ends, ends]
    exact List.rel_append (ihr hr.1 hsr h) (ihs hr.2 hss h)
  | many k least most =>
    rw [ends, ends, h.rest]
    by_cases hmost : most = some 0
    · subst hmost
      have hzero (prev : Option α) (rest : List α) : manyEnds A k least (some 0) prev rest =
          if least = 0 then [⟨prev, rest⟩] else [] := by
        cases rest <;> simp [manyEnds]
      rw [hzero, hzero]
      split
      · exact .cons ⟨rfl, h.prev⟩ .nil
      · exact .nil
    · exact manyEnds_alike (fun a ha => ((hs a ha).1.resolve_left hmost)) h.prev _ _ _

end Regex

end Prismal.Lib
