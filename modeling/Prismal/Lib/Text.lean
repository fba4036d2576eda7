import Mathlib.Data.List.DropRight
import Mathlib.Data.Nat.Digits.Lemmas

namespace Prismal.Lib
set_option autoImplicit true

/-! Text as the scripting languages read it: white space, runs of characters, hexadecimal
numbers of a fixed width. -/

def isSpace (c : Char) : Bool :=
  let n := c.toNat
  (9 ≤ n && n ≤ 13) || (28 ≤ n && n ≤ 32) || n = 0x85 || n = 0xA0 || n = 0x1680 ||
    (0x2000 ≤ n && n ≤ 0x200A) || n = 0x2028 || n = 0x2029 || n = 0x202F || n = 0x205F ||
    n = 0x3000

def stripChars (cs : List Char) : List Char :=
  ((cs.dropWhile isSpace).reverse.dropWhile isSpace).reverse

def strip (s : String) : String := String.ofList (stripChars s.toList)

/-- Replace every maximal run of `p` by one blank. -/
def collapseFrom (p : Char → Bool) : Bool → List Char → List Char
  | _, [] => []
  | inRun, c :: cs =>
    if p c then
      if inRun then collapseFrom p true cs else ' ' :: collapseFrom p true cs
    else c :: collapseFrom p false cs

def collapse (p : Char → Bool) (s : String) : String :=
  String.ofList (collapseFrom p false s.toList)

/-- The maximal runs of `p`, from left to right. -/
def runs (p : Char → Bool) (s : String) : List String :=
  ((s.toList.splitBy fun a b => p a == p b).filter fun cs => cs.all p).map String.ofList

def hex (width n : Nat) : List Char :=
  (((Nat.digits 16 n).rightpad width 0).map Nat.digitChar).reverse

theorem stripChars_eq_nil : stripChars cs = [] ↔ ∀ c ∈ cs, isSpace c = true := by
  have hrdrop : stripChars cs = (cs.dropWhile isSpace).rdropWhile isSpace := rfl
  rw [hrdrop, List.rdropWhile_eq_nil_iff]
  constructor
  · intro h c hc
    rw [← List.takeWhile_append_dropWhile (p := isSpace) (l := cs), List.mem_append] at hc
    exact hc.elim List.mem_takeWhile_imp (h c)
  · intro h c hc
    exact h c ((List.dropWhile_suffix isSpace).subset hc)

theorem dropWhile_eq_self {p : Char → Bool} {cs : List Char} :
    cs.dropWhile p = cs ↔ ∀ c ∈ cs.head?, p c = false := by
  cases cs with
  | nil => simp
  | cons c cs => rw [List.dropWhile_eq_self_iff]; simp

theorem rdropWhile_eq_self {p : Char → Bool} {cs : List Char} :
    cs.rdropWhile p = cs ↔ ∀ c ∈ cs.getLast?, p c = false := by
  rw [List.rdropWhile_eq_self_iff]
  cases cs using List.reverseRecOn with
  | nil => simp
  | append_singleton cs c _ => simp

theorem stripChars_eq_self {cs : List Char} : stripChars cs = cs ↔
    (∀ c ∈ cs.head?, isSpace c = false) ∧ ∀ c ∈ cs.getLast?, isSpace c = false := by
  rw [← dropWhile_eq_self, ← rdropWhile_eq_self]
  have hrdrop : stripChars cs = (cs.dropWhile isSpace).rdropWhile isSpace := rfl
  rw [hrdrop]
  apply Iff.intro
  · intro h
    have hsub : cs.Sublist (cs.dropWhile isSpace) := by
      conv_lhs => rw [← h]
      exact (List.rdropWhile_prefix isSpace _).sublist
    have hleft := ((List.dropWhile_suffix isSpace).sublist.antisymm hsub)
    rw [hleft] at h
    exact ⟨hleft, h⟩
  · rintro ⟨hleft, hright⟩
    rw [hleft, hright]

theorem rdropWhile_append {p : Char → Bool} {x : List Char} (h : x.rdropWhile p = x)
    (v : List Char) : (x ++ v).rdropWhile p = x ++ v.rdropWhile p := by
  induction v using List.reverseRecOn with
  | nil => simpa using h
  | append_singleton v c ih =>
    rw [← List.append_assoc, List.rdropWhile_concat, List.rdropWhile_concat]
    split
    next => exact ih
    next => exact List.append_assoc x v [c]

theorem stripChars_around {u x : List Char} (hu : ∀ c ∈ u, isSpace c = true)
    (hx : stripChars x = x) (hne : x ≠ []) (v : List Char) :
    stripChars (u ++ x ++ v) = x ++ v.rdropWhile isSpace := by
  obtain ⟨hhead, hlast⟩ := stripChars_eq_self.1 hx
  obtain ⟨c, x', rfl⟩ := List.exists_cons_of_ne_nil hne
  have hdrop : (u ++ (c :: x') ++ v).dropWhile isSpace = c :: x' ++ v := by
    rw [List.append_assoc, List.dropWhile_append_of_pos hu]
    apply dropWhile_eq_self.2
    intro d hd
    exact hhead d (by simpa using hd)
  calc stripChars (u ++ (c :: x') ++ v)
      = (c :: x' ++ v).rdropWhile isSpace := congrArg (List.rdropWhile isSpace) hdrop
    _ = c :: x' ++ v.rdropWhile isSpace := rdropWhile_append (rdropWhile_eq_self.2 hlast) v

theorem stripChars_sublist (cs : List Char) : (stripChars cs).Sublist cs :=
  ((List.rdropWhile_prefix isSpace _).sublist).trans (List.dropWhile_suffix isSpace).sublist

theorem stripChars_stripChars (cs : List Char) : stripChars (stripChars cs) = stripChars cs := by
  have hhead := List.dropWhile_eq_self_iff.1 (List.dropWhile_idempotent isSpace cs)
  have hfront : stripChars cs <+: cs.dropWhile isSpace := List.rdropWhile_prefix isSpace _
  have hleft : (stripChars cs).dropWhile isSpace = stripChars cs := by
    apply List.dropWhile_eq_self_iff.2
    intro hlen
    rw [hfront.getElem hlen]
    exact hhead _
  have hright := List.rdropWhile_idempotent isSpace (cs.dropWhile isSpace)
  calc stripChars (stripChars cs)
      = ((stripChars cs).dropWhile isSpace).rdropWhile isSpace := rfl
    _ = stripChars cs := by
      rw [hleft]
      exact hright

theorem strip_strip (s : String) : strip (strip s) = strip s := by
  rw [strip, strip, String.toList_ofList, stripChars_stripChars]

theorem strip_strip_ne (h : strip s ≠ "") : strip (strip s) ≠ "" := by
  rw [strip_strip]
  exact h

theorem digitChar_injective : ∀ a < 16, ∀ b < 16, Nat.digitChar a = Nat.digitChar b → a = b := by
  decide

theorem map_digitChar_injective {as bs : List Nat} (ha : ∀ d ∈ as, d < 16)
    (hb : ∀ d ∈ bs, d < 16) (h : as.map Nat.digitChar = bs.map Nat.digitChar) : as = bs := by
  induction as generalizing bs with
  | nil => exact (List.map_eq_nil_iff.1 h.symm).symm
  | cons a as ih =>
    cases bs with
    | nil => cases h
    | cons b bs =>
      rw [List.map_cons, List.map_cons, List.cons.injEq] at h
      have hd := digitChar_injective a (ha a List.mem_cons_self) b (hb b List.mem_cons_self) h.1
      have htl := ih (fun d hd => ha d (List.mem_cons_of_mem _ hd))
        (fun d hd => hb d (List.mem_cons_of_mem _ hd)) h.2
      rw [hd, htl]

theorem padded_lt (width n : Nat) : ∀ d ∈ (Nat.digits 16 n).rightpad width 0, d < 16 := by
  intro d hd
  rw [List.rightpad, List.mem_append] at hd
  rcases hd with hd | hd
  · exact Nat.digits_lt_base (by omega) hd
  · rw [List.eq_of_mem_replicate hd]
    omega

theorem ofDigits_padded (width n : Nat) :
    Nat.ofDigits 16 ((Nat.digits 16 n).rightpad width 0) = n := by
  rw [List.rightpad, Nat.ofDigits_append, Nat.ofDigits_replicate_zero, Nat.mul_zero, Nat.add_zero,
    Nat.ofDigits_digits]

theorem hex_injective (h : hex width a = hex width b) : a = b := by
  have hmap := List.reverse_injective h
  have hdigits := map_digitChar_injective (padded_lt width a) (padded_lt width b) hmap
  rw [← ofDigits_padded width a, hdigits, ofDigits_padded]

theorem digits_length_le {n : Nat} (h : n < 16 ^ width) : (Nat.digits 16 n).length ≤ width :=
  (Nat.digits_length_le_iff (by omega) n).2 h

theorem hex_length {n : Nat} (h : n < 16 ^ width) : (hex width n).length = width := by
  have hle := digits_length_le h
  rw [hex, List.length_reverse, List.length_map, List.rightpad, List.length_append,
    List.length_replicate]
  omega

end Prismal.Lib
