import Mathlib.Data.Nat.Digits.Lemmas
import Prismal.Lib.State

namespace Prismal.Lib
set_option autoImplicit true

/-! Codecs that lose information, but only once. -/

def Stable (encode : α → Except ε β) (decode : β → α) : Prop :=
  ∀ a b, encode a = .ok b → encode (decode b) = .ok b

namespace Stable
variable {encode : α → Except ε β} {decode : β → α}

theorem of_image {Canonical : β → Prop} (himage : ∀ a b, encode a = .ok b → Canonical b)
    (h : ∀ b, Canonical b → encode (decode b) = .ok b) : Stable encode decode :=
  fun a b hb => h b (himage a b hb)

theorem mapM (h : Stable encode decode) : Stable (List.mapM encode) (List.map decode) := by
  intro as bs hbs
  induction as generalizing bs with
  | nil =>
    cases except_pure_ok hbs
    rfl
  | cons a as ih =>
    obtain ⟨b, bs', hb, hbs', rfl⟩ := mapM_cons_ok hbs
    rw [List.map_cons, List.mapM_cons, h a b hb, ih bs' hbs']
    rfl

theorem bind_eq (h : Stable encode decode) (a : α) :
    (encode a >>= fun b => encode (decode b)) = encode a := by
  cases hb : encode a with
  | error e => rfl
  | ok b => exact h a b hb

end Stable

theorem length_of_mapM {f : α → Except ε β} {as : List α} {bs : List β}
    (h : as.mapM f = .ok bs) : bs.length = as.length := by
  induction as generalizing bs with
  | nil =>
    cases except_pure_ok h
    rfl
  | cons a as ih =>
    obtain ⟨b, bs', -, hbs', rfl⟩ := mapM_cons_ok h
    rw [List.length_cons, List.length_cons, ih hbs']

end Prismal.Lib

namespace Prismal.Lib.Radix
set_option autoImplicit true

/-! Numerals with leading zeros, the most significant digit first, and their conversion from one
base to another. -/

def value (b : Nat) (ds : List Nat) : Nat := ds.foldl (fun n d => n * b + d) 0

def leadingZeros (ds : List Nat) : Nat := (ds.takeWhile fun d => d == 0).length

def numeral (b zeros n : Nat) : List Nat := List.replicate zeros 0 ++ (Nat.digits b n).reverse

def recode (b c : Nat) (ds : List Nat) : List Nat := numeral c (leadingZeros ds) (value b ds)

theorem value_eq (b : Nat) (ds : List Nat) : value b ds = Nat.ofDigits b ds.reverse := by
  induction ds using List.reverseRecOn with
  | nil => rfl
  | append_singleton ds d ih =>
    rw [value, List.foldl_append, List.foldl_cons, List.foldl_nil, ← value, ih, List.reverse_append,
      List.reverse_singleton, List.singleton_append, Nat.ofDigits_cons, Nat.add_comm, Nat.mul_comm]

theorem value_numeral (b zeros n : Nat) : value b (numeral b zeros n) = n := by
  rw [value_eq, numeral, List.reverse_append, List.reverse_reverse, List.reverse_replicate,
    Nat.ofDigits_append_replicate_zero, Nat.ofDigits_digits]

theorem digits_lt (hb : 1 < b) (zeros n : Nat) : ∀ d ∈ numeral b zeros n, d < b := by
  intro d hd
  rw [numeral, List.mem_append, List.mem_reverse] at hd
  cases hd with
  | inl hzero =>
    rw [List.eq_of_mem_replicate hzero]
    exact Nat.zero_lt_of_lt hb
  | inr hdigit => exact Nat.digits_lt_base hb hdigit

theorem head_digits (b n : Nat) : ∀ d ∈ (Nat.digits b n).reverse.head?, d ≠ 0 := by
  intro d hd
  by_cases hn : n = 0
  · rw [hn, Nat.digits_zero, List.reverse_nil] at hd
    cases hd
  · have hne : Nat.digits b n ≠ [] := Nat.digits_ne_nil_iff_ne_zero.2 hn
    rw [List.head?_reverse, List.getLast?_eq_getLast_of_ne_nil hne] at hd
    rw [← Option.some.inj hd]
    exact Nat.getLast_digit_ne_zero b hn

theorem leadingZeros_append {ds : List Nat} (h : ∀ d ∈ ds.head?, d ≠ 0) (zeros : Nat) :
    leadingZeros (List.replicate zeros 0 ++ ds) = zeros := by
  induction zeros with
  | zero =>
    cases ds with
    | nil => rfl
    | cons d ds =>
      have hd : (d == 0) = false := beq_eq_false_iff_ne.2 (h d rfl)
      rw [List.replicate_zero, List.nil_append, leadingZeros, List.takeWhile_cons, hd]
      rfl
  | succ zeros ih =>
    rw [List.replicate_succ, List.cons_append, leadingZeros, List.takeWhile_cons]
    exact congrArg Nat.succ ih

theorem leadingZeros_numeral (b zeros n : Nat) : leadingZeros (numeral b zeros n) = zeros :=
  leadingZeros_append (head_digits b n) zeros

theorem numeral_value (hb : 1 < b) {ds : List Nat} (h : ∀ d ∈ ds, d < b) :
    numeral b (leadingZeros ds) (value b ds) = ds := by
  induction ds with
  | nil => simp [numeral, leadingZeros, value]
  | cons d ds ih =>
    cases d with
    | zero =>
      have hvalue : value b (0 :: ds) = value b ds := by
        rw [value, List.foldl_cons, Nat.zero_mul]
        rfl
      have hzeros : leadingZeros (0 :: ds) = leadingZeros ds + 1 := rfl
      rw [hvalue, hzeros, numeral, List.replicate_succ, List.cons_append]
      exact congrArg (0 :: ·) (ih fun d hd => h d (List.mem_cons_of_mem _ hd))
    | succ d =>
      have hzeros : leadingZeros ((d + 1) :: ds) = 0 := rfl
      rw [hzeros, numeral, value_eq, Nat.digits_ofDigits b hb]
      · rw [List.reverse_reverse]
        rfl
      · intro e he
        exact h e (List.mem_reverse.1 he)
      · intro hne
        rw [List.getLast_reverse]
        exact Nat.succ_ne_zero d

theorem recode_recode (hb : 1 < b) {ds : List Nat} (h : ∀ d ∈ ds, d < b) :
    recode c b (recode b c ds) = ds := by
  rw [recode, recode, leadingZeros_numeral, value_numeral]
  exact numeral_value hb h

theorem recode_lt (hc : 1 < c) (ds : List Nat) : ∀ d ∈ recode b c ds, d < c := digits_lt hc _ _

end Prismal.Lib.Radix
