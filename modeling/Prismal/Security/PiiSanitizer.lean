import Prismal.Lib.Pieces

namespace Prismal.Security.Pii
open Prismal.Lib Prismal.Lib.Regex
set_option autoImplicit true

/-! Personal data in a text, which gives way to placeholders. -/

abbrev Text := List Char

def asciiDigit (c : Char) : Bool := '0' ≤ c && c ≤ '9'

def asciiLetter (c : Char) : Bool := ('a' ≤ c && c ≤ 'z') || ('A' ≤ c && c ≤ 'Z')

/-- The characters `\w` and `\d`, with what they are in ASCII. -/
structure Unicode where
  isWord : Char → Bool
  isDigit : Char → Bool
  digit_word : ∀ c, isDigit c = true → isWord c = true
  word_ascii : ∀ c, c.toNat < 128 → isWord c = (asciiLetter c || asciiDigit c || c == '_')
  digit_ascii : ∀ c, c.toNat < 128 → isDigit c = asciiDigit c

variable (U : Unicode)

def alphabet : Alphabet Char := ⟨id, U.isWord⟩

/-! The expressions. -/

def chr (c : Char) : Regex := one (.test (· == c))

/-- `_?` -/
def opt (r : Regex) : Regex := alt r eps

def optChr (p : Char → Bool) : Regex := many (.test p) 0 (some 1)

/-- `[0-9]{n}` -/
def digits (n : Nat) : Regex := many (.test asciiDigit) n (some n)

/-- `\b(?:4[0-9]{12}(?:[0-9]{3})?|5[1-5][0-9]{14}|3[47][0-9]{13})\b` -/
def creditCardRe : Regex :=
  bounded (alts
    [seqs [chr '4', digits 12, opt (digits 3)],
      seqs [chr '5', one (.test fun c => '1' ≤ c && c ≤ '5'), digits 14],
      seqs [chr '3', one (.test fun c => c == '4' || c == '7'), digits 13]])

/-- `\d` other than some. -/
def digitBut (cs : List Char) : CharClass := .test fun c => U.isDigit c && !cs.contains c

/-- `\d{n}`, not all of them `c`: `(?!c{n})\d{n}` -/
def notAll (c : Char) : Nat → Regex
  | 0 => many .any 1 (some 0)
  | n + 1 => alt (seq (one (digitBut U [c])) (many (.test U.isDigit) n (some n)))
      (seq (chr c) (notAll c n))

/-- `(?!000|666|9\d{2})\d{3}` -/
def area : Regex :=
  alts [seq (one (digitBut U ['0', '6', '9'])) (many (.test U.isDigit) 2 (some 2)),
    seq (chr '0') (notAll U '0' 2), seq (chr '6') (notAll U '6' 2)]

/-- `[\s\-]?` -/
def ssnSeparator : Regex := optChr fun c => isSpace c || c == '-'

/-- `\b(?!000|666|9\d{2})\d{3}[\s\-]?(?!00)\d{2}[\s\-]?(?!0000)\d{4}\b` -/
def ssnRe : Regex :=
  bounded (seqs [area U, ssnSeparator, notAll U '0' 2, ssnSeparator, notAll U '0' 4])

/-- `[a-zA-Z0-9._%+\-]+@[a-zA-Z0-9.\-]+\.[a-zA-Z]{2,}` -/
def emailRe : Regex :=
  seqs [many (.test fun c => asciiLetter c || asciiDigit c || ['.', '_', '%', '+', '-'].contains c)
      1 none,
    chr '@',
    many (.test fun c => asciiLetter c || asciiDigit c || ['.', '-'].contains c) 1 none,
    chr '.', many (.test asciiLetter) 2 none]

/-- `[-.\s]?` -/
def phoneSeparator : Regex := optChr fun c => c == '-' || c == '.' || isSpace c

/-- `\b(?:\+?1[-.\s]?)?(?:\(?[0-9]{3}\)?[-.\s]?)[0-9]{3}[-.\s]?[0-9]{4}\b` -/
def phoneRe : Regex :=
  bounded (seqs [opt (seqs [optChr (· == '+'), chr '1', phoneSeparator]),
    seqs [optChr (· == '('), digits 3, optChr (· == ')'), phoneSeparator],
    digits 3, phoneSeparator, digits 4])

def creditCard : Pattern := ⟨creditCardRe, rfl⟩

def ssn : Pattern := ⟨ssnRe U, rfl⟩

def email : Pattern := ⟨emailRe, rfl⟩

def phone : Pattern := ⟨phoneRe, rfl⟩

def numbersReplaced (text : Text) : Text :=
  (ssn U).sub (alphabet U) "[SSN]".toList
    (creditCard.sub (alphabet U) "[CREDIT_CARD]".toList text)

def sanitize (text : Text) : Text :=
  if text = [] then text
  else phone.sub (alphabet U) "[PHONE]".toList
    (email.sub (alphabet U) "[EMAIL]".toList (numbersReplaced U text))

/-- `redact_output`, with the setting `hardening_pii_output` -/
def redactOutput (hardeningPiiOutput : Bool) (text : Text) : Text :=
  if text = [] then text else if hardeningPiiOutput then sanitize U text else text

variable {U : Unicode}

theorem toNat_lt_of_asciiDigit {c : Char} (h : asciiDigit c = true) : c.toNat < 128 := by
  have hle : c.toNat ≤ '9'.toNat := of_decide_eq_true (Bool.and_eq_true_iff.1 h).2
  exact Nat.lt_of_le_of_lt hle (by decide)

theorem Unicode.isDigit_of_ascii (U : Unicode) {c : Char} (h : asciiDigit c = true) :
    U.isDigit c = true := by
  rw [U.digit_ascii c (toNat_lt_of_asciiDigit h), h]

/-! What the lookaheads leave. -/

theorem matches_notAll {c : Char} (hc : U.isDigit c = true) {n : Nat} {prev next : Option Char}
    {w : Text} : (notAll U c n).Matches (alphabet U) prev w next ↔
      w.length = n ∧ (∀ a ∈ w, U.isDigit a = true) ∧ w ≠ List.replicate n c := by
  induction n generalizing prev w next with
  | zero =>
    apply iff_of_false
    · intro h
      have hle := h.2.1 0 rfl
      have hge := h.1
      omega
    · intro h
      exact h.2.2 (List.eq_nil_of_length_eq_zero h.1)
  | succ n ih =>
    cases w with
    | nil =>
      apply iff_of_false
      · rintro (⟨u, v, huv, ⟨a, rfl, _⟩, _⟩ | ⟨u, v, huv, ⟨a, rfl, _⟩, _⟩)
        · cases huv
        · cases huv
      · rintro ⟨hlen, _⟩
        cases hlen
    | cons a w =>
      change (seq _ _).Matches _ _ _ _ ∨ (seq _ _).Matches _ _ _ _ ↔ _
      rw [matches_one_seq, chr, matches_one_seq, matches_times, ih]
      by_cases hac : a = c
      · subst hac
        simp [digitBut, CharClass.has, alphabet, List.replicate_succ, hc]
      · simp [digitBut, CharClass.has, alphabet, List.replicate_succ, hac, and_left_comm]

/-! ### What the patterns begin and end with, and what stops them -/

theorem has_asciiDigit (U : Unicode) : ∀ c, (CharClass.test asciiDigit).has c = true →
    U.isDigit c = true :=
  fun _ h => U.isDigit_of_ascii h

theorem endsIn_digits {n : Nat} (hn : 0 < n) : Pattern.EndsIn (alphabet U) U.isDigit (digits n) :=
  .many (has_asciiDigit U) hn _

theorem endsIn_notAll {c : Char} (hc : U.isDigit c = true) {n : Nat} (hn : 0 < n) :
    Pattern.EndsIn (alphabet U) U.isDigit (notAll U c n) := by
  intro prev w next hm
  obtain ⟨hlen, hall, _⟩ := (matches_notAll hc).1 hm
  have hne : w ≠ [] := List.ne_nil_of_length_pos (by omega)
  exact ⟨w.getLast hne, List.getLast?_eq_some_getLast hne, hall _ (List.getLast_mem hne)⟩

theorem endsIn_creditCard :
    Pattern.EndsIn (alphabet U) U.isDigit (alts
      [seqs [chr '4', digits 12, opt (digits 3)],
        seqs [chr '5', one (.test fun c => '1' ≤ c && c ≤ '5'), digits 14],
        seqs [chr '3', one (.test fun c => c == '4' || c == '7'), digits 13]]) := by
  apply Pattern.EndsIn.alt
  · apply Pattern.EndsIn.seq
    exact .seqs_opt (endsIn_digits (by decide)) (endsIn_digits (by decide))
  · apply Pattern.EndsIn.alt
    · exact .seqs (endsIn_digits (by decide)) [_, _]
    · exact .seqs (endsIn_digits (by decide)) [_, _]

theorem guarded_creditCard : Pattern.Guarded (alphabet U) creditCard :=
  Pattern.guarded_bounded rfl rfl U.digit_word endsIn_creditCard

theorem endsIn_ssn : Pattern.EndsIn (alphabet U) U.isDigit
    (seqs [area U, ssnSeparator, notAll U '0' 2, ssnSeparator, notAll U '0' 4]) :=
  .seqs (endsIn_notAll (U.isDigit_of_ascii rfl) (by decide)) [_, _, _, _]

theorem guarded_ssn : Pattern.Guarded (alphabet U) (ssn U) :=
  Pattern.guarded_bounded rfl rfl U.digit_word endsIn_ssn

theorem endsIn_phone : Pattern.EndsIn (alphabet U) U.isDigit
    (seqs [opt (seqs [optChr (· == '+'), chr '1', phoneSeparator]),
      seqs [optChr (· == '('), digits 3, optChr (· == ')'), phoneSeparator],
      digits 3, phoneSeparator, digits 4]) :=
  .seqs (endsIn_digits (by decide)) [_, _, _, _]

theorem guarded_phone : Pattern.Guarded (alphabet U) phone :=
  Pattern.guarded_bounded rfl rfl U.digit_word endsIn_phone

theorem email_at {prev next : Option Char} {w : Text}
    (h : email.expr.Matches (alphabet U) prev w next) : '@' ∈ w := by
  obtain ⟨u, v, rfl, _, u', v', rfl, ⟨a, rfl, ha⟩, _⟩ := h
  have hat : a = '@' := beq_iff_eq.1 ha
  simp [hat]

theorem Unicode.not_isWord_open (U : Unicode) : U.isWord '[' = false := U.word_ascii '[' (by decide)

theorem Unicode.not_isWord_close (U : Unicode) : U.isWord ']' = false :=
  U.word_ascii ']' (by decide)

theorem chr_avoids {c d : Char} (h : d ≠ c) : (chr c).Avoids d := beq_eq_false_iff_ne.2 h

theorem digitBut_avoids {d : Char} (hd : U.isWord d = false) (cs : List Char) :
    (digitBut U cs).has d = false := by
  have hdigit : U.isDigit d = false :=
    Bool.eq_false_iff.2 fun h => Bool.false_ne_true (hd.symm.trans (U.digit_word d h))
  simp [digitBut, CharClass.has, hdigit]

theorem notAll_avoids {d : Char} (hd : U.isWord d = false) {c : Char} (hc : d ≠ c) (n : Nat) :
    (notAll U c n).Avoids d := by
  have hdigit : U.isDigit d = false :=
    Bool.eq_false_iff.2 fun h => Bool.false_ne_true (hd.symm.trans (U.digit_word d h))
  induction n with
  | zero => exact .inl rfl
  | succ n ih =>
    exact ⟨⟨digitBut_avoids hd [c], .inr hdigit⟩, chr_avoids hc, ih⟩

theorem ssn_avoids {d : Char} (hd : U.isWord d = false) (h0 : d ≠ '0') (h6 : d ≠ '6')
    (hs : (isSpace d || d == '-') = false) : (ssn U).expr.Avoids d := by
  have hdigit : U.isDigit d = false :=
    Bool.eq_false_iff.2 fun h => Bool.false_ne_true (hd.symm.trans (U.digit_word d h))
  have hsep : ssnSeparator.Avoids d := .inr hs
  have harea : (area U).Avoids d := ⟨⟨digitBut_avoids hd _, .inr hdigit⟩,
    ⟨chr_avoids h0, notAll_avoids hd h0 2⟩, chr_avoids h6, notAll_avoids hd h6 2⟩
  exact ⟨trivial, ⟨harea, hsep, notAll_avoids hd h0 2, hsep, notAll_avoids hd h0 4, .inl rfl⟩,
    trivial, .inl rfl⟩

/-- The patterns of `sanitize`. -/
def patterns (U : Unicode) : List Pattern := [creditCard, ssn U, email, phone]

theorem avoids_brackets {p : Pattern} (hp : p ∈ patterns U) :
    p.expr.Avoids '[' ∧ p.expr.Avoids ']' := by
  simp only [patterns, List.mem_cons, List.not_mem_nil, or_false] at hp
  rcases hp with rfl | rfl | rfl | rfl
  · apply And.intro <;> simp [creditCard, creditCardRe, bounded, alts, seqs, Avoids, chr, digits,
      opt, eps, CharClass.has, asciiDigit]
  · apply And.intro
    · exact ssn_avoids U.not_isWord_open (by decide) (by decide) (by decide)
    · exact ssn_avoids U.not_isWord_close (by decide) (by decide) (by decide)
  · apply And.intro <;> simp [email, emailRe, seqs, Avoids, chr, eps, CharClass.has, asciiDigit,
      asciiLetter]
  · apply And.intro <;> simp [phone, phoneRe, bounded, seqs, Avoids, chr, digits, opt, optChr,
      phoneSeparator, eps, CharClass.has, asciiDigit, isSpace]

theorem lineless {p : Pattern} (hp : p ∈ patterns U) : p.expr.lineless = true := by
  simp only [patterns, List.mem_cons, List.not_mem_nil, or_false] at hp
  rcases hp with rfl | rfl | rfl | rfl <;> rfl

def plain (mid : Text) : Bool := mid.all fun c => c.toNat < 128 && !asciiDigit c && c != '@'

theorem clean_plain {p : Pattern} (hp : p ∈ patterns U) {mid : Text} (hmid : plain mid = true) :
    p.Clean (alphabet U) none mid := by
  have hall : ∀ c ∈ mid, (c.toNat < 128 ∧ asciiDigit c = false) ∧ c ≠ '@' := by
    simpa [plain] using hmid
  have hdigit : ∀ c ∈ mid, U.isDigit c = false := by
    intro c hc
    rw [U.digit_ascii c (hall c hc).1.1, (hall c hc).1.2]
  simp only [patterns, List.mem_cons, List.not_mem_nil, or_false] at hp
  rcases hp with rfl | rfl | rfl | rfl
  · exact endsIn_creditCard.bounded.clean hdigit none
  · exact endsIn_ssn.bounded.clean hdigit none
  · intro s w e heq hm
    exact (hall '@' (by rw [heq]; simp [email_at hm])).2 rfl
  · exact endsIn_phone.bounded.clean hdigit none

theorem bracketed {p : Pattern} (hp : p ∈ patterns U) (mid : Text) {r : Text}
    (hmid : plain mid = true) (hr : r = '[' :: (mid ++ [']'])) :
    Pattern.Bracketed (alphabet U) p r := by
  obtain ⟨hopen, hclose⟩ := avoids_brackets hp
  exact ⟨lineless hp, '[', mid, ']', hr, clean_plain hp hmid, ⟨hopen, U.not_isWord_open⟩,
    hclose, U.not_isWord_close⟩

theorem guarded {p : Pattern} (hp : p ∈ [creditCard, ssn U, phone]) :
    Pattern.Guarded (alphabet U) p := by
  simp only [List.mem_cons, List.not_mem_nil, or_false] at hp
  rcases hp with rfl | rfl | rfl
  · exact guarded_creditCard
  · exact guarded_ssn
  · exact guarded_phone

theorem meets {p q : Pattern} (hp : p ∈ [creditCard, ssn U, phone]) (hq : q ∈ patterns U) :
    Pattern.Meets (alphabet U) p q := by
  simp only [patterns, List.mem_cons, List.not_mem_nil, or_false] at hq
  rcases hq with rfl | rfl | rfl | rfl
  · exact .inr ⟨guarded hp, guarded_creditCard⟩
  · exact .inr ⟨guarded hp, guarded_ssn⟩
  · exact .inl rfl
  · exact .inr ⟨guarded hp, guarded_phone⟩

theorem mem_patterns {p : Pattern} (hp : p ∈ [creditCard, ssn U]) :
    p ∈ patterns U ∧ p ∈ [creditCard, ssn U, phone] := by
  simp only [patterns, List.mem_cons, List.not_mem_nil, or_false] at hp ⊢
  tauto

/-! ### The four passes -/

theorem creditCard_mem : creditCard ∈ patterns U := .head _

theorem ssn_mem : ssn U ∈ patterns U := .tail _ (.head _)

theorem email_mem : email ∈ patterns U := .tail _ (.tail _ (.head _))

theorem phone_mem : phone ∈ patterns U := .tail _ (.tail _ (.tail _ (.head _)))

theorem bracketed_ssn {p : Pattern} (hp : p ∈ patterns U) :
    Pattern.Bracketed (alphabet U) p "[SSN]".toList :=
  bracketed hp "SSN".toList (by decide) (by decide)

theorem bracketed_email {p : Pattern} (hp : p ∈ patterns U) :
    Pattern.Bracketed (alphabet U) p "[EMAIL]".toList :=
  bracketed hp "EMAIL".toList (by decide) (by decide)

theorem bracketed_phone {p : Pattern} (hp : p ∈ patterns U) :
    Pattern.Bracketed (alphabet U) p "[PHONE]".toList :=
  bracketed hp "PHONE".toList (by decide) (by decide)

theorem creditCard_replaced (text : Text) : creditCard.Clean (alphabet U) none
    (creditCard.sub (alphabet U) "[CREDIT_CARD]".toList text) :=
  Pattern.clean_sub_self
    (bracketed creditCard_mem "CREDIT_CARD".toList (by decide) (by decide))
    (meets (.head _) creditCard_mem) text

theorem numbersReplaced_clean {p : Pattern} (hp : p ∈ [creditCard, ssn U]) (text : Text) :
    p.Clean (alphabet U) none (numbersReplaced U text) := by
  rcases List.mem_pair.1 hp with rfl | rfl
  · exact (creditCard_replaced text).sub (bracketed_ssn creditCard_mem)
      (meets (.tail _ (.head _)) creditCard_mem)
  · exact Pattern.clean_sub_self (bracketed_ssn ssn_mem) (meets (.tail _ (.head _)) ssn_mem) _

theorem sanitize_eq (text : Text) : sanitize U text =
    phone.sub (alphabet U) "[PHONE]".toList
      (email.sub (alphabet U) "[EMAIL]".toList (numbersReplaced U text)) := by
  unfold sanitize
  split
  next h =>
    rw [h]
    rfl
  next => rfl

theorem sanitize_email_clean (text : Text) :
    email.Clean (alphabet U) none (sanitize U text) := by
  rw [sanitize_eq]
  have hemail : email.Clean (alphabet U) none
      (email.sub (alphabet U) "[EMAIL]".toList (numbersReplaced U text)) :=
    Pattern.clean_sub_self (bracketed_email email_mem) (.inl rfl) _
  exact hemail.sub (bracketed_phone email_mem) (.inl rfl)

theorem sanitize_phone_clean (text : Text) :
    phone.Clean (alphabet U) none (sanitize U text) := by
  rw [sanitize_eq]
  exact Pattern.clean_sub_self (bracketed_phone phone_mem)
    (meets (.tail _ (.tail _ (.head _))) phone_mem) _

def stretches (U : Unicode) (text : Text) : List Text :=
  email.split (alphabet U) (numbersReplaced U text)

theorem sanitize_stretches (text : Text) : sanitize U text = "[EMAIL]".toList.intercalate
    ((stretches U text).map (phone.sub (alphabet U) "[PHONE]".toList)) := by
  rw [sanitize_eq, Pattern.sub_eq_intercalate (p := email),
    (bracketed_email phone_mem).sub_intercalate]
  rfl

theorem sanitize_clean_iff {p : Pattern} (hp : p ∈ patterns U) (text : Text) :
    p.Clean (alphabet U) none (sanitize U text) ↔ ∀ g ∈ stretches U text,
      p.Clean (alphabet U) none (phone.sub (alphabet U) "[PHONE]".toList g) := by
  rw [sanitize_stretches, (bracketed_email hp).clean_intercalate, List.forall_mem_map]

/-- No e-mail address has a card number or an SSN right before or behind it, read as if the address
were no part of a word and with the phone numbers of the stretch replaced. -/
def Apart (U : Unicode) (text : Text) : Prop :=
  ∀ p ∈ [creditCard, ssn U], ∀ xs g ys, stretches U text = xs ++ g :: ys →
    (xs ≠ [] → ¬ Pattern.Opens (alphabet U) p (phone.sub (alphabet U) "[PHONE]".toList g)) ∧
    (ys ≠ [] → ¬ Pattern.Closes (alphabet U) p (phone.sub (alphabet U) "[PHONE]".toList g))

theorem sanitize_numbers_iff (U : Unicode) (text : Text) :
    (∀ p ∈ [creditCard, ssn U], p.Clean (alphabet U) none (sanitize U text)) ↔ Apart U text := by
  apply forall₂_congr
  intro p hp
  obtain ⟨hmem, hnum⟩ := mem_patterns hp
  rw [sanitize_clean_iff hmem]
  exact Pattern.pieces_clean_iff (numbersReplaced_clean hp text) (bracketed_phone hmem)
    (meets (.tail _ (.tail _ (.head _))) hmem)

theorem sanitize_of_clean {text : Text}
    (h : ∀ p ∈ patterns U, p.Clean (alphabet U) none text) : sanitize U text = text := by
  have hsame {p : Pattern} (hp : p ∈ patterns U) (r : Text) : p.sub (alphabet U) r text = text :=
    Pattern.sub_of_not_found (Pattern.found_eq_false.2 (h p hp))
  rw [sanitize_eq, numbersReplaced, hsame creditCard_mem, hsame ssn_mem, hsame email_mem,
    hsame phone_mem]

/-- Nothing that the patterns find is left, and another call changes nothing. -/
structure Complete (U : Unicode) (text : Text) : Prop where
  clean : ∀ p ∈ patterns U, p.found (alphabet U) (sanitize U text) = false
  again : sanitize U (sanitize U text) = sanitize U text

theorem sanitize_complete_iff (U : Unicode) (text : Text) : Complete U text ↔ Apart U text := by
  rw [← sanitize_numbers_iff]
  apply Iff.intro
  · intro h p hp
    exact Pattern.found_eq_false.1 (h.clean p (mem_patterns hp).1)
  · intro h
    have hclean : ∀ p ∈ patterns U, p.Clean (alphabet U) none (sanitize U text) := by
      intro p hp
      simp only [patterns, List.mem_cons, List.not_mem_nil, or_false] at hp
      rcases hp with rfl | rfl | rfl | rfl
      · exact h creditCard (.head _)
      · exact h (ssn U) (.tail _ (.head _))
      · exact sanitize_email_clean text
      · exact sanitize_phone_clean text
    exact ⟨fun p hp => Pattern.found_eq_false.2 (hclean p hp), sanitize_of_clean hclean⟩

def ascii : Unicode where
  isWord c := asciiLetter c || asciiDigit c || c == '_'
  isDigit := asciiDigit
  digit_word c h := by rw [h, Bool.or_true, Bool.true_or]
  word_ascii _ _ := rfl
  digit_ascii _ _ := rfl

/-- A card number that an e-mail address runs into is found only when the address is gone. -/
theorem sanitize_leaves_card : ¬ Complete ascii "a@b.com4111111111111".toList := by
  intro h
  exact absurd (h.clean creditCard (.head _)) (by decide +kernel)

end Prismal.Security.Pii
