import Mathlib.Data.Nat.Size
import Prismal.Lib.Codec

namespace Prismal.Identity
open Prismal.Lib
set_option autoImplicit true

/-! base58btc: the bytes of a key as a numeral over 58 characters. -/

abbrev Bytes := List UInt8

inductive DidVerificationError where
  | invalidCharacter (c : Char)
  | multibase (start : String)
  | notEd25519
  | unsupportedMethod (did : String)
  | unresolved (did : String)
  deriving DecidableEq, Repr

def base58Alphabet : List Char :=
  "123456789ABCDEFGHJKLMNPQRSTUVWXYZabcdefghijkmnopqrstuvwxyz".toList

/-- `int.from_bytes(data, "big")` -/
def fromBytes (data : Bytes) : Nat := data.foldl (fun n byte => n * 256 + byte.toNat) 0

/-- `n.to_bytes(length, "big")`, for a number that fits. -/
def toBytes : Nat → Nat → Bytes
  | 0, _ => []
  | length + 1, n => toBytes length (n / 256) ++ [UInt8.ofNat (n % 256)]

def base58Char (rem : Nat) : Char := base58Alphabet.getD rem '1'

def b58encode (data : Bytes) : String :=
  let chars := (Nat.digits 58 (fromBytes data)).map base58Char
  let pad := data.length - (data.dropWhile fun byte => byte == 0).length
  String.ofList (List.replicate pad (base58Char 0) ++ chars.reverse)

def b58value : Nat → List Char → Except DidVerificationError Nat
  | n, [] => .ok n
  | n, c :: rest =>
    match base58Alphabet.idxOf? c with
    | none => .error (.invalidCharacter c)
    | some index => b58value (n * 58 + index) rest

def b58decode (text : String) : Except DidVerificationError Bytes := do
  let n ← b58value 0 text.toList
  let body := if n = 0 then [] else toBytes ((Nat.size n + 7) / 8) n
  let pad := text.toList.length - (text.toList.dropWhile fun c => c == base58Char 0).length
  return List.replicate pad 0 ++ body

/-! Bytes and characters as digits. -/

theorem length_sub_dropWhile (p : α → Bool) (xs : List α) :
    xs.length - (xs.dropWhile p).length = (xs.takeWhile p).length := by
  have h := congrArg List.length (List.takeWhile_append_dropWhile (p := p) (l := xs))
  rw [List.length_append] at h
  omega

theorem byte_lt (data : Bytes) : ∀ d ∈ data.map UInt8.toNat, d < 256 := by
  intro d hd
  obtain ⟨byte, -, rfl⟩ := List.mem_map.1 hd
  exact byte.toNat_lt

theorem fromBytes_eq (data : Bytes) : fromBytes data = Radix.value 256 (data.map UInt8.toNat) := by
  rw [fromBytes, Radix.value, List.foldl_map]

theorem leadingZeros_bytes (data : Bytes) : Radix.leadingZeros (data.map UInt8.toNat) =
    data.length - (data.dropWhile fun byte => byte == 0).length := by
  have hzero : ((fun d => d == 0) ∘ UInt8.toNat) = fun byte : UInt8 => byte == 0 := by
    funext byte
    rw [Function.comp, Bool.eq_iff_iff, beq_iff_eq, beq_iff_eq]
    exact (UInt8.toNat_inj (b := 0))
  rw [length_sub_dropWhile, Radix.leadingZeros, List.takeWhile_map, List.length_map, hzero]

theorem base58_index (hd : d < 58) : base58Alphabet.idxOf? (base58Char d) = some d := by
  revert d
  decide

theorem base58_char (h : base58Alphabet.idxOf? c = some d) : d < 58 ∧ base58Char d = c := by
  obtain ⟨hmem, hd, -⟩ := List.findIdx?_eq_some_iff_getElem.1 h
  have hlength : base58Alphabet.length = 58 := by decide
  rw [hlength] at hmem
  apply And.intro hmem
  rw [base58Char, List.getD_eq_getElem?_getD, List.getElem?_eq_getElem (hlength ▸ hmem)]
  exact beq_iff_eq.1 hd

theorem toNat_toBytes (hlength : (Nat.digits 256 n).length = length) :
    (toBytes length n).map UInt8.toNat = (Nat.digits 256 n).reverse := by
  induction length generalizing n with
  | zero =>
    rw [List.length_eq_zero_iff.1 hlength]
    rfl
  | succ length ih =>
    have hn : n ≠ 0 := by
      intro hn
      rw [hn, Nat.digits_zero] at hlength
      cases hlength
    have hdigits := Nat.digits_eq_cons_digits_div (b := 256) (by decide) hn
    rw [hdigits, List.length_cons, Nat.add_right_cancel_iff] at hlength
    have hbyte : (UInt8.ofNat (n % 256)).toNat = n % 256 :=
      UInt8.toNat_ofNat_of_lt (Nat.mod_lt n (by decide))
    rw [toBytes, List.map_append, ih hlength, hdigits, List.reverse_cons, List.map_singleton, hbyte]

theorem length_digits (n : Nat) (hn : n ≠ 0) :
    (Nat.digits 256 n).length = (Nat.size n + 7) / 8 := by
  have hpow : ∀ k, 256 ^ k = 2 ^ (8 * k) := fun k => Nat.pow_mul 2 8 k ▸ rfl
  have hupper : Nat.size n ≤ 8 * (Nat.digits 256 n).length := by
    rw [Nat.size_le, ← hpow]
    exact Nat.lt_base_pow_length_digits (by decide)
  have hlower : 8 * ((Nat.digits 256 n).length - 1) < Nat.size n := by
    rw [Nat.lt_size, ← hpow]
    apply Nat.le_of_not_lt
    intro hlt
    have hle := (Nat.digits_length_le_iff (by decide : 1 < 256) n).2 hlt
    have hpos := List.length_pos_iff.2 (Nat.digits_ne_nil_iff_ne_zero (b := 256).2 hn)
    omega
  omega

theorem toNat_body (n : Nat) : (if n = 0 then [] else toBytes ((Nat.size n + 7) / 8) n).map
    UInt8.toNat = (Nat.digits 256 n).reverse := by
  by_cases hn : n = 0
  · rw [if_pos hn, hn, Nat.digits_zero]
    rfl
  · rw [if_neg hn]
    exact toNat_toBytes (length_digits n hn)

/-! Both conversions as conversions of numerals. -/

theorem toList_b58encode (data : Bytes) :
    (b58encode data).toList = (Radix.recode 256 58 (data.map UInt8.toNat)).map base58Char := by
  rw [b58encode, String.toList_ofList, Radix.recode, Radix.numeral, leadingZeros_bytes,
    fromBytes_eq, List.map_append, List.map_replicate, List.map_reverse]

theorem b58value_map {ds : List Nat} (h : ∀ d ∈ ds, d < 58) (n : Nat) :
    b58value n (ds.map base58Char) = .ok (ds.foldl (fun n d => n * 58 + d) n) := by
  induction ds generalizing n with
  | nil => rfl
  | cons d ds ih =>
    rw [List.map_cons, b58value, base58_index (h d List.mem_cons_self)]
    exact ih (fun e he => h e (List.mem_cons_of_mem _ he)) _

theorem leadingZeros_chars {ds : List Nat} (h : ∀ d ∈ ds, d < 58) :
    ((ds.map base58Char).takeWhile fun c => c == base58Char 0).length = Radix.leadingZeros ds := by
  induction ds with
  | nil => rfl
  | cons d ds ih =>
    have hzero : (base58Char d == base58Char 0) = (d == 0) := by
      rw [Bool.eq_iff_iff, beq_iff_eq, beq_iff_eq]
      apply Iff.intro
      · intro heq
        have hindex := base58_index (h d List.mem_cons_self)
        rw [heq, base58_index (by decide)] at hindex
        exact (Option.some.inj hindex).symm
      · intro heq
        rw [heq]
    rw [List.map_cons, List.takeWhile_cons, Radix.leadingZeros, List.takeWhile_cons, hzero]
    cases d == 0 with
    | true => exact congrArg Nat.succ (ih fun e he => h e (List.mem_cons_of_mem _ he))
    | false => rfl

theorem b58decode_of_toList {ds : List Nat} (h : ∀ d ∈ ds, d < 58)
    (htext : text.toList = ds.map base58Char) :
    ∃ data, b58decode text = .ok data ∧ data.map UInt8.toNat = Radix.recode 58 256 ds := by
  rw [b58decode, htext, b58value_map h, length_sub_dropWhile, leadingZeros_chars h]
  refine ⟨_, rfl, ?_⟩
  rw [List.map_append, List.map_replicate, toNat_body]
  rfl

theorem b58encode_of_toNat {data : Bytes} {ds : List Nat} (h : ∀ d ∈ ds, d < 58)
    (hdata : data.map UInt8.toNat = Radix.recode 58 256 ds) :
    (b58encode data).toList = ds.map base58Char := by
  rw [toList_b58encode, hdata, Radix.recode_recode (by decide) h]

theorem exists_digits {cs : List Char} (h : ∀ c ∈ cs, c ∈ base58Alphabet) :
    ∃ ds : List Nat, (∀ d ∈ ds, d < 58) ∧ cs = ds.map base58Char := by
  induction cs with
  | nil => exact ⟨[], by simp⟩
  | cons c cs ih =>
    obtain ⟨ds, hds, hcs⟩ := ih fun d hd => h d (List.mem_cons_of_mem _ hd)
    obtain ⟨d, hd⟩ := Option.isSome_iff_exists.1
      (List.isSome_idxOf?.2 (h c List.mem_cons_self))
    obtain ⟨hlt, hchar⟩ := base58_char hd
    refine ⟨d :: ds, ?_, ?_⟩
    · intro e he
      cases List.mem_cons.1 he with
      | inl heq => exact heq ▸ hlt
      | inr hmem => exact hds e hmem
    · rw [List.map_cons, hchar, hcs]

theorem mem_of_b58value (h : b58value n cs = .ok m) : ∀ c ∈ cs, c ∈ base58Alphabet := by
  induction cs generalizing n with
  | nil =>
    intro c hc
    cases hc
  | cons c cs ih =>
    rw [b58value] at h
    cases hindex : base58Alphabet.idxOf? c with
    | none =>
      rw [hindex] at h
      cases h
    | some index =>
      rw [hindex] at h
      intro d hd
      cases List.mem_cons.1 hd with
      | inl heq =>
        rw [heq]
        exact List.isSome_idxOf?.1 (Option.isSome_iff_exists.2 ⟨index, hindex⟩)
      | inr hmem => exact ih h d hmem

theorem b58decode_b58encode (data : Bytes) : b58decode (b58encode data) = .ok data := by
  obtain ⟨data', hdecoded, hdigits⟩ :=
    b58decode_of_toList (Radix.recode_lt (by decide) _) (toList_b58encode data)
  rw [Radix.recode_recode (by decide) (byte_lt data)] at hdigits
  have hsame : data' = data := List.map_injective_iff.2 (fun _ _ => UInt8.toNat_inj.1) hdigits
  rw [hdecoded, hsame]

theorem b58encode_b58decode (h : ∀ c ∈ text.toList, c ∈ base58Alphabet) :
    ∃ data, b58decode text = .ok data ∧ b58encode data = text := by
  obtain ⟨ds, hds, htext⟩ := exists_digits h
  obtain ⟨data, hdecoded, hdigits⟩ := b58decode_of_toList hds htext
  refine ⟨data, hdecoded, String.toList_injective ?_⟩
  rw [b58encode_of_toNat hds hdigits, htext]

theorem b58encode_of_b58decode (h : b58decode text = .ok data) : b58encode data = text := by
  have hmem : ∀ c ∈ text.toList, c ∈ base58Alphabet := by
    rw [b58decode] at h
    cases hvalue : b58value 0 text.toList with
    | error e =>
      rw [hvalue] at h
      cases h
    | ok n => exact mem_of_b58value hvalue
  obtain ⟨data', hdecoded, hencoded⟩ := b58encode_b58decode hmem
  cases hdecoded.symm.trans h
  exact hencoded

/-- base58 round trips: of every byte string, and of every text over the alphabet. -/
theorem base58_round_trips :
    (∀ data : Bytes, b58decode (b58encode data) = .ok data) ∧
    ∀ text : String, (∀ c ∈ text.toList, c ∈ base58Alphabet) →
      ∃ data, b58decode text = .ok data ∧ b58encode data = text :=
  ⟨b58decode_b58encode, fun _ h => b58encode_b58decode h⟩

end Prismal.Identity
