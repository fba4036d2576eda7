import Prismal.Lib.Json

namespace Prismal.Lib.Json
open Prismal.Lib
set_option autoImplicit true

/-! The text of a syntax tree, as `json.dumps` writes it, and what the text determines. -/

def hexDigit (n : Nat) : Char := "0123456789abcdef".toList.getD (n % 16) '0'

def unhex (c : Char) : Nat := "0123456789abcdef".toList.idxOf c

/-- `\uXXXX` -/
def escapeUnit (n : Nat) : List Char :=
  ['\\', 'u', hexDigit (n / 4096), hexDigit (n / 256), hexDigit (n / 16), hexDigit n]

def shortEscapes : List (Char × Char) :=
  [('"', '"'), ('\\', '\\'), ('\n', 'n'), ('\r', 'r'), ('\t', 't'), ('\x08', 'b'), ('\x0c', 'f')]

def escape (c : Char) : List Char :=
  if 32 ≤ c.toNat ∧ c.toNat ≤ 126 ∧ c ≠ '"' ∧ c ≠ '\\' then [c]
  else
    match shortEscapes.find? fun p => p.1 == c with
    | some p => ['\\', p.2]
    | none =>
      if c.toNat < 65536 then escapeUnit c.toNat
      else
        escapeUnit (55296 + (c.toNat - 65536) / 1024) ++
          escapeUnit (56320 + (c.toNat - 65536) % 1024)

def readUnit : List Char → Option (Nat × List Char)
  | a :: b :: c :: d :: rest =>
    some (4096 * unhex a + 256 * unhex b + 16 * unhex c + unhex d, rest)
  | _ => none

def readUnits (cs : List Char) : Option (Char × List Char) :=
  match readUnit cs with
  | none => none
  | some (high, rest) =>
    if 55296 ≤ high ∧ high < 56320 then
      match readUnit (rest.drop 2) with
      | none => none
      | some (low, rest) =>
        some (Char.ofNat (65536 + 1024 * (high - 55296) + (low - 56320)), rest)
    else some (Char.ofNat high, rest)

def readChar : List Char → Option (Char × List Char)
  | [] => none
  | c :: rest =>
    if c = '"' then none
    else if c = '\\' then
      match rest with
      | [] => none
      | e :: rest =>
        match shortEscapes.find? fun p => p.2 == e with
        | some p => some (p.1, rest)
        | none => readUnits rest
    else some (c, rest)

theorem unhex_hexDigit (n : Nat) : unhex (hexDigit n) = n % 16 := by
  have hall : ∀ k < 16, unhex (hexDigit k) = k := by decide
  have hmod : hexDigit n = hexDigit (n % 16) := by rw [hexDigit, hexDigit, Nat.mod_mod]
  rw [hmod]
  exact hall (n % 16) (Nat.mod_lt n (by decide))

theorem readUnit_escapeUnit (h : n < 65536) (rest : List Char) :
    readUnit ((escapeUnit n ++ rest).drop 2) = some (n, rest) := by
  have hunit : readUnit ((escapeUnit n ++ rest).drop 2) =
      some (4096 * unhex (hexDigit (n / 4096)) + 256 * unhex (hexDigit (n / 256)) +
        16 * unhex (hexDigit (n / 16)) + unhex (hexDigit n), rest) := rfl
  have hvalue :
      4096 * (n / 4096 % 16) + 256 * (n / 256 % 16) + 16 * (n / 16 % 16) + n % 16 = n := by
    omega
  rw [hunit, unhex_hexDigit, unhex_hexDigit, unhex_hexDigit, unhex_hexDigit, hvalue]

theorem readChar_escapeUnit (n : Nat) (rest : List Char) :
    readChar (escapeUnit n ++ rest) = readUnits ((escapeUnit n ++ rest).drop 2) := rfl

theorem readChar_unit (h : n < 65536) (hn : ¬ (55296 ≤ n ∧ n < 56320)) (rest : List Char) :
    readChar (escapeUnit n ++ rest) = some (Char.ofNat n, rest) := by
  rw [readChar_escapeUnit, readUnits, readUnit_escapeUnit h]
  exact if_neg hn

theorem readChar_pair (h : high < 1024) (hl : low < 1024) (rest : List Char) :
    readChar (escapeUnit (55296 + high) ++ escapeUnit (56320 + low) ++ rest) =
      some (Char.ofNat (65536 + 1024 * high + low), rest) := by
  have hrange : 55296 ≤ 55296 + high ∧ 55296 + high < 56320 := by omega
  rw [List.append_assoc, readChar_escapeUnit, readUnits, readUnit_escapeUnit (by omega)]
  dsimp only
  rw [if_pos hrange, readUnit_escapeUnit (by omega), Nat.add_sub_cancel_left]
  dsimp only
  rw [Nat.add_sub_cancel_left]

theorem readChar_self (h : c ≠ '"') (h' : c ≠ '\\') (rest : List Char) :
    readChar (c :: rest) = some (c, rest) := by
  simp only [readChar, if_neg h, if_neg h']

theorem readChar_short (hp : shortEscapes.find? (fun p => p.1 == c) = some p) (rest : List Char) :
    readChar (['\\', p.2] ++ rest) = some (c, rest) := by
  have hmem := List.mem_of_find?_eq_some hp
  have hchar : p.1 = c := by simpa using List.find?_some hp
  have hfind : ∀ p ∈ shortEscapes, shortEscapes.find? (fun q => q.2 == p.2) = some p := by
    decide
  have hread : readChar (['\\', p.2] ++ rest) =
      match shortEscapes.find? fun q => q.2 == p.2 with
      | some q => some (q.1, rest)
      | none => readUnits rest := rfl
  rw [hread, hfind p hmem, ← hchar]

theorem readChar_escape (c : Char) (rest : List Char) :
    readChar (escape c ++ rest) = some (c, rest) := by
  rw [escape]
  split
  · next hplain => exact readChar_self hplain.2.2.1 hplain.2.2.2 rest
  · split
    · next p hp => exact readChar_short hp rest
    · have hvalid := c.valid
      rw [UInt32.isValidChar, Nat.isValidChar] at hvalid
      have hnat : c.val.toNat = c.toNat := rfl
      rw [hnat] at hvalid
      split
      · rw [readChar_unit (by omega) (by omega), Char.ofNat_toNat]
      · rw [readChar_pair (by omega) (by omega)]
        have hsum : 65536 + 1024 * ((c.toNat - 65536) / 1024) + (c.toNat - 65536) % 1024 =
            c.toNat := by omega
        rw [hsum, Char.ofNat_toNat]

def escapeControl (c : Char) : List Char :=
  if 32 ≤ c.toNat ∧ c ≠ '"' ∧ c ≠ '\\' then [c]
  else
    match shortEscapes.find? fun p => p.1 == c with
    | some p => ['\\', p.2]
    | none => escapeUnit c.toNat

theorem readChar_escapeControl (c : Char) (rest : List Char) :
    readChar (escapeControl c ++ rest) = some (c, rest) := by
  rw [escapeControl]
  split
  · next hplain => exact readChar_self hplain.2.1 hplain.2.2 rest
  · next hcontrol =>
    split
    · next p hp => exact readChar_short hp rest
    · next hnone =>
      have hquote : c ≠ '"' := by
        rintro rfl
        cases hnone
      have hslash : c ≠ '\\' := by
        rintro rfl
        cases hnone
      have hlow : ¬32 ≤ c.toNat := fun h => hcontrol ⟨h, hquote, hslash⟩
      rw [readChar_unit (by omega) (by omega), Char.ofNat_toNat]

def quoted (s : String) : List Char := '"' :: s.toList.flatMap escape ++ ['"']

mutual

/-- `json.dumps`: the items after the first are set off by a comma and a blank. -/
def write : Tree → List Char
  | .null => "null".toList
  | .bool b => if b then "true".toList else "false".toList
  | .num t => t.toList
  | .str s => quoted s
  | .arr xs => '[' :: writeItems true xs
  | .obj es => '{' :: writeEntries true es

def writeItems (first : Bool) : List Tree → List Char
  | [] => [']']
  | x :: xs => (if first then [] else [',', ' ']) ++ (write x ++ writeItems false xs)

def writeEntries (first : Bool) : List (String × Tree) → List Char
  | [] => ['}']
  | (k, v) :: es =>
    (if first then [] else [',', ' ']) ++
      (quoted k ++ ([':', ' '] ++ (write v ++ writeEntries false es)))

end

/-- Characters of a number: digits, signs, `NaN` and `Infinity`. -/
def numChar (c : Char) : Bool := c.isAlphanum || c == '+' || c == '-' || c == '.'

inductive Lead where
  | null
  | bool
  | num
  | str
  | arr
  | obj
  | none
  deriving DecidableEq

def leadOf (c : Char) : Lead :=
  if c = 'n' then .null
  else if c = 't' ∨ c = 'f' then .bool
  else if c = '"' then .str
  else if c = '[' then .arr
  else if c = '{' then .obj
  else if numChar c then .num
  else .none

def Tree.lead : Tree → Lead
  | .null => .null
  | .bool _ => .bool
  | .num _ => .num
  | .str _ => .str
  | .arr _ => .arr
  | .obj _ => .obj

def isNumText (t : String) : Bool :=
  match t.toList with
  | [] => false
  | c :: cs => decide (leadOf c = .num) && (c :: cs).all numChar

mutual

def wellFormed : Tree → Bool
  | .num t => isNumText t
  | .arr xs => wellFormedItems xs
  | .obj es => decide (es.map Prod.fst).Nodup && wellFormedEntries es
  | _ => true

def wellFormedItems : List Tree → Bool
  | [] => true
  | x :: xs => wellFormed x && wellFormedItems xs

def wellFormedEntries : List (String × Tree) → Bool
  | [] => true
  | (_, v) :: es => wellFormed v && wellFormedEntries es

end

def Delimited (r : List Char) : Prop := ∀ c ∈ r.head?, numChar c = false

/-- A way to write texts: how the characters of a string are written so that they can be read
back, and what comes after a comma or a colon. -/
structure Dialect where
  escape : Char → List Char
  gap : List Char
  readable : ∀ c rest, readChar (escape c ++ rest) = some (c, rest)

namespace Dialect

def quoted (D : Dialect) (s : String) : List Char := '"' :: s.toList.flatMap D.escape ++ ['"']

mutual

def write (D : Dialect) : Tree → List Char
  | .null => "null".toList
  | .bool b => if b then "true".toList else "false".toList
  | .num t => t.toList
  | .str s => D.quoted s
  | .arr xs => '[' :: writeItems D true xs
  | .obj es => '{' :: writeEntries D true es

def writeItems (D : Dialect) (first : Bool) : List Tree → List Char
  | [] => [']']
  | x :: xs => (if first then [] else ',' :: D.gap) ++ (write D x ++ writeItems D false xs)

def writeEntries (D : Dialect) (first : Bool) : List (String × Tree) → List Char
  | [] => ['}']
  | (k, v) :: es =>
    (if first then [] else ',' :: D.gap) ++
      (D.quoted k ++ (':' :: D.gap ++ (write D v ++ writeEntries D false es)))

end

variable {D : Dialect}

theorem quoted_cancel (h : D.quoted a ++ r = D.quoted b ++ s) : a = b ∧ r = s := by
  have hchars : ∀ cs ds : List Char,
      cs.flatMap D.escape ++ '"' :: r = ds.flatMap D.escape ++ '"' :: s → cs = ds ∧ r = s := by
    intro cs
    induction cs with
    | nil =>
      intro ds heq
      cases ds with
      | nil => exact ⟨rfl, List.tail_eq_of_cons_eq heq⟩
      | cons d ds =>
        have hread := congrArg readChar heq
        rw [List.flatMap_cons, List.append_assoc, D.readable] at hread
        cases hread
    | cons c cs ih =>
      intro ds heq
      cases ds with
      | nil =>
        have hread := congrArg readChar heq
        rw [List.flatMap_cons, List.append_assoc, D.readable] at hread
        cases hread
      | cons d ds =>
        have hread := congrArg readChar heq
        rw [List.flatMap_cons, List.flatMap_cons, List.append_assoc, List.append_assoc,
          D.readable, D.readable, Option.some.injEq, Prod.mk.injEq] at hread
        obtain ⟨rfl, hrest⟩ := hread
        obtain ⟨rfl, hrs⟩ := ih ds hrest
        exact ⟨rfl, hrs⟩
  rw [quoted, quoted, List.append_assoc, List.append_assoc] at h
  obtain ⟨hlist, hrs⟩ := hchars a.toList b.toList (List.tail_eq_of_cons_eq h)
  exact ⟨String.ext hlist, hrs⟩

theorem write_lead {t : Tree} (h : wellFormed t = true) :
    ∃ c cs, D.write t = c :: cs ∧ leadOf c = t.lead := by
  cases t with
  | null => exact ⟨_, _, rfl, by decide⟩
  | bool b =>
    cases b with
    | true => exact ⟨_, _, rfl, by decide⟩
    | false => exact ⟨_, _, rfl, by decide⟩
  | num t =>
    rw [wellFormed, isNumText] at h
    rw [write]
    split at h
    · cases h
    · next c cs ht => exact ⟨c, cs, ht, of_decide_eq_true (Bool.and_eq_true _ _ ▸ h).1⟩
  | str s => exact ⟨_, _, rfl, rfl⟩
  | arr xs => exact ⟨_, _, rfl, rfl⟩
  | obj es => exact ⟨_, _, rfl, rfl⟩

theorem num_cancel {a b : List Char} (ha : a.all numChar = true) (hb : b.all numChar = true)
    (hr : Delimited r) (hs : Delimited s) (h : a ++ r = b ++ s) : a = b ∧ r = s := by
  have htake : ∀ {a r : List Char}, a.all numChar = true → Delimited r →
      (a ++ r).takeWhile numChar = a := by
    intro a r ha hr
    rw [List.takeWhile_append_of_pos fun c hc => List.all_eq_true.1 ha c hc]
    cases r with
    | nil => rw [List.takeWhile_nil, List.append_nil]
    | cons c r =>
      rw [List.takeWhile_cons_of_neg (by rw [hr c rfl]; exact Bool.false_ne_true), List.append_nil]
  have hsame : a = b := by rw [← htake ha hr, h, htake hb hs]
  rw [hsame] at h
  exact ⟨hsame, List.append_cancel_left h⟩

theorem num_chars (h : wellFormed (.num t) = true) : t.toList.all numChar = true := by
  rw [wellFormed, isNumText] at h
  split at h
  · cases h
  · next ht =>
    rw [ht]
    exact (Bool.and_eq_true _ _ ▸ h).2

theorem lead_eq (ha : wellFormed a = true) (hb : wellFormed b = true)
    (h : D.write a ++ r = D.write b ++ s) : a.lead = b.lead := by
  obtain ⟨c, cs, hc, hlead⟩ := write_lead ha
  obtain ⟨d, ds, hd, hlead'⟩ := write_lead hb
  rw [hc, hd] at h
  rw [← hlead, ← hlead', (List.cons_eq_cons.1 h).1]

theorem not_value (hb : wellFormed b = true) (hc : leadOf c = .none) :
    c :: r ≠ D.write b ++ s := by
  obtain ⟨d, ds, hd, hlead⟩ := write_lead hb
  intro h
  rw [hd] at h
  rw [(List.cons_eq_cons.1 h).1, hlead] at hc
  cases b <;> cases hc

theorem delimited_items (xs : List Tree) (r : List Char) :
    Delimited (D.writeItems false xs ++ r) := by
  intro c hc
  cases xs with
  | nil =>
    cases hc
    rfl
  | cons x xs =>
    cases hc
    rfl

theorem delimited_entries (es : List (String × Tree)) (r : List Char) :
    Delimited (D.writeEntries false es ++ r) := by
  intro c hc
  cases es with
  | nil =>
    cases hc
    rfl
  | cons e es =>
    cases hc
    rfl

mutual

theorem write_cancel : ∀ (a b : Tree) (r s : List Char), wellFormed a = true →
    wellFormed b = true → Delimited r → Delimited s → D.write a ++ r = D.write b ++ s →
      a = b ∧ r = s
  | .null, b, r, s, ha, hb, hr, hs, h => by
    have hlead := lead_eq ha hb h
    cases b <;> cases hlead
    exact ⟨rfl, List.append_cancel_left h⟩
  | .bool x, b, r, s, ha, hb, hr, hs, h => by
    have hlead := lead_eq ha hb h
    cases b <;> cases hlead
    next y =>
      have hsame : x = y := by
        have hhead := congrArg List.head? h
        cases x <;> cases y <;> first | rfl | exact absurd hhead (by simp [write])
      subst hsame
      exact ⟨rfl, List.append_cancel_left h⟩
  | .num x, b, r, s, ha, hb, hr, hs, h => by
    have hlead := lead_eq ha hb h
    cases b <;> cases hlead
    next y =>
      obtain ⟨hxy, hrs⟩ := num_cancel (num_chars ha) (num_chars hb) hr hs h
      rw [String.ext hxy]
      exact ⟨rfl, hrs⟩
  | .str x, b, r, s, ha, hb, hr, hs, h => by
    have hlead := lead_eq ha hb h
    cases b <;> cases hlead
    next y =>
      obtain ⟨rfl, hrs⟩ := quoted_cancel h
      exact ⟨rfl, hrs⟩
  | .arr xs, b, r, s, ha, hb, hr, hs, h => by
    have hlead := lead_eq ha hb h
    cases b <;> cases hlead
    next ys =>
      obtain ⟨rfl, hrs⟩ := items_cancel xs ys true r s ha hb (List.tail_eq_of_cons_eq h)
      exact ⟨rfl, hrs⟩
  | .obj es, b, r, s, ha, hb, hr, hs, h => by
    have hlead := lead_eq ha hb h
    cases b <;> cases hlead
    next fs =>
      rw [wellFormed, Bool.and_eq_true] at ha hb
      obtain ⟨rfl, hrs⟩ := entries_cancel es fs true r s ha.2 hb.2 (List.tail_eq_of_cons_eq h)
      exact ⟨rfl, hrs⟩

theorem items_cancel : ∀ (xs ys : List Tree) (first : Bool) (r s : List Char),
    wellFormedItems xs = true → wellFormedItems ys = true →
      D.writeItems first xs ++ r = D.writeItems first ys ++ s → xs = ys ∧ r = s
  | [], [], first, r, s, hx, hy, h => ⟨rfl, List.tail_eq_of_cons_eq h⟩
  | [], y :: ys, first, r, s, hx, hy, h => by
    rw [wellFormedItems, Bool.and_eq_true] at hy
    cases first with
    | true =>
      rw [writeItems, writeItems, if_pos rfl, List.nil_append, List.append_assoc] at h
      exact absurd h (not_value hy.1 rfl)
    | false => cases h
  | x :: xs, [], first, r, s, hx, hy, h => by
    rw [wellFormedItems, Bool.and_eq_true] at hx
    cases first with
    | true =>
      rw [writeItems, writeItems, if_pos rfl, List.nil_append, List.append_assoc] at h
      exact absurd h.symm (not_value hx.1 rfl)
    | false => cases h
  | x :: xs, y :: ys, first, r, s, hx, hy, h => by
    rw [wellFormedItems, Bool.and_eq_true] at hx hy
    simp only [writeItems, List.append_assoc, List.append_cancel_left_eq] at h
    obtain ⟨rfl, hrest⟩ := write_cancel x y _ _ hx.1 hy.1 (delimited_items xs r)
      (delimited_items ys s) h
    obtain ⟨rfl, hrs⟩ := items_cancel xs ys false r s hx.2 hy.2 hrest
    exact ⟨rfl, hrs⟩

theorem entries_cancel : ∀ (es fs : List (String × Tree)) (first : Bool) (r s : List Char),
    wellFormedEntries es = true → wellFormedEntries fs = true →
      D.writeEntries first es ++ r = D.writeEntries first fs ++ s → es = fs ∧ r = s
  | [], [], first, r, s, he, hf, h => ⟨rfl, List.tail_eq_of_cons_eq h⟩
  | [], (k, v) :: fs, first, r, s, he, hf, h => by
    cases first with
    | true => cases h
    | false => cases h
  | (k, v) :: es, [], first, r, s, he, hf, h => by
    cases first with
    | true => cases h
    | false => cases h
  | (j, v) :: es, (k, w) :: fs, first, r, s, he, hf, h => by
    rw [wellFormedEntries, Bool.and_eq_true] at he hf
    simp only [writeEntries, List.append_assoc, List.append_cancel_left_eq] at h
    obtain ⟨rfl, hvalue⟩ := quoted_cancel h
    rw [List.append_cancel_left_eq] at hvalue
    obtain ⟨rfl, hrest⟩ := write_cancel v w _ _ he.1 hf.1 (delimited_entries es r)
      (delimited_entries fs s) hvalue
    obtain ⟨rfl, hrs⟩ := entries_cancel es fs false r s he.2 hf.2 hrest
    exact ⟨rfl, hrs⟩

end

theorem write_injective (D : Dialect) (ha : wellFormed a = true) (hb : wellFormed b = true)
    (h : D.write a = D.write b) : a = b := by
  have hnil : Delimited [] := fun c hc => by cases hc
  apply (write_cancel (D := D) a b [] [] ha hb hnil hnil _).1
  rw [h]

end Dialect

/-- The dialect of `json.dumps` with its defaults. -/
def plain : Dialect := ⟨escape, [' '], readChar_escape⟩

/-- The dialect with `separators=(",", ":")` and `ensure_ascii=False`. -/
def compact : Dialect := ⟨escapeControl, [], readChar_escapeControl⟩

mutual

theorem write_plain : ∀ t, write t = plain.write t
  | .null => rfl
  | .bool _ => rfl
  | .num _ => rfl
  | .str _ => rfl
  | .arr xs => by rw [write, Dialect.write, writeItems_plain true xs]
  | .obj es => by rw [write, Dialect.write, writeEntries_plain true es]

theorem writeItems_plain : ∀ first xs, writeItems first xs = plain.writeItems first xs
  | first, [] => rfl
  | first, x :: xs => by
    rw [writeItems, Dialect.writeItems, write_plain x, writeItems_plain false xs]
    rfl

theorem writeEntries_plain : ∀ first es, writeEntries first es = plain.writeEntries first es
  | first, [] => rfl
  | first, (k, v) :: es => by
    rw [writeEntries, Dialect.writeEntries, write_plain v, writeEntries_plain false es]
    rfl

end

/-! Sorted texts. -/

theorem wellFormedEntries_iff (es : List (String × Tree)) :
    wellFormedEntries es = true ↔ ∀ e ∈ es, wellFormed e.2 = true := by
  induction es with
  | nil => simp [wellFormedEntries]
  | cons e es ih =>
    obtain ⟨k, v⟩ := e
    rw [wellFormedEntries, Bool.and_eq_true, ih, List.forall_mem_cons]

theorem canonEntries_eq (es : List (String × Tree)) :
    canonEntries es = es.map fun e => (e.1, canon e.2) := by
  induction es with
  | nil => rfl
  | cons e es ih =>
    obtain ⟨k, v⟩ := e
    rw [canonEntries, ih, List.map_cons]

theorem canon_obj (hn : (es.map Prod.fst).Nodup) :
    canon (.obj es) = .obj ((canonEntries es).insertionSort byText) := by
  rw [canon, Dict.entries_collect (by rw [keys_canonEntries]; exact hn)]

mutual

theorem wellFormed_canon : ∀ t : Tree, wellFormed t = true → wellFormed (canon t) = true
  | .null, h => h
  | .bool b, h => h
  | .num t, h => h
  | .str s, h => h
  | .arr xs, h => wellFormedItems_canon xs h
  | .obj es, h => by
    rw [wellFormed, Bool.and_eq_true, decide_eq_true_eq] at h
    have hperm := List.perm_insertionSort byText (canonEntries es)
    rw [canon_obj h.1, wellFormed, Bool.and_eq_true, decide_eq_true_eq]
    constructor
    · rw [(hperm.map Prod.fst).nodup_iff, keys_canonEntries]
      exact h.1
    · rw [wellFormedEntries_iff]
      intro e he
      exact wellFormedEntries_canon es h.2 e (hperm.mem_iff.1 he)

theorem wellFormedItems_canon : ∀ xs : List Tree, wellFormedItems xs = true →
    wellFormedItems (canonItems xs) = true
  | [], h => h
  | x :: xs, h => by
    rw [wellFormedItems, Bool.and_eq_true] at h
    rw [canonItems, wellFormedItems, wellFormed_canon x h.1, wellFormedItems_canon xs h.2]
    rfl

theorem wellFormedEntries_canon : ∀ es : List (String × Tree), wellFormedEntries es = true →
    ∀ e ∈ canonEntries es, wellFormed e.2 = true
  | [], h, e, he => absurd he List.not_mem_nil
  | (k, v) :: es, h, e, he => by
    rw [wellFormedEntries, Bool.and_eq_true] at h
    rcases List.mem_cons.1 he with rfl | he
    · exact wellFormed_canon v h.1
    · exact wellFormedEntries_canon es h.2 e he

end

mutual

def Same : Tree → Tree → Prop
  | .null, .null => True
  | .bool b, .bool c => b = c
  | .num t, .num u => t = u
  | .str s, .str t => s = t
  | .arr xs, .arr ys => SameItems xs ys
  | .obj es, .obj fs => es.length = fs.length ∧ SameEntries es fs
  | _, _ => False

def SameItems : List Tree → List Tree → Prop
  | [], [] => True
  | x :: xs, y :: ys => Same x y ∧ SameItems xs ys
  | _, _ => False

def SameEntries : List (String × Tree) → List (String × Tree) → Prop
  | [], _ => True
  | (k, v) :: es, fs => (∃ w, (k, w) ∈ fs ∧ Same v w) ∧ SameEntries es fs

end

theorem sameEntries_iff (es fs : List (String × Tree)) :
    SameEntries es fs ↔ ∀ e ∈ es, ∃ w, (e.1, w) ∈ fs ∧ Same e.2 w := by
  induction es with
  | nil => simp [SameEntries]
  | cons e es ih =>
    obtain ⟨k, v⟩ := e
    rw [SameEntries, ih, List.forall_mem_cons]

mutual

theorem same_of_canon : ∀ a b : Tree, wellFormed a = true → wellFormed b = true →
    canon a = canon b → Same a b
  | .null, b, ha, hb, h => by
    cases b <;> trivial
  | .bool x, b, ha, hb, h => by
    cases b <;> cases h
    exact rfl
  | .num x, b, ha, hb, h => by
    cases b <;> cases h
    exact rfl
  | .str x, b, ha, hb, h => by
    cases b <;> cases h
    exact rfl
  | .arr xs, b, ha, hb, h => by
    cases b with
    | arr ys => exact sameItems_of_canon xs ys ha hb (Tree.arr.inj h)
    | null => cases h
    | bool y => cases h
    | num y => cases h
    | str y => cases h
    | obj fs => cases h
  | .obj es, b, ha, hb, h => by
    cases b with
    | obj fs =>
      rw [wellFormed, Bool.and_eq_true, decide_eq_true_eq] at ha hb
      rw [canon_obj ha.1, canon_obj hb.1] at h
      have hperm : (canonEntries es).Perm (canonEntries fs) :=
        (List.perm_insertionSort byText (canonEntries es)).symm.trans
          (Tree.obj.inj h ▸ List.perm_insertionSort byText (canonEntries fs))
      have hlen := hperm.length_eq
      rw [canonEntries_eq, canonEntries_eq, List.length_map, List.length_map] at hlen
      exact ⟨hlen, sameEntries_of_canon es fs ha.2 hb.2 fun e he => hperm.mem_iff.1 he⟩
    | null => cases h
    | bool y => cases h
    | num y => cases h
    | str y => cases h
    | arr ys => cases h

theorem sameItems_of_canon : ∀ xs ys : List Tree, wellFormedItems xs = true →
    wellFormedItems ys = true → canonItems xs = canonItems ys → SameItems xs ys
  | [], [], hx, hy, h => trivial
  | [], y :: ys, hx, hy, h => by cases h
  | x :: xs, [], hx, hy, h => by cases h
  | x :: xs, y :: ys, hx, hy, h => by
    rw [wellFormedItems, Bool.and_eq_true] at hx hy
    obtain ⟨hhead, htail⟩ := List.cons_eq_cons.1 h
    exact ⟨same_of_canon x y hx.1 hy.1 hhead, sameItems_of_canon xs ys hx.2 hy.2 htail⟩

theorem sameEntries_of_canon : ∀ es fs : List (String × Tree), wellFormedEntries es = true →
    wellFormedEntries fs = true → (∀ e ∈ canonEntries es, e ∈ canonEntries fs) →
      SameEntries es fs
  | [], fs, he, hf, h => trivial
  | (k, v) :: es, fs, he, hf, h => by
    rw [wellFormedEntries, Bool.and_eq_true] at he
    obtain ⟨hhead, htail⟩ := List.forall_mem_cons.1 h
    rw [canonEntries_eq, List.mem_map] at hhead
    obtain ⟨⟨j, w⟩, hw, heq⟩ := hhead
    obtain ⟨rfl, hcanon⟩ := Prod.mk.inj heq
    have hwell := (wellFormedEntries_iff fs).1 hf (j, w) hw
    exact ⟨⟨w, hw, same_of_canon v w he.1 hwell hcanon.symm⟩,
      sameEntries_of_canon es fs he.2 hf htail⟩

end

theorem Dialect.same_of_write (D : Dialect) (ha : wellFormed a = true) (hb : wellFormed b = true)
    (h : D.write (canon a) = D.write (canon b)) : Same a b :=
  same_of_canon a b ha hb (D.write_injective (wellFormed_canon a ha) (wellFormed_canon b hb) h)

theorem same_of_write (ha : wellFormed a = true) (hb : wellFormed b = true)
    (h : write (canon a) = write (canon b)) : Same a b := by
  rw [write_plain, write_plain] at h
  exact plain.same_of_write ha hb h

end Prismal.Lib.Json
