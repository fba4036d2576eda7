import Mathlib.Data.Char
import Prismal.Lib.Dict
import Prismal.Lib.Text

namespace Prismal.Routing
open Prismal.Lib
set_option autoImplicit true

/-! The target of a plan cache key, and which slot maps share one. -/

/-- `unicodedata.normalize("NFKD", _)` and `str.lower`. Around `=` and `&`, which have neither a
decomposition nor a case, they work on each side for itself. -/
structure Folding where
  nfkd : List Char → List Char
  lower : List Char → List Char
  nfkd_join : ∀ d ∈ ['=', '&'], ∀ a b, nfkd (a ++ d :: b) = a ++ d :: b ↔ nfkd a = a ∧ nfkd b = b
  lower_join : ∀ d ∈ ['=', '&'], ∀ a b,
    lower (a ++ d :: b) = a ++ d :: b ↔ lower a = a ∧ lower b = b
  /-- A text that both of them and `strip` leave as it is together is left so by each. -/
  fixed : ∀ x, stripChars (lower (nfkd x)) = x → nfkd x = x ∧ lower x = x

/-- `_norm` -/
def Folding.norm (u : Folding) (value : List Char) : List Char :=
  stripChars (u.lower (u.nfkd value))

/-- `f"{_norm(k)}={_norm(v)}"` -/
def slotText (u : Folding) (e : String × String) : List Char :=
  u.norm e.1.toList ++ '=' :: u.norm e.2.toList

def slotsText (u : Folding) (slots : Dict String String) : List Char :=
  ['&'].intercalate ((slots.entries.map (slotText u)).insertionSort (· ≤ ·))

def maxTargetChars : Nat := 256

def canonicalTarget (u : Folding) (sha256 : String → String) (slots : Dict String String) :
    String :=
  let target := slotsText u slots
  if maxTargetChars < target.length then sha256 (String.ofList target) else String.ofList target

namespace CanonicalTarget

variable {u : Folding}

/-- `_norm` leaves the keys and the values as they are. -/
def Normalised (u : Folding) (slots : Dict String String) : Prop :=
  ∀ e ∈ slots.entries, u.norm e.1.toList = e.1.toList ∧ u.norm e.2.toList = e.2.toList

def Fits (u : Folding) (slots : Dict String String) : Prop :=
  (slotsText u slots).length ≤ maxTargetChars

instance : Decidable (Fits u slots) := Nat.decLe _ _

def Distinguished (u : Folding) (sha256 : String → String) (slots : Dict String String) : Prop :=
  ∀ slots', Normalised u slots' → Fits u slots' →
    canonicalTarget u sha256 slots' = canonicalTarget u sha256 slots →
      slots'.entries.Perm slots.entries

/-- There is one slot at most, and at every `=` inside of its key or its value a blank is next to
it. -/
structure Uncut (slots : Dict String String) : Prop where
  single : slots.entries.length ≤ 1
  blanks : ∀ k v, (k, v) ∈ slots.entries → ∀ a b, k.toList ++ '=' :: v.toList = a ++ '=' :: b →
    a = k.toList ∨ (∃ c ∈ a.getLast?, isSpace c = true) ∨ ∃ c ∈ b.head?, isSpace c = true

/-! Normalised texts. -/

theorem norm_eq_self : u.norm x = x ↔ (u.nfkd x = x ∧ u.lower x = x) ∧
    (∀ c ∈ x.head?, isSpace c = false) ∧ ∀ c ∈ x.getLast?, isSpace c = false := by
  rw [← stripChars_eq_self]
  apply Iff.intro
  · intro h
    have hfixed := u.fixed x h
    rw [Folding.norm, hfixed.1, hfixed.2] at h
    exact ⟨hfixed, h⟩
  · rintro ⟨⟨hnfkd, hlower⟩, hstrip⟩
    rw [Folding.norm, hnfkd, hlower, hstrip]

theorem norm_join (hd : d ∈ ['=', '&']) : u.norm a = a ∧ u.norm b = b ↔
    u.norm (a ++ d :: b) = a ++ d :: b ∧ (∀ c ∈ a.getLast?, isSpace c = false) ∧
      ∀ c ∈ b.head?, isSpace c = false := by
  have hspace : isSpace d = false := by
    rcases List.mem_pair.1 hd with rfl | rfl <;> decide
  have hhead : (∀ c ∈ (a ++ d :: b).head?, isSpace c = false) ↔
      ∀ c ∈ a.head?, isSpace c = false := by
    cases a with
    | nil => simp [hspace]
    | cons x a => simp
  have hlast : (∀ c ∈ (a ++ d :: b).getLast?, isSpace c = false) ↔
      ∀ c ∈ b.getLast?, isSpace c = false := by
    cases b using List.reverseRecOn with
    | nil => simp [hspace]
    | append_singleton b x _ =>
      have hsplit : a ++ d :: (b ++ [x]) = a ++ d :: b ++ [x] := by simp
      rw [hsplit, List.getLast?_concat, List.getLast?_concat]
  rw [norm_eq_self, norm_eq_self, norm_eq_self, u.nfkd_join d hd, u.lower_join d hd, hhead, hlast]
  tauto

theorem slotText_of_normalised (h : u.norm e.1.toList = e.1.toList ∧ u.norm e.2.toList = e.2.toList) :
    slotText u e = e.1.toList ++ '=' :: e.2.toList := by
  rw [slotText, h.1, h.2]

theorem norm_slotText (h : u.norm e.1.toList = e.1.toList ∧ u.norm e.2.toList = e.2.toList) :
    u.norm (slotText u e) = slotText u e := by
  rw [slotText_of_normalised h]
  exact ((norm_join (by simp)).1 h).1

theorem norm_intercalate (hne : ts ≠ []) (h : ∀ t ∈ ts, u.norm t = t) :
    u.norm (['&'].intercalate ts) = ['&'].intercalate ts := by
  induction ts with
  | nil => exact absurd rfl hne
  | cons t ts ih =>
    cases ts with
    | nil => simpa using h
    | cons t' ts =>
      have hrest := ih (List.cons_ne_nil _ _) fun t ht => h t (List.mem_cons_of_mem _ ht)
      rw [List.intercalate_cons_cons, List.append_assoc]
      exact ((norm_join (by simp)).1 ⟨h t List.mem_cons_self, hrest⟩).1

/-! Slot maps with one target. -/

variable {slots : Dict String String}

theorem slotsText_first (h : Normalised u slots) (hne : slots.entries ≠ []) :
    ∃ k v rest, (k, v) ∈ slots.entries ∧ rest.length + 1 = slots.entries.length ∧
      (∀ t ∈ rest, ∃ e ∈ slots.entries, t = slotText u e) ∧
      slotsText u slots = ['&'].intercalate ((k.toList ++ '=' :: v.toList) :: rest) := by
  have hperm := List.perm_insertionSort (· ≤ ·) (slots.entries.map (slotText u))
  cases hsort : (slots.entries.map (slotText u)).insertionSort (· ≤ ·) with
  | nil =>
    rw [hsort] at hperm
    exact absurd (List.map_eq_nil_iff.1 (List.nil_perm.1 hperm)) hne
  | cons t rest =>
    rw [hsort] at hperm
    obtain ⟨⟨k, v⟩, he, rfl⟩ := List.mem_map.1 (hperm.mem_iff.1 List.mem_cons_self)
    refine ⟨k, v, rest, he, ?_, ?_, ?_⟩
    · have hlen := hperm.length_eq
      rwa [List.length_map] at hlen
    · intro t ht
      obtain ⟨e, he, heq⟩ := List.mem_map.1 (hperm.mem_iff.1 (List.mem_cons_of_mem _ ht))
      exact ⟨e, he, heq.symm⟩
    · rw [slotsText, hsort, slotText_of_normalised (h _ he)]

theorem entries_single (k v : String) : (Dict.collect [(k, v)]).entries = [(k, v)] := rfl

theorem slotsText_single (h : u.norm k.toList = k.toList ∧ u.norm v.toList = v.toList) :
    slotsText u (Dict.collect [(k, v)]) = k.toList ++ '=' :: v.toList := by
  have htext := slotText_of_normalised (e := (k, v)) h
  rw [slotsText, entries_single]
  simpa using htext

theorem normalised_single (h : u.norm k.toList = k.toList ∧ u.norm v.toList = v.toList) :
    Normalised u (Dict.collect [(k, v)]) := by
  intro e he
  rw [entries_single] at he
  cases List.mem_singleton.1 he
  exact h

theorem canonicalTarget_of_fits (sha256 : String → String) (h : Fits u slots) :
    canonicalTarget u sha256 slots = String.ofList (slotsText u slots) :=
  if_neg (Nat.not_lt.2 h)

theorem Distinguished.cut (h : Distinguished u sha256 slots) (hfits : Fits u slots)
    (htext : slotsText u slots = a ++ '=' :: b) (ha : u.norm a = a) (hb : u.norm b = b) :
    slots.entries.Perm [(String.ofList a, String.ofList b)] := by
  have hnorm : u.norm (String.ofList a).toList = (String.ofList a).toList ∧
      u.norm (String.ofList b).toList = (String.ofList b).toList := by
    rw [String.toList_ofList, String.toList_ofList]
    exact ⟨ha, hb⟩
  have hsame : slotsText u (Dict.collect [(String.ofList a, String.ofList b)]) =
      slotsText u slots := by
    rw [slotsText_single hnorm, htext, String.toList_ofList, String.toList_ofList]
  have hfits' : Fits u (Dict.collect [(String.ofList a, String.ofList b)]) := by
    rw [Fits, hsame]
    exact hfits
  have hperm := h _ (normalised_single hnorm) hfits' (by
    rw [canonicalTarget_of_fits sha256 hfits, canonicalTarget_of_fits sha256 hfits', hsame])
  rw [entries_single] at hperm
  exact hperm.symm

theorem entries_of_single (h : slots.entries.length ≤ 1) (he : e ∈ slots.entries) :
    slots.entries = [e] := by
  obtain ⟨e', hentries⟩ := List.length_eq_one_iff.1 (Nat.le_antisymm h (List.length_pos_of_mem he))
  rw [hentries] at he ⊢
  rw [List.mem_singleton.1 he]

theorem Distinguished.uncut (h : Distinguished u sha256 slots) (hnorm : Normalised u slots)
    (hfits : Fits u slots) : Uncut slots := by
  have hsingle : slots.entries.length ≤ 1 := by
    by_contra hlong
    have hne : slots.entries ≠ [] := by
      rintro hnil
      rw [hnil] at hlong
      exact hlong (Nat.zero_le 1)
    obtain ⟨k, v, rest, hkv, hlen, hrest, htext⟩ := slotsText_first hnorm hne
    cases rest with
    | nil => exact hlong hlen.ge
    | cons t rest =>
      have hall : ∀ t' ∈ t :: rest, u.norm t' = t' := by
        intro t' ht'
        obtain ⟨e, he, rfl⟩ := hrest t' ht'
        exact norm_slotText (hnorm e he)
      have hvalue := ((norm_join (d := '&') (by simp)).1
        ⟨(hnorm _ hkv).2, norm_intercalate (List.cons_ne_nil _ _) hall⟩).1
      rw [List.intercalate_cons_cons, List.append_assoc, List.append_assoc,
        List.cons_append] at htext
      have hperm := h.cut hfits htext (hnorm _ hkv).1 hvalue
      exact hlong hperm.length_eq.le
  refine ⟨hsingle, ?_⟩
  intro k v hkv a b hcut
  have hentries := entries_of_single hsingle hkv
  have hkvnorm := hnorm _ hkv
  have htext : slotsText u slots = k.toList ++ '=' :: v.toList := by
    rw [slotsText, hentries]
    simpa using slotText_of_normalised hkvnorm
  have hjoined := ((norm_join (d := '=') (by simp)).1 hkvnorm).1
  rw [hcut] at hjoined
  by_contra hno
  rw [not_or, not_or, not_exists, not_exists] at hno
  simp only [not_and, Bool.not_eq_true] at hno
  obtain ⟨ha, hb⟩ := (norm_join (d := '=') (by simp)).2 ⟨hjoined, hno.2.1, hno.2.2⟩
  have hperm := h.cut hfits (htext.trans hcut) ha hb
  rw [hentries] at hperm
  cases List.singleton_perm_singleton.1 hperm
  exact hno.1 (String.toList_ofList).symm

theorem intercalate_first (t : List Char) (rest : List (List Char)) :
    ∃ tail, ['&'].intercalate (t :: rest) = t ++ tail ∧ (tail = [] ∨ ∃ r, tail = '&' :: r) := by
  cases rest with
  | nil => exact ⟨[], by simp, Or.inl rfl⟩
  | cons t' rest =>
    refine ⟨'&' :: ['&'].intercalate (t' :: rest), ?_, Or.inr ⟨_, rfl⟩⟩
    rw [List.intercalate_cons_cons, List.append_assoc]
    rfl

theorem head?_value {v : List Char} (hv : u.norm v = v)
    (htail : tail = [] ∨ ∃ r, tail = '&' :: r) : ∀ c ∈ (v ++ tail).head?, isSpace c = false := by
  have hlead := (norm_eq_self.1 hv).2.1
  cases v with
  | cons x v => exact hlead
  | nil =>
    rcases htail with rfl | ⟨r, rfl⟩
    · exact hlead
    · intro c hc
      cases hc
      decide

theorem getLast?_key {a k : List Char} (hk : u.norm k = k) :
    ∀ c ∈ (a ++ '&' :: k).getLast?, isSpace c = false := by
  have htrail := (norm_eq_self.1 hk).2.2
  cases k using List.reverseRecOn with
  | nil =>
    intro c hc
    rw [List.getLast?_concat] at hc
    cases hc
    decide
  | append_singleton k x _ =>
    have hsplit : a ++ '&' :: (k ++ [x]) = a ++ '&' :: k ++ [x] := by simp
    rw [List.getLast?_concat] at htrail
    rw [hsplit, List.getLast?_concat]
    exact htrail

theorem Uncut.cut (h : Uncut slots) (hkv : (k, v) ∈ slots.entries)
    (hcut : k.toList ++ '=' :: v.toList = a ++ '=' :: b)
    (ha : ∀ c ∈ a.getLast?, isSpace c = false) (hb : ∀ c ∈ b.head?, isSpace c = false) :
    a = k.toList ∧ b = v.toList := by
  have hkey : a = k.toList := by
    rcases h.blanks k v hkv a b hcut with hkey | ⟨c, hc, hspace⟩ | ⟨c, hc, hspace⟩
    · exact hkey
    · exact absurd hspace (by rw [ha c hc]; exact Bool.false_ne_true)
    · exact absurd hspace (by rw [hb c hc]; exact Bool.false_ne_true)
  subst hkey
  exact ⟨rfl, (List.cons_injective (List.append_cancel_left hcut)).symm⟩

theorem Uncut.only (h : Uncut slots) (hkv : (k, v) ∈ slots.entries) (hnorm' : Normalised u slots')
    (htext : k.toList ++ '=' :: v.toList = slotsText u slots') (hne : slots'.entries ≠ []) :
    slots'.entries = [(k, v)] := by
  obtain ⟨k', v', rest, hkv', hlen, hrest, htext'⟩ := slotsText_first hnorm' hne
  obtain ⟨tail, hsplit, htail⟩ := intercalate_first (k'.toList ++ '=' :: v'.toList) rest
  obtain ⟨hk', hv'⟩ := hnorm' _ hkv'
  rw [htext', hsplit, List.append_assoc, List.cons_append] at htext
  obtain ⟨hkey, hvalue⟩ := h.cut hkv htext (norm_eq_self.1 hk').2.2 (head?_value hv' htail)
  cases rest with
  | nil =>
    rw [List.intercalate_singleton, List.self_eq_append_right] at hsplit
    rw [hsplit, List.append_nil, String.toList_inj] at hvalue
    rw [String.toList_inj] at hkey
    rw [entries_of_single hlen.ge hkv', hkey, hvalue]
  | cons t rest =>
    -- A second slot would cut the text further on.
    obtain ⟨e, he, rfl⟩ := hrest t List.mem_cons_self
    have hte := slotText_of_normalised (hnorm' e he)
    obtain ⟨tail₂, hsplit₂, htail₂⟩ := intercalate_first (slotText u e) rest
    have hlater : k.toList ++ '=' :: v.toList =
        (k'.toList ++ '=' :: v'.toList ++ '&' :: e.1.toList) ++ '=' :: (e.2.toList ++ tail₂) := by
      rw [htext, ← List.cons_append, ← List.append_assoc, ← hsplit, List.intercalate_cons_cons,
        hsplit₂, hte]
      simp
    obtain ⟨hlong, -⟩ := h.cut hkv hlater (getLast?_key (hnorm' e he).1)
      (head?_value (hnorm' e he).2 htail₂)
    have hlen := congrArg List.length (hlong.trans hkey.symm)
    simp at hlen

theorem Uncut.distinguished (h : Uncut slots) (sha256 : String → String)
    (hnorm : Normalised u slots) (hfits : Fits u slots) : Distinguished u sha256 slots := by
  intro slots' hnorm' hfits' htarget
  rw [canonicalTarget_of_fits sha256 hfits, canonicalTarget_of_fits sha256 hfits',
    String.ofList_inj] at htarget
  cases hentries : slots.entries with
  | nil =>
    have hempty : slotsText u slots = [] := by
      rw [slotsText, hentries]
      rfl
    by_contra hno
    have hne : slots'.entries ≠ [] := by
      intro hnil
      exact hno (hnil ▸ List.Perm.nil)
    obtain ⟨k, v, rest, -, -, -, htext⟩ := slotsText_first hnorm' hne
    obtain ⟨tail, hsplit, -⟩ := intercalate_first (k.toList ++ '=' :: v.toList) rest
    rw [htarget, hempty, hsplit] at htext
    simp at htext
  | cons e es =>
    obtain ⟨k, v⟩ := e
    have hkv : (k, v) ∈ slots.entries := hentries ▸ List.mem_cons_self
    have hsingle := entries_of_single h.single hkv
    have htext : slotsText u slots = k.toList ++ '=' :: v.toList := by
      rw [slotsText, hsingle]
      simpa using slotText_of_normalised (hnorm _ hkv)
    have hne : slots'.entries ≠ [] := by
      intro hnil
      rw [htext, slotsText, hnil] at htarget
      simp at htarget
    rw [h.only hkv hnorm' (htext.symm.trans htarget.symm) hne, ← hsingle, hentries]

/-- A slot map that fits has a target of its own exactly when it has no more than one slot, and a
blank at every further `=`. -/
theorem distinguished_iff (u : Folding) (sha256 : String → String) (slots : Dict String String)
    (hnorm : Normalised u slots) (hfits : Fits u slots) :
    Distinguished u sha256 slots ↔ Uncut slots :=
  ⟨fun h => h.uncut hnorm hfits, fun h => h.distinguished sha256 hnorm hfits⟩

def ascii : Folding where
  nfkd := id
  lower := List.map Char.toLower
  nfkd_join _ _ _ _ := ⟨fun _ => ⟨rfl, rfl⟩, fun _ => rfl⟩
  lower_join d hd a b := by
    have hlower : d.toLower = d := by
      rcases List.mem_pair.1 hd with rfl | rfl <;> decide
    rw [List.map_append, List.map_cons, hlower]
    apply Iff.intro
    · intro h
      obtain ⟨ha, hb⟩ := List.append_inj h (List.length_map _)
      exact ⟨ha, List.cons_injective hb⟩
    · rintro ⟨ha, hb⟩
      rw [ha, hb]
  fixed x h := by
    have hsub := stripChars_sublist (x.map Char.toLower)
    rw [id_eq] at h
    rw [h] at hsub
    exact ⟨rfl, (hsub.eq_of_length (List.length_map _).symm).symm⟩

theorem distinguished_iff_single :
    Distinguished ascii id (Dict.collect [("city", "new york")]) ↔
      Uncut (Dict.collect [("city", "new york")]) :=
  distinguished_iff ascii id _ (normalised_single ⟨by decide, by decide⟩) (by decide)

/-- A value that holds a delimiter makes one slot read like two. -/
theorem target_shared :
    ¬∀ (u : Folding) (sha256 : String → String) (slots slots' : Dict String String),
      Normalised u slots → Fits u slots → Normalised u slots' → Fits u slots' →
        canonicalTarget u sha256 slots' = canonicalTarget u sha256 slots →
          slots'.entries.Perm slots.entries := by
  intro h
  have hone : Normalised ascii (Dict.collect [("a", "1&b=2")]) :=
    normalised_single ⟨by decide, by decide⟩
  have htwo : Normalised ascii (Dict.collect [("a", "1"), ("b", "2")]) := by
    intro e he
    rcases List.mem_pair.1 he with rfl | rfl <;> exact ⟨by decide, by decide⟩
  have hperm := h ascii id _ _ hone (by decide) htwo (by decide) (by decide)
  exact absurd hperm.length_eq (by decide)

end CanonicalTarget

end Prismal.Routing
