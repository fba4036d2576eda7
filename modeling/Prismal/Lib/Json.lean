import Mathlib.Data.List.Sort
import Mathlib.Data.String.Basic
import Mathlib.Algebra.Order.Ring.Rat
import Prismal.Lib.Dict

namespace Prismal.Lib.Json
open Prismal.Lib
set_option autoImplicit true

/-! Values of a scripting language written as JSON and read back. A text is represented by its
syntax tree. -/

/-- A mapping key: a string, a number or truth value, or the null value, with its JSON text. -/
inductive Key where
  | str (s : String)
  | num (value : Rat) (text : String)
  | null
  deriving DecidableEq, Repr

def Key.text : Key → String
  | str s => s
  | num _ t => t
  | null => "null"

def Key.isStr : Key → Bool
  | str _ => true
  | _ => false

def Key.isNum : Key → Bool
  | num _ _ => true
  | _ => false

/-- `<=` of two keys of one kind. -/
def Key.le : Key → Key → Bool
  | str a, str b => decide (a ≤ b)
  | num a _, num b _ => decide (a ≤ b)
  | _, _ => true

def comparable (ks : List Key) : Bool :=
  decide (ks.length ≤ 1) || ks.all Key.isStr || ks.all Key.isNum

/-- A value that can be written; a number is its text. -/
inductive Value where
  | null
  | bool (b : Bool)
  | num (text : String)
  | str (s : String)
  | list (xs : List Value)
  | dict (es : List (Key × Value))

inductive Tree where
  | null
  | bool (b : Bool)
  | num (text : String)
  | str (s : String)
  | arr (xs : List Tree)
  | obj (es : List (String × Tree))

def byKey (a b : Key × Tree) : Prop := a.1.le b.1 = true

def byText (a b : String × Tree) : Prop := a.1 ≤ b.1

instance : DecidableRel byKey := fun a b => inferInstanceAs (Decidable (a.1.le b.1 = true))

instance : DecidableRel byText := fun a b => inferInstanceAs (Decidable (a.1 ≤ b.1))

instance : Std.Total byText := ⟨fun a b => le_total a.1 b.1⟩

instance : IsTrans (String × Tree) byText := ⟨fun _ _ _ h h' => le_trans (α := String) h h'⟩

def withText (e : Key × Tree) : String × Tree := (e.1.text, e.2)

mutual

/-- `json.dumps(value)` -/
def dumps : Value → Tree
  | .null => .null
  | .bool b => .bool b
  | .num t => .num t
  | .str s => .str s
  | .list xs => .arr (dumpsItems xs)
  | .dict es => .obj (dumpsEntries es)

def dumpsItems : List Value → List Tree
  | [] => []
  | x :: xs => dumps x :: dumpsItems xs

def dumpsEntries : List (Key × Value) → List (String × Tree)
  | [] => []
  | (k, v) :: es => (k.text, dumps v) :: dumpsEntries es

end

mutual

/-- `json.dumps(value, sort_keys=True)`; `none`: some keys cannot be sorted. -/
def dumpsSorted : Value → Option Tree
  | .null => some .null
  | .bool b => some (.bool b)
  | .num t => some (.num t)
  | .str s => some (.str s)
  | .list xs =>
    match sortedItems xs with
    | none => none
    | some ts => some (.arr ts)
  | .dict es =>
    match sortedEntries es with
    | none => none
    | some ts =>
      if comparable (ts.map Prod.fst) then some (.obj ((ts.insertionSort byKey).map withText))
      else none

def sortedItems : List Value → Option (List Tree)
  | [] => some []
  | x :: xs =>
    match dumpsSorted x, sortedItems xs with
    | some t, some ts => some (t :: ts)
    | _, _ => none

def sortedEntries : List (Key × Value) → Option (List (Key × Tree))
  | [] => some []
  | (k, v) :: es =>
    match dumpsSorted v, sortedEntries es with
    | some t, some ts => some ((k, t) :: ts)
    | _, _ => none

end

mutual

def canon : Tree → Tree
  | .null => .null
  | .bool b => .bool b
  | .num t => .num t
  | .str s => .str s
  | .arr xs => .arr (canonItems xs)
  | .obj es => .obj ((Dict.collect (canonEntries es)).entries.insertionSort byText)

def canonItems : List Tree → List Tree
  | [] => []
  | x :: xs => canon x :: canonItems xs

def canonEntries : List (String × Tree) → List (String × Tree)
  | [] => []
  | (k, t) :: es => (k, canon t) :: canonEntries es

end

def textOrdered (ks : List Key) : Bool :=
  decide (((ks.insertionSort fun a b => a.le b).map Key.text).Pairwise (· < ·))

mutual

def stable : Value → Bool
  | .list xs => stableItems xs
  | .dict es => textOrdered (es.map Prod.fst) && stableEntries es
  | _ => true

def stableItems : List Value → Bool
  | [] => true
  | x :: xs => stable x && stableItems xs

def stableEntries : List (Key × Value) → Bool
  | [] => true
  | (_, v) :: es => stable v && stableEntries es

end

def Tree.names : Tree → List String
  | .obj es => es.map Prod.fst
  | _ => []

theorem keys_dumpsEntries (es : List (Key × Value)) :
    (dumpsEntries es).map Prod.fst = es.map fun e => e.1.text := by
  induction es with
  | nil => rfl
  | cons e es ih =>
    obtain ⟨k, v⟩ := e
    rw [dumpsEntries, List.map_cons, List.map_cons, ih]

theorem keys_canonEntries (es : List (String × Tree)) :
    (canonEntries es).map Prod.fst = es.map Prod.fst := by
  induction es with
  | nil => rfl
  | cons e es ih =>
    obtain ⟨k, t⟩ := e
    rw [canonEntries, List.map_cons, List.map_cons, ih]

theorem keys_sortedEntries {ts : List (Key × Tree)} (h : sortedEntries es = some ts) :
    ts.map Prod.fst = es.map Prod.fst := by
  induction es generalizing ts with
  | nil =>
    cases h
    rfl
  | cons e es ih =>
    obtain ⟨k, v⟩ := e
    rw [sortedEntries] at h
    split at h
    next t ts' _ hs =>
      cases h
      rw [List.map_cons, List.map_cons, ih hs]
    · cases h

theorem eq_of_perm_of_keys {as bs : List (String × Tree)} (hk : as.map Prod.fst = bs.map Prod.fst)
    (hn : (bs.map Prod.fst).Nodup) (hp : as.Perm bs) : as = bs := by
  induction as generalizing bs with
  | nil => exact (List.nil_perm.1 hp).symm
  | cons a as ih =>
    cases bs with
    | nil => cases hk
    | cons b bs =>
      rw [List.map_cons, List.map_cons, List.cons.injEq] at hk
      have ha : a ∈ b :: bs := hp.mem_iff.1 List.mem_cons_self
      have hab : a = b := List.inj_on_of_nodup_map hn ha List.mem_cons_self hk.1
      subst hab
      rw [List.map_cons, List.nodup_cons] at hn
      rw [ih hk.2 hn.2 ((List.perm_cons a).1 hp)]

theorem mem_names_canon (es : List (Key × Value)) :
    s ∈ (canon (dumps (.dict es))).names ↔ s ∈ es.map fun e => e.1.text := by
  have hp := (List.perm_insertionSort byText
    (Dict.collect (canonEntries (dumpsEntries es))).entries).map Prod.fst
  have hc : s ∈ (Dict.collect (canonEntries (dumpsEntries es))).entries.map Prod.fst ↔
      s ∈ (canonEntries (dumpsEntries es)).map Prod.fst := Dict.mem_collect _
  rw [dumps, canon, Tree.names, hp.mem_iff, hc, keys_canonEntries, keys_dumpsEntries]

theorem mem_names_dumpsSorted (h : dumpsSorted (.dict es) = some t) :
    s ∈ t.names ↔ s ∈ es.map fun e => e.1.text := by
  rw [dumpsSorted] at h
  split at h
  · cases h
  next ts hts =>
    split at h
    · cases h
      have hp := ((List.perm_insertionSort byKey ts).map withText).map Prod.fst
      have hk := congrArg (List.map Key.text) (keys_sortedEntries hts)
      rw [List.map_map, List.map_map] at hk
      rw [Tree.names, hp.mem_iff, List.map_map]
      exact hk ▸ Iff.rfl
    · cases h

theorem texts_sorted {ts : List (Key × Tree)} (hk : ts.map Prod.fst = ks) :
    ((ts.insertionSort byKey).map withText).map Prod.fst =
      (ks.insertionSort fun a b => a.le b).map Key.text := by
  have hsort : (ts.insertionSort byKey).map Prod.fst =
      (ts.map Prod.fst).insertionSort fun a b => a.le b :=
    List.map_insertionSort byKey (fun a b => a.le b) Prod.fst ts fun a _ b _ => Iff.rfl
  rw [← hk, ← hsort, List.map_map, List.map_map]
  rfl

theorem pairwise_texts (ps : List (String × Tree)) :
    ((ps.insertionSort byText).map Prod.fst).Pairwise (· ≤ ·) :=
  List.pairwise_map.2 (List.pairwise_insertionSort byText ps)

theorem pairwise_lt_of_nodup {l : List String} (hs : l.Pairwise (· ≤ ·)) (hn : l.Nodup) :
    l.Pairwise (· < ·) := by
  apply (hs.and hn).imp
  intro a b h
  exact lt_of_le_of_ne h.1 h.2

mutual

theorem canon_dumps : ∀ (v : Value) (t : Tree), dumpsSorted v = some t →
    (canon (dumps v) = t ↔ stable v = true)
  | .null, t, h => by
    cases h
    exact ⟨fun _ => rfl, fun _ => rfl⟩
  | .bool b, t, h => by
    cases h
    exact ⟨fun _ => rfl, fun _ => rfl⟩
  | .num s, t, h => by
    cases h
    exact ⟨fun _ => rfl, fun _ => rfl⟩
  | .str s, t, h => by
    cases h
    exact ⟨fun _ => rfl, fun _ => rfl⟩
  | .list xs, t, h => by
    rw [dumpsSorted] at h
    split at h
    · cases h
    next ts hts =>
      cases h
      rw [dumps, canon, Tree.arr.injEq, stable]
      exact canon_items xs ts hts
  | .dict es, t, h => by
    rw [dumpsSorted] at h
    split at h
    · cases h
    next ts hts =>
      split at h
      · cases h
        rw [dumps, canon, Tree.obj.injEq, stable, Bool.and_eq_true]
        have hentries := canon_entries es ts hts
        have hkeys := keys_sortedEntries hts
        have htexts := texts_sorted hkeys
        have hcanon : (canonEntries (dumpsEntries es)).map Prod.fst =
            (ts.map withText).map Prod.fst := by
          rw [keys_canonEntries, keys_dumpsEntries, List.map_map]
          have hmap := congrArg (List.map Key.text) hkeys
          rw [List.map_map, List.map_map] at hmap
          exact hmap.symm
        have hperm : ((ts.insertionSort byKey).map withText).Perm (ts.map withText) :=
          (List.perm_insertionSort byKey ts).map withText
        constructor
        · intro he
          have hlt : (((ts.insertionSort byKey).map withText).map Prod.fst).Pairwise (· < ·) := by
            rw [← he]
            apply pairwise_lt_of_nodup (pairwise_texts _)
            have hp := (List.perm_insertionSort byText
              (Dict.collect (canonEntries (dumpsEntries es))).entries).map Prod.fst
            exact hp.nodup_iff.2 (Dict.collect (canonEntries (dumpsEntries es))).nodup
          have hn : ((ts.map withText).map Prod.fst).Nodup :=
            (hperm.map Prod.fst).nodup_iff.1 (hlt.imp fun h => ne_of_lt h)
          rw [Dict.entries_collect (hcanon ▸ hn)] at he
          constructor
          · rw [textOrdered, decide_eq_true_eq, ← htexts]
            exact hlt
          · apply hentries.1
            apply eq_of_perm_of_keys hcanon hn
            exact ((List.perm_insertionSort byText _).symm.trans (he ▸ List.Perm.refl _)).trans hperm
        · rintro ⟨hord, hst⟩
          rw [textOrdered, decide_eq_true_eq, ← htexts] at hord
          have hn : ((ts.map withText).map Prod.fst).Nodup :=
            (hperm.map Prod.fst).nodup_iff.1 (hord.imp fun h => ne_of_lt h)
          rw [hentries.2 hst, Dict.entries_collect hn]
          apply @List.Perm.eq_of_pairwise _ byText
          · intro a b ha hb hab hba
            have ha' := (List.perm_insertionSort byText _).mem_iff.1 ha
            have hb' := hperm.mem_iff.1 hb
            exact List.inj_on_of_nodup_map hn ha' hb' (le_antisymm (α := String) hab hba)
          · exact List.pairwise_insertionSort byText _
          · exact (List.pairwise_map.1 hord).imp fun h => le_of_lt (α := String) h
          · exact (List.perm_insertionSort byText _).trans hperm.symm
      · cases h

theorem canon_items : ∀ (xs : List Value) (ts : List Tree), sortedItems xs = some ts →
    (canonItems (dumpsItems xs) = ts ↔ stableItems xs = true)
  | [], ts, h => by
    cases h
    exact ⟨fun _ => rfl, fun _ => rfl⟩
  | x :: xs, ts, h => by
    rw [sortedItems] at h
    split at h
    next t ts' ht hts =>
      cases h
      rw [dumpsItems, canonItems, List.cons.injEq, stableItems, Bool.and_eq_true,
        canon_dumps x t ht, canon_items xs ts' hts]
    · cases h

theorem canon_entries : ∀ (es : List (Key × Value)) (ts : List (Key × Tree)),
    sortedEntries es = some ts →
      (canonEntries (dumpsEntries es) = ts.map withText ↔ stableEntries es = true)
  | [], ts, h => by
    cases h
    exact ⟨fun _ => rfl, fun _ => rfl⟩
  | (k, v) :: es, ts, h => by
    rw [sortedEntries] at h
    split at h
    next t ts' ht hts =>
      cases h
      rw [dumpsEntries, canonEntries, List.map_cons, List.cons.injEq, stableEntries,
        Bool.and_eq_true, ← canon_dumps v t ht, ← canon_entries es ts' hts, withText,
        Prod.mk.injEq]
      simp
    · cases h

end

theorem canonEntries_fixed {ps : List (String × Tree)} (h : ∀ p ∈ ps, canon p.2 = p.2) :
    canonEntries ps = ps := by
  induction ps with
  | nil => rfl
  | cons p ps ih =>
    rw [canonEntries, h p List.mem_cons_self, ih fun q hq => h q (List.mem_cons_of_mem p hq)]

mutual

theorem canon_canon : ∀ t : Tree, canon (canon t) = canon t
  | .null => rfl
  | .bool _ => rfl
  | .num _ => rfl
  | .str _ => rfl
  | .arr xs => by rw [canon, canon, canonItems_canonItems xs]
  | .obj es => by
    have hfixed : canonEntries ((Dict.collect (canonEntries es)).entries.insertionSort byText) =
        (Dict.collect (canonEntries es)).entries.insertionSort byText := by
      apply canonEntries_fixed
      intro p hp
      have hget := Dict.get?_eq_some.2 ((List.perm_insertionSort byText _).mem_iff.1 hp)
      exact canon_canonEntries es p (Dict.mem_of_get?_collect hget)
    have hn : (((Dict.collect (canonEntries es)).entries.insertionSort byText).map
        Prod.fst).Nodup :=
      ((List.perm_insertionSort byText _).map Prod.fst).nodup_iff.2
        (Dict.collect (canonEntries es)).nodup
    rw [canon, canon, hfixed, Dict.entries_collect hn,
      (List.pairwise_insertionSort byText _).insertionSort_eq]

theorem canonItems_canonItems : ∀ xs : List Tree, canonItems (canonItems xs) = canonItems xs
  | [] => rfl
  | x :: xs => by rw [canonItems, canonItems, canon_canon x, canonItems_canonItems xs]

theorem canon_canonEntries : ∀ (es : List (String × Tree)), ∀ p ∈ canonEntries es,
    canon p.2 = p.2
  | [], _, h => by cases h
  | (k, t) :: es, p, h => by
    rw [canonEntries, List.mem_cons] at h
    cases h with
    | inl h =>
      subst h
      exact canon_canon t
    | inr h => exact canon_canonEntries es p h

end

end Prismal.Lib.Json
