import Prismal.Lib.Delimiters
import Prismal.Lib.JsonText
import Prismal.Lib.Lists
import Prismal.Lib.SortBy
import Prismal.Lib.Text

namespace Prismal.Utils
open Prismal.Lib
set_option autoImplicit true

/-! Uniform rows as a header and one line of values for each. -/

inductive Scalar where
  | null
  | bool (b : Bool)
  | num (text : String) (shaped : Json.isNumText text = true)
  | text (s : String)
  deriving DecidableEq

/-- `null`, `true`, `false`, or the `str` of what is left. -/
def Scalar.shown : Scalar → String
  | null => "null"
  | bool b => if b then "true" else "false"
  | num t _ => t
  | text s => s

/-- `_NEEDS_QUOTES` -/
def needsQuotes : List Char := [',', '"', '\n', ':']

def escapeQuote (c : Char) : List Char :=
  if c = '\\' then ['\\', '\\'] else if c = '"' then ['\\', '"'] else [c]

def quoteText (s : String) : String :=
  if (s.toList.any fun c => decide (c ∈ needsQuotes)) || decide (s ≠ strip s) then
    String.ofList ('"' :: s.toList.flatMap escapeQuote ++ ['"'])
  else s

/-- `_cell` -/
def toonCell : Scalar → String
  | .null => "null"
  | .bool b => if b then "true" else "false"
  | .num t _ => quoteText t
  | .text s => quoteText s

theorem toonCell_eq (v : Scalar) : toonCell v = quoteText v.shown := by
  cases v with
  | null => decide
  | bool b => cases b <;> decide
  | num t _ => rfl
  | text s => rfl

def toonRow (keys : List String) (row : Dict String Scalar) : String :=
  "  " ++ ",".intercalate (keys.map fun k => toonCell ((row.get? k).getD .null))

def toonKeys (rows : List (Dict String Scalar)) : List String :=
  sortBy id ((rows.head?.map Dict.keys).getD [])

/-- `name[N]{k1,k2}:` -/
def toonHeader (name : String) (rows : List (Dict String Scalar)) : String :=
  name ++ "[" ++ toString rows.length ++ "]\x7b" ++ ",".intercalate (toonKeys rows) ++ "\x7d:"

def encodeToon (rows : List (Dict String Scalar)) (name : String) : String :=
  "\n".intercalate (toonHeader name rows :: rows.map (toonRow (toonKeys rows)))

theorem toonRow_occurs {rows : List (Dict String Scalar)} (hrow : row ∈ rows) (name : String) :
    (toonRow (toonKeys rows) row).toList <:+: (encodeToon rows name).toList := by
  rw [encodeToon, String.toList_intercalate]
  apply infix_intercalate
  rw [List.map_cons]
  exact List.mem_cons_of_mem _ (List.mem_map_of_mem (List.mem_map_of_mem hrow))

def toonDialect : Json.Dialect where
  escape := escapeQuote
  gap := []
  readable := by
    intro c rest
    rw [escapeQuote]
    split
    · next hc =>
      rw [hc]
      rfl
    · split
      · next hc =>
        rw [hc]
        rfl
      · next hslash hquote => exact Json.readChar_self hquote hslash rest

def CellEnd (r : List Char) : Prop := ∀ c ∈ r.head?, c = ',' ∨ c = '\n'

theorem quoteText_cases (s : String) :
    (quoteText s).toList = toonDialect.quoted s ∨
      (quoteText s).toList = s.toList ∧ ∀ c ∈ s.toList, c ∉ needsQuotes := by
  rw [quoteText]
  split
  · left
    rw [String.toList_ofList]
    rfl
  · next hplain =>
    right
    apply And.intro rfl
    intro c hc hneeds
    apply hplain
    rw [Bool.or_eq_true]
    left
    exact List.any_eq_true.2 ⟨c, hc, decide_eq_true hneeds⟩

theorem toonCell_cases (v : Scalar) :
    (toonCell v).toList = toonDialect.quoted v.shown ∨
      (toonCell v).toList = v.shown.toList ∧ ∀ c ∈ v.shown.toList, c ∉ needsQuotes := by
  rw [toonCell_eq]
  exact quoteText_cases v.shown

theorem plain_cancel {s t r r' : List Char} (hs : ∀ c ∈ s, c ∉ needsQuotes)
    (ht : ∀ c ∈ t, c ∉ needsQuotes) (hr : CellEnd r) (hr' : CellEnd r') (h : s ++ r = t ++ r') :
    s = t ∧ r = r' := by
  have hcell (u rest : List Char) (hu : ∀ c ∈ u, c ∉ needsQuotes) (hrest : CellEnd rest) :
      (u ++ rest).takeWhile (fun c => decide (c ∉ needsQuotes)) = u := by
    rw [List.takeWhile_append_of_pos fun c hc => decide_eq_true (hu c hc)]
    cases rest with
    | nil => exact List.append_nil u
    | cons c rest =>
      have hc : decide (c ∉ needsQuotes) = false := by
        cases hrest c rfl with
        | inl hcomma =>
          rw [hcomma]
          rfl
        | inr hline =>
          rw [hline]
          rfl
      rw [List.takeWhile_cons, hc]
      exact List.append_nil u
  have hst : s = t := by rw [← hcell s r hs hr, h, hcell t r' ht hr']
  rw [hst] at h
  exact ⟨hst, List.append_cancel_left h⟩

theorem quoted_ne_plain {t r r' : List Char} (ht : ∀ c ∈ t, c ∉ needsQuotes) (hr' : CellEnd r') :
    toonDialect.quoted s ++ r ≠ t ++ r' := by
  intro h
  cases t with
  | nil =>
    have hhead := hr' '"' (by rw [← List.nil_append r', ← h]; rfl)
    exact absurd hhead (by decide)
  | cons c t =>
    have hc : '"' = c := (List.cons.inj h).1
    exact ht c List.mem_cons_self (by rw [← hc]; decide)

theorem toonCell_cancel {v w : Scalar} (hr : CellEnd r) (hr' : CellEnd r')
    (h : (toonCell v).toList ++ r = (toonCell w).toList ++ r') : v.shown = w.shown ∧ r = r' := by
  cases toonCell_cases v with
  | inl hv =>
    rw [hv] at h
    cases toonCell_cases w with
    | inl hw =>
      rw [hw] at h
      exact Json.Dialect.quoted_cancel h
    | inr hw =>
      rw [hw.1] at h
      exact absurd h (quoted_ne_plain hw.2 hr')
  | inr hv =>
    rw [hv.1] at h
    cases toonCell_cases w with
    | inl hw =>
      rw [hw] at h
      exact absurd h.symm (quoted_ne_plain hv.2 hr)
    | inr hw =>
      rw [hw.1] at h
      obtain ⟨hshown, hrest⟩ := plain_cancel hv.2 hw.2 hr hr' h
      exact ⟨String.toList_injective hshown, hrest⟩

def LineEnd (r : List Char) : Prop := ∀ c ∈ r.head?, c = '\n'

theorem LineEnd.cell (h : LineEnd r) : CellEnd r := fun c hc => .inr (h c hc)

def valueAt (row : Dict String Scalar) (k : String) : Scalar := (row.get? k).getD .null

theorem cells_cancel {keys : List String} {row row' : Dict String Scalar} (hr : LineEnd r)
    (hr' : LineEnd r')
    (h : (",".intercalate (keys.map fun k => toonCell (valueAt row k))).toList ++ r =
      (",".intercalate (keys.map fun k => toonCell (valueAt row' k))).toList ++ r') :
    (∀ k ∈ keys, (valueAt row k).shown = (valueAt row' k).shown) ∧ r = r' := by
  induction keys with
  | nil => exact ⟨List.forall_mem_nil _, h⟩
  | cons k keys ih =>
    cases keys with
    | nil =>
      rw [List.map_singleton, List.map_singleton, String.intercalate_singleton,
        String.intercalate_singleton] at h
      obtain ⟨hshown, hrest⟩ := toonCell_cancel hr.cell hr'.cell h
      exact ⟨List.forall_mem_singleton.2 hshown, hrest⟩
    | cons k' keys =>
      rw [List.map_cons, List.map_cons, List.map_cons, List.map_cons,
        String.intercalate_cons_cons, String.intercalate_cons_cons] at h
      simp only [String.toList_append, List.append_assoc] at h
      have hcomma (rest : List Char) : CellEnd (",".toList ++ rest) := by
        intro c hc
        exact .inl (Option.some.inj hc).symm
      obtain ⟨hshown, hrest⟩ := toonCell_cancel (hcomma _) (hcomma _) h
      obtain ⟨hkeys, hend⟩ := ih (List.append_cancel_left hrest)
      exact ⟨List.forall_mem_cons.2 ⟨hshown, hkeys⟩, hend⟩

def ShowsSame (keys : List String) (row row' : Dict String Scalar) : Prop :=
  ∀ k ∈ keys, (valueAt row k).shown = (valueAt row' k).shown

theorem toonRow_cancel (hr : LineEnd r) (hr' : LineEnd r')
    (h : (toonRow keys row).toList ++ r = (toonRow keys row').toList ++ r') :
    ShowsSame keys row row' ∧ r = r' := by
  rw [toonRow, toonRow, String.toList_append, String.toList_append, List.append_assoc,
    List.append_assoc] at h
  exact cells_cancel hr hr' (List.append_cancel_left h)

theorem toonRow_congr (h : ShowsSame keys row row') : toonRow keys row = toonRow keys row' := by
  rw [toonRow, toonRow]
  have hcells : (keys.map fun k => toonCell ((row.get? k).getD .null)) =
      keys.map fun k => toonCell ((row'.get? k).getD .null) := by
    apply List.map_congr_left
    intro k hk
    rw [toonCell_eq, toonCell_eq]
    exact congrArg quoteText (h k hk)
  rw [hcells]

theorem lines_text (header : String) (lines : List String) :
    ("\n".intercalate (header :: lines)).toList =
      header.toList ++ lines.flatMap fun line => '\n' :: line.toList := by
  induction lines generalizing header with
  | nil =>
    rw [String.intercalate_singleton]
    exact (List.append_nil _).symm
  | cons line lines ih =>
    rw [String.intercalate_cons_cons, String.toList_append, ih, String.toList_append,
      List.flatMap_cons, List.append_assoc]
    rfl

theorem rows_cancel {rows rows' : List (Dict String Scalar)}
    (h : (rows.map (toonRow keys)).flatMap (fun line => '\n' :: line.toList) =
      (rows'.map (toonRow keys)).flatMap fun line => '\n' :: line.toList) :
    List.Forall₂ (ShowsSame keys) rows rows' := by
  have hend (lines : List String) : LineEnd (lines.flatMap fun line => '\n' :: line.toList) := by
    intro c hc
    cases lines with
    | nil => cases hc
    | cons line lines => exact (Option.some.inj hc).symm
  induction rows generalizing rows' with
  | nil =>
    cases rows' with
    | nil => exact .nil
    | cons row' rows' => cases h
  | cons row rows ih =>
    cases rows' with
    | nil => cases h
    | cons row' rows' =>
      rw [List.map_cons, List.map_cons, List.flatMap_cons, List.flatMap_cons] at h
      obtain ⟨hsame, hrest⟩ := toonRow_cancel (hend _) (hend _) (List.cons.inj h).2
      exact .cons hsame (ih hrest)

structure ToonTable (columns : List String) where
  rows : List (Dict String Scalar)
  nonempty : rows ≠ []
  uniform : ∀ row ∈ rows, row.keys.Perm columns

theorem sortBy_perm {xs ys : List String} (h : xs.Perm ys) : sortBy id xs = sortBy id ys := by
  apply List.Perm.eq_of_pairwise _ (pairwise_sortBy id xs) (pairwise_sortBy id ys)
    ((perm_sortBy id xs).trans (h.trans (perm_sortBy id ys).symm))
  intro a b _ _ hab hba
  exact le_antisymm hab hba

theorem ToonTable.keys_eq (t : ToonTable columns) : toonKeys t.rows = sortBy id columns := by
  rw [toonKeys]
  cases hrows : t.rows with
  | nil => exact absurd hrows t.nonempty
  | cons row rows =>
    have hperm : row.keys.Perm columns := t.uniform row (by rw [hrows]; exact List.mem_cons_self)
    exact sortBy_perm hperm

theorem header_text (name : String) (rows : List (Dict String Scalar)) :
    (toonHeader name rows).toList = name.toList ++ '[' :: ((toString rows.length).toList ++
      ']' :: '{' :: ((",".intercalate (toonKeys rows)).toList ++ "\x7d:".toList)) := by
  rw [toonHeader]
  simp only [String.toList_append, List.append_assoc]
  rfl

theorem header_cancel {front : List Char} {m n : Nat}
    (h : front ++ '[' :: ((toString m).toList ++ ']' :: r) =
      front ++ '[' :: ((toString n).toList ++ ']' :: r')) : r = r' := by
  have hdigits (k : Nat) : ']' ∉ (toString k).toList := by
    intro hmem
    rw [Nat.toString_eq_repr, Nat.toList_repr] at hmem
    exact absurd (Nat.isDigit_of_mem_toDigits (by decide) (by decide) hmem) (by decide)
  have htail := (List.cons.inj (List.append_cancel_left h)).2
  exact (append_cons_inj (hdigits m) (hdigits n) htail).2

def Spells (v w : Scalar) : Prop := ∃ s, v = .text s ∧ w.shown = s

def Alike (v w : Scalar) : Prop := v = w ∨ Spells v w ∨ Spells w v

theorem num_ne_word (h : Json.isNumText t = true) :
    t ≠ "null" ∧ ∀ b, t ≠ (Scalar.bool b).shown := by
  apply And.intro
  · intro heq
    rw [heq] at h
    exact absurd h (by decide)
  · intro b heq
    rw [heq] at h
    cases b <;> exact absurd h (by decide)

theorem bool_shown_injective (h : (Scalar.bool a).shown = (Scalar.bool b).shown) : a = b := by
  cases a <;> cases b
  · rfl
  · exact absurd h (by decide)
  · exact absurd h (by decide)
  · rfl

theorem shown_eq_iff {v w : Scalar} : v.shown = w.shown ↔ Alike v w := by
  apply Iff.intro
  · intro h
    cases v with
    | text s => exact .inr (.inl ⟨s, rfl, h.symm⟩)
    | null =>
      cases w with
      | text s => exact .inr (.inr ⟨s, rfl, h⟩)
      | null => exact .inl rfl
      | bool b => cases b <;> exact absurd h (by decide)
      | num t ht => exact absurd h.symm (num_ne_word ht).1
    | bool b =>
      cases w with
      | text s => exact .inr (.inr ⟨s, rfl, h⟩)
      | null => cases b <;> exact absurd h (by decide)
      | bool b' =>
        left
        rw [bool_shown_injective h]
      | num t ht => exact absurd h.symm ((num_ne_word ht).2 b)
    | num t ht =>
      cases w with
      | text s => exact .inr (.inr ⟨s, rfl, h⟩)
      | null => exact absurd h (num_ne_word ht).1
      | bool b => exact absurd h ((num_ne_word ht).2 b)
      | num t' ht' =>
        left
        have htext : t = t' := h
        cases htext
        rfl
  · intro h
    cases h with
    | inl heq => rw [heq]
    | inr h =>
      cases h with
      | inl h =>
        obtain ⟨s, rfl, hs⟩ := h
        exact hs.symm
      | inr h =>
        obtain ⟨s, rfl, hs⟩ := h
        exact hs

def AlikeRows (columns : List String) (rows rows' : List (Dict String Scalar)) : Prop :=
  List.Forall₂ (fun row row' => ∀ k ∈ columns, Alike (valueAt row k) (valueAt row' k)) rows rows'

/-- The text determines the table but for the kind of a scalar that is written like a text: two
tables with the same columns have the same text exactly if they are alike, row for row. -/
theorem encodeToon_eq_iff (t t' : ToonTable columns) (name : String) :
    encodeToon t.rows name = encodeToon t'.rows name ↔ AlikeRows columns t.rows t'.rows := by
  have hkeys (k : String) : k ∈ sortBy id columns ↔ k ∈ columns := (perm_sortBy id columns).mem_iff
  rw [encodeToon, encodeToon, t.keys_eq, t'.keys_eq]
  apply Iff.intro
  · intro h
    have hlist := congrArg String.toList h
    rw [lines_text, lines_text, header_text, header_text, t.keys_eq, t'.keys_eq] at hlist
    simp only [List.append_assoc, List.cons_append] at hlist
    have hrest := (List.cons.inj (header_cancel hlist)).2
    have hrows := rows_cancel (List.append_cancel_left (List.append_cancel_left hrest))
    apply hrows.imp
    intro row row' hsame k hk
    exact shown_eq_iff.1 (hsame k ((hkeys k).2 hk))
  · intro h
    have hlines : t.rows.map (toonRow (sortBy id columns)) =
        t'.rows.map (toonRow (sortBy id columns)) := by
      apply List.forall₂_eq_eq_eq.le
      apply List.forall₂_map_left_iff.2 (List.forall₂_map_right_iff.2 (h.imp _))
      intro row row' halike
      exact toonRow_congr fun k hk => shown_eq_iff.2 (halike k ((hkeys k).1 hk))
    rw [toonHeader, toonHeader, t.keys_eq, t'.keys_eq, hlines, List.Forall₂.length_eq h]

def nullTable : ToonTable ["a"] where
  rows := [Dict.collect [("a", .null)]]
  nonempty := by decide
  uniform := by decide

def wordTable : ToonTable ["a"] where
  rows := [Dict.collect [("a", .text "null")]]
  nonempty := by decide
  uniform := by decide

theorem null_and_word : nullTable.rows ≠ wordTable.rows ∧
    encodeToon nullTable.rows "items" = encodeToon wordTable.rows "items" := by
  apply And.intro
  · intro h
    have hvalues := congrArg (List.map fun row => valueAt row "a") h
    exact absurd hvalues (by decide)
  · have hkeys (t : ToonTable ["a"]) : toonKeys t.rows = ["a"] :=
      t.keys_eq.trans (sortBy_singleton id "a")
    rw [encodeToon, encodeToon, toonHeader, toonHeader, hkeys, hkeys]
    rfl

end Prismal.Utils
