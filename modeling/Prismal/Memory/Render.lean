import Mathlib.Algebra.Order.BigOperators.Group.List
import Prismal.Lib.State
import Prismal.Memory.Types
import Prismal.Utils.TokenEstimate
import Prismal.Utils.Toon

namespace Prismal.Memory
open Prismal.Lib Prismal.Utils
set_option autoImplicit true

/-! Recalled memory as text: one compact line for each item, or a table where that is cheaper. -/

/-- One recalled record with its score and its cost. -/
structure RecalledItem where
  record : MemoryRecord
  score : Rat
  tokens : Nat
  deriving DecidableEq

/-- The formats of the language: the date of a Unix time, which raises where there is none, and
`:.2f`. -/
structure Formats (ε : Type) where
  date : Rat → Except ε String
  twoPlaces : Rat → String

variable {ε : Type} {f : Formats ε} {budget : Int} {items : List RecalledItem}

def untrustedMark : String := "[untrusted]"

def isUntrusted (record : MemoryRecord) : Bool :=
  record.provenance.tainted || decide (record.provenance.trust = .untrusted)

/-- `" ".join(text.split())` -/
def oneLine (text : String) : String := strip (collapse isSpace text)

/-- `[type|date|conf]: content` -/
def itemLine (f : Formats ε) (record : MemoryRecord) : Except ε String := do
  let date ← f.date record.provenance.createdAt
  let line := "[" ++ record.type.value ++ "|" ++ date ++ "|" ++ f.twoPlaces record.confidence ++
    "]: " ++ oneLine record.content
  return if isUntrusted record then untrustedMark ++ " " ++ line else line

def lineTokens (line : String) : Nat := estimateTokens (line ++ "\n")

def itemTokens (f : Formats ε) (record : MemoryRecord) : Except ε Nat :=
  (itemLine f record).map lineTokens

/-- `_TOON_TYPES` -/
def toonTypes : List MemoryType := [.preference, .semantic]

def toonEligible : List RecalledItem → Bool
  | [] | [_] => false
  | first :: rest =>
    decide (first.record.type ∈ toonTypes) &&
      (first :: rest).all fun i =>
        decide (i.record.type = first.record.type) && !isUntrusted i.record

def rowKeys : List String := ["conf", "content", "date"]

def itemRow (f : Formats ε) (record : MemoryRecord) : Except ε (Dict String Scalar) := do
  let date ← f.date record.provenance.createdAt
  return Dict.collect [("conf", .text (f.twoPlaces record.confidence)),
    ("content", .text (oneLine record.content)), ("date", .text date)]

/-- `_toon` -/
def toonTable (f : Formats ε) (items : List RecalledItem) : Except ε String := do
  let rows ← items.mapM fun i => itemRow f i.record
  return encodeToon rows ((items.head?.map fun i => i.record.type.value).getD "")

def compactStep (f : Formats ε) (budget : Int) (lines : List String) (item : RecalledItem) :
    Except ε (List String) := do
  let line ← itemLine f item.record
  return if (estimateTokens ("\n".intercalate (lines ++ [line])) : Int) ≤ budget
    then lines ++ [line] else lines

/-- `_compact` -/
def compact (f : Formats ε) (items : List RecalledItem) (budget : Int) : Except ε String := do
  let lines ← items.foldlM (compactStep f budget) []
  return "\n".intercalate lines

def renderItems (f : Formats ε) (items : List RecalledItem) (budget : Int) (toon : Bool := true) :
    Except ε (String × Nat) := do
  if budget ≤ 0 ∨ items = [] then return ("", 0)
  let text ← compact f items budget
  if toon && toonEligible items then
    let table ← toonTable f items
    if (estimateTokens table : Int) ≤ budget ∧ estimateTokens table ≤ estimateTokens text then
      return (table, estimateTokens table)
  return (text, estimateTokens text)

theorem lineTokens_eq (line : String) : lineTokens line = (line.length + 4) / 4 := by
  rw [lineTokens, estimateTokens, String.length_append]
  rfl

theorem joined_le (lines : List String) :
    estimateTokens ("\n".intercalate lines) ≤ (lines.map lineTokens).sum := by
  induction lines with
  | nil => exact Nat.le_refl 0
  | cons line lines ih =>
    rw [List.map_cons, List.sum_cons]
    cases lines with
    | nil =>
      rw [String.intercalate_singleton]
      rw [lineTokens_eq, estimateTokens]
      omega
    | cons next lines =>
      rw [String.intercalate_cons_cons]
      exact (estimateTokens_append _ _).trans (Nat.add_le_add_left ih _)

theorem itemTokens_ok (h : itemTokens f record = .ok n) :
    ∃ line, itemLine f record = .ok line ∧ lineTokens line = n := by
  rw [itemTokens] at h
  cases hline : itemLine f record with
  | error e =>
    rw [hline] at h
    cases h
  | ok line =>
    rw [hline] at h
    cases h
    exact ⟨line, rfl, rfl⟩

theorem compact_within (hbudget : 0 ≤ budget) (h : compact f items budget = .ok text) :
    (estimateTokens text : Int) ≤ budget := by
  obtain ⟨lines, hlines, htext⟩ := except_bind_ok h
  rw [except_pure_ok htext]
  clear h htext
  suffices hkept : ∀ kept : List String, (estimateTokens ("\n".intercalate kept) : Int) ≤ budget →
      items.foldlM (compactStep f budget) kept = .ok lines →
      (estimateTokens ("\n".intercalate lines) : Int) ≤ budget from hkept [] hbudget hlines
  clear hlines
  induction items with
  | nil =>
    intro kept hle hlines
    rw [except_pure_ok hlines]
    exact hle
  | cons item items ih =>
    intro kept hle hlines
    rw [List.foldlM_cons] at hlines
    obtain ⟨kept', hstep, hrest⟩ := except_bind_ok hlines
    obtain ⟨line, -, hkept'⟩ := except_bind_ok hstep
    apply ih kept' ?_ hrest
    rw [except_pure_ok hkept']
    split
    · assumption
    · exact hle

theorem compact_lines (hcost : ∀ i ∈ items, itemTokens f i.record = .ok i.tokens)
    (hfit : ((items.map RecalledItem.tokens).sum : Int) ≤ budget) :
    ∃ lines, items.mapM (fun i => itemLine f i.record) = .ok lines ∧
      compact f items budget = .ok ("\n".intercalate lines) := by
  suffices hkept : ∀ kept : List String,
      (((kept.map lineTokens).sum + (items.map RecalledItem.tokens).sum : Nat) : Int) ≤ budget →
      ∃ lines, items.mapM (fun i => itemLine f i.record) = .ok lines ∧
        items.foldlM (compactStep f budget) kept = .ok (kept ++ lines) by
    obtain ⟨lines, hlines, hfold⟩ := hkept [] (by rw [List.map_nil, List.sum_nil]; omega)
    exact ⟨lines, hlines, by rw [compact, hfold]; rfl⟩
  clear hfit
  induction items with
  | nil => exact fun kept _ => ⟨[], rfl, by rw [List.append_nil]; rfl⟩
  | cons item items ih =>
    intro kept hfit
    obtain ⟨hitem, hcost⟩ := List.forall_mem_cons.1 hcost
    obtain ⟨line, hline, htokens⟩ := itemTokens_ok hitem
    rw [List.map_cons, List.sum_cons, ← htokens] at hfit
    have hsum : ((kept ++ [line]).map lineTokens).sum =
        (kept.map lineTokens).sum + lineTokens line := by
      rw [List.map_append, List.sum_append, List.map_singleton, List.sum_singleton]
    have hstep : compactStep f budget kept item = .ok (kept ++ [line]) := by
      have hjoined := joined_le (kept ++ [line])
      rw [compactStep, hline]
      change Except.ok (if _ then _ else _) = _
      rw [if_pos (by omega)]
    obtain ⟨lines, hlines, hfold⟩ := ih hcost (kept ++ [line]) (by rw [hsum]; omega)
    apply Exists.intro (line :: lines)
    apply And.intro
    · rw [List.mapM_cons, hline, hlines]
      rfl
    · rw [List.foldlM_cons, hstep]
      change items.foldlM (compactStep f budget) (kept ++ [line]) = _
      rw [hfold, List.append_assoc, List.singleton_append]

def Shown (f : Formats ε) (text : String) (record : MemoryRecord) : Prop :=
  (∃ line, itemLine f record = .ok line ∧ line.toList <:+: text.toList) ∨
    ∃ row, itemRow f record = .ok row ∧ (toonRow rowKeys row).toList <:+: text.toList

theorem mem_of_mapM {g : α → Except ε β} {as : List α} {bs : List β} (h : as.mapM g = .ok bs)
    (ha : a ∈ as) : ∃ b ∈ bs, g a = .ok b := by
  induction as generalizing bs with
  | nil => cases ha
  | cons a' as ih =>
    obtain ⟨b, bs', hb, hbs', rfl⟩ := mapM_cons_ok h
    cases ha with
    | head => exact ⟨b, List.mem_cons_self, hb⟩
    | tail _ ha =>
      obtain ⟨b', hmem, hb'⟩ := ih hbs' ha
      exact ⟨b', List.mem_cons_of_mem _ hmem, hb'⟩

theorem shown_of_lines (h : items.mapM (fun i => itemLine f i.record) = .ok lines)
    (hi : i ∈ items) : Shown f ("\n".intercalate lines) i.record := by
  obtain ⟨line, hmem, hline⟩ := mem_of_mapM h hi
  apply Or.inl
  apply Exists.intro line
  apply And.intro hline
  rw [String.toList_intercalate]
  exact infix_intercalate (List.mem_map_of_mem hmem) _

theorem itemRow_keys (h : itemRow f record = .ok row) : row.keys = rowKeys := by
  obtain ⟨date, -, hrow⟩ := except_bind_ok h
  rw [except_pure_ok hrow]
  rfl

theorem shown_of_table (h : toonTable f items = .ok table) (hi : i ∈ items) :
    Shown f table i.record := by
  obtain ⟨rows, hrows, htable⟩ := except_bind_ok h
  obtain ⟨row, hmem, hrow⟩ := mem_of_mapM hrows hi
  have hkeys : (rows.head?.map Dict.keys).getD [] = rowKeys := by
    cases items with
    | nil => cases hi
    | cons first items =>
      obtain ⟨row', rows', hrow', -, rfl⟩ := mapM_cons_ok hrows
      exact itemRow_keys hrow'
  have hsorted : sortBy id rowKeys = rowKeys :=
    List.mergeSort_of_pairwise (by decide)
  have hoccurs := toonRow_occurs hmem
    ((items.head?.map fun i => i.record.type.value).getD "")
  rw [toonKeys, hkeys, hsorted] at hoccurs
  rw [except_pure_ok htable]
  exact .inr ⟨row, hrow, hoccurs⟩

theorem renderItems_within (h : renderItems f items budget toon = .ok (text, n)) :
    n = estimateTokens text ∧ (n : Int) ≤ max budget 0 := by
  rw [renderItems] at h
  split at h
  · cases h
    exact ⟨rfl, Int.le_max_right _ _⟩
  · next hsome =>
    have hbudget : 0 ≤ budget := by
      by_contra hneg
      exact hsome (.inl (by omega))
    obtain ⟨lines, hlines, h⟩ := except_bind_ok h
    have hwithin := compact_within hbudget hlines
    split at h
    · obtain ⟨table, -, h⟩ := except_bind_ok h
      split at h
      · next hfits =>
        cases h
        exact ⟨rfl, hfits.1.trans (Int.le_max_left _ _)⟩
      · cases h
        exact ⟨rfl, hwithin.trans (Int.le_max_left _ _)⟩
    · cases h
      exact ⟨rfl, hwithin.trans (Int.le_max_left _ _)⟩

theorem renderItems_shows (hcost : ∀ i ∈ items, itemTokens f i.record = .ok i.tokens)
    (hfit : ((items.map RecalledItem.tokens).sum : Int) ≤ max budget 0)
    (h : renderItems f items budget toon = .ok (text, n)) (hi : i ∈ items) :
    Shown f text i.record := by
  have hbudget : 0 < budget := by
    obtain ⟨line, -, htokens⟩ := itemTokens_ok (hcost i hi)
    have hle : i.tokens ≤ (items.map RecalledItem.tokens).sum :=
      List.single_le_sum (fun _ _ => Nat.zero_le _) _ (List.mem_map_of_mem hi)
    rw [← htokens, lineTokens_eq] at hle
    omega
  have hsome : ¬ (budget ≤ 0 ∨ items = []) := by
    intro hnone
    cases hnone with
    | inl hnone => omega
    | inr hnone =>
      rw [hnone] at hi
      cases hi
  have hsum : ((items.map RecalledItem.tokens).sum : Int) ≤ budget := by omega
  obtain ⟨lines, hlines, hcompact⟩ := compact_lines hcost hsum
  rw [renderItems, if_neg hsome, hcompact] at h
  change (if _ then _ else _) = _ at h
  split at h
  · obtain ⟨table, htable, h⟩ := except_bind_ok h
    split at h
    · cases h
      exact shown_of_table htable hi
    · cases h
      exact shown_of_lines hlines hi
  · cases h
    exact shown_of_lines hlines hi

end Prismal.Memory
