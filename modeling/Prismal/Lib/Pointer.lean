import Mathlib.Data.List.Basic
import Mathlib.Data.String.Basic

namespace Prismal.Lib
set_option autoImplicit true

/-! Texts with one character replaced, and pointers into nested objects that are written with two
such replacements: every step is `/` and then a member name in which `~` and `/` are escaped. -/

open String.Slice.Pattern String.Slice.Pattern.Model

def substChar (c : Char) (r : String) (cs : List Char) : List Char :=
  cs.flatMap fun d => if d = c then r.toList else [d]

theorem substChar_of_not_mem {c : Char} {r : String} {cs : List Char} (h : c ∉ cs) :
    substChar c r cs = cs := by
  induction cs with
  | nil => rfl
  | cons d ds ih =>
    rw [List.mem_cons, not_or] at h
    rw [substChar, List.flatMap_cons, if_neg (Ne.symm h.1)]
    exact congrArg (d :: ·) (ih h.2)

theorem substChar_append (c : Char) (r : String) (cs ds : List Char) :
    substChar c r (cs ++ ds) = substChar c r cs ++ substChar c r ds := List.flatMap_append

def replaceStep {s : String.Slice} (r : String) (sofar : String) : SearchStep s → String
  | .matched _ _ => sofar ++ r.toSlice
  | .rejected start stop => sofar ++ s.slice! start stop

theorem toList_foldl_replace {s : String.Slice} {c : Char} {r : String} {pos : s.Pos}
    {steps : List (SearchStep s)} (hv : IsValidSearchFrom (String.singleton c) pos steps)
    (t t' : String) (hs : pos.Splits t t') (acc : String) :
    (steps.foldl (replaceStep r) acc).toList = acc.toList ++ substChar c r t'.toList := by
  induction hv generalizing t t' acc with
  | endPos =>
    obtain ⟨-, rfl⟩ := String.Slice.splits_endPos_iff.1 hs
    simp [substChar]
  | matched hm hv ih =>
    obtain ⟨u, u', hp, hq⟩ := ForwardStringSearcher.isLongestMatchAt_iff_splits.1 hm
    obtain ⟨rfl, rfl⟩ := hs.eq hp
    rw [List.foldl_cons, ih _ _ hq]
    simp [replaceStep, substChar]
  | mismatched hlt hno hv ih =>
    rename_i l p q
    obtain ⟨u, -, hq, rfl⟩ :=
      (String.Slice.Pos.Splits.lt_iff_exists_eq_append hs q.splits).1 hlt
    have hqs : q.Splits (t ++ u) (s.sliceFrom q).copy := hq ▸ q.splits
    have hcopy : (s.slice! p q).copy = u := by
      obtain ⟨h, hu⟩ := String.Slice.copy_slice_eq_iff_splits.2 ⟨t, _, hs, hqs⟩
      rw [← String.Slice.slice_eq_slice! (h := h), hu]
    have hnot : c ∉ u.toList := by
      intro hc
      obtain ⟨u₁, u₂, hu⟩ := List.append_of_mem hc
      have hu' : u = String.ofList u₁ ++ (String.singleton c ++ String.ofList u₂) := by
        apply String.toList_injective
        simp [hu]
      subst hu'
      rw [String.append_assoc] at hs
      obtain ⟨m, hr⟩ : ∃ m : s.Pos, m.Splits (t ++ String.ofList u₁)
          (String.singleton c ++ String.ofList u₂ ++ (s.sliceFrom q).copy) :=
        ⟨_, String.Slice.Pos.Splits.splits_rotateRight hs⟩
      apply hno m
      · exact (String.Slice.Pos.Splits.le_iff_exists_eq_append hs hr).2 ⟨_, rfl, rfl⟩
      · refine (String.Slice.Pos.Splits.lt_iff_exists_eq_append hr hqs).2
          ⟨String.singleton c ++ String.ofList u₂, ?_, ?_, rfl⟩
        · simp
        · rw [String.append_assoc]
      · rw [String.append_assoc] at hr
        exact ForwardStringSearcher.matchesAt_iff_splits.2 ⟨_, _, hr⟩
    rw [List.foldl_cons, ih _ _ hqs, String.toList_append, substChar_append,
      substChar_of_not_mem hnot]
    simp [replaceStep, hcopy]

theorem toList_replace (s : String) {p : String} (hp : p = String.singleton c) (r : String) :
    (s.replace p r).toList = substChar c r s.toList := by
  subst hp
  have hlaw := @ForwardStringSearcher.lawfulToForwardSearcherModel (String.singleton c) (by simp)
  have hv := hlaw.isValidSearchFrom_toList s.toSlice
  have h := toList_foldl_replace (r := r) hv "" s (by simp) ""
  rw [String.replace, String.Slice.replace, ← Std.Iter.foldl_toList]
  rw [String.toList_empty, List.nil_append] at h
  rw [← h]
  congr 2
  funext sofar step
  cases step <;> rfl

namespace Pointer

def escapeChar (c : Char) : List Char :=
  if c = '~' then ['~', '0'] else if c = '/' then ['~', '1'] else [c]

def escape (cs : List Char) : List Char := cs.flatMap escapeChar

def unescape : List Char → Option (List Char)
  | [] => some []
  | '~' :: '0' :: cs => (unescape cs).map ('~' :: ·)
  | '~' :: '1' :: cs => (unescape cs).map ('/' :: ·)
  | '~' :: _ => none
  | c :: cs => (unescape cs).map (c :: ·)

def parse (s : String) : Option (List String) :=
  match s.toList.splitOn '/' with
  | [] :: tokens => tokens.mapM fun cs => (unescape cs).map String.ofList
  | _ => none

theorem escape_eq (cs : List Char) : substChar '/' "~1" (substChar '~' "~0" cs) = escape cs := by
  induction cs with
  | nil => rfl
  | cons c cs ih =>
    have hcons : ∀ d r ds, substChar d r (c :: ds) = substChar d r [c] ++ substChar d r ds :=
      fun d r ds =>
      substChar_append d r [c] ds
    rw [hcons, substChar_append, ih, escape, escape, List.flatMap_cons, escapeChar]
    congr 1
    by_cases ht : c = '~'
    · subst ht
      decide
    · by_cases hs : c = '/'
      · subst hs
        decide
      · simp [substChar, ht, hs]

theorem toList_escape (s : String) :
    ((s.replace "~" "~0").replace "/" "~1").toList = escape s.toList := by
  rw [toList_replace (c := '/') _ (by decide), toList_replace (c := '~') _ (by decide), escape_eq]

theorem slash_not_mem_escape (cs : List Char) : '/' ∉ escape cs := by
  intro h
  obtain ⟨c, -, hc⟩ := List.mem_flatMap.1 h
  rw [escapeChar] at hc
  split at hc
  · exact absurd hc (by decide)
  · split at hc
    · exact absurd hc (by decide)
    next h => exact h (List.mem_singleton.1 hc).symm

theorem unescape_cons {c : Char} (h : c ≠ '~') (cs : List Char) :
    unescape (c :: cs) = (unescape cs).map (c :: ·) := by
  rw [unescape.eq_def]
  split
  next he => cases he
  next he => exact absurd (List.cons.inj he).1 h
  next he => exact absurd (List.cons.inj he).1 h
  next he => exact absurd (List.cons.inj he).1 h
  next he =>
    cases he
    rfl

theorem unescape_escape (cs : List Char) : unescape (escape cs) = some cs := by
  induction cs with
  | nil => rfl
  | cons c cs ih =>
    rw [escape] at ih
    rw [escape, List.flatMap_cons, escapeChar]
    split
    next h =>
      subst h
      rw [List.cons_append, List.cons_append, List.nil_append, unescape, ih, Option.map_some]
    next h =>
      split
      next h' =>
        subst h'
        rw [List.cons_append, List.cons_append, List.nil_append, unescape, ih, Option.map_some]
      · rw [List.singleton_append, unescape_cons h, ih, Option.map_some]

theorem parse_empty : parse "" = some [] := by
  rfl

theorem parse_append (h : parse p = some ts) (token : String) {e : String}
    (he : e.toList = escape token.toList) : parse (p ++ "/" ++ e) = some (ts ++ [token]) := by
  have hlist : (p ++ "/" ++ e).toList = p.toList ++ '/' :: escape token.toList := by
    rw [String.toList_append, String.toList_append, he, List.append_assoc]
    rfl
  rw [parse] at h ⊢
  rw [hlist, List.splitOn_append_cons_self, List.splitOn_eq_singleton (slash_not_mem_escape _)]
  split at h
  next tokens hp =>
    rw [hp, List.cons_append]
    dsimp only
    rw [List.mapM_append, h, List.mapM_cons, unescape_escape]
    simp
  · cases h

end Pointer

end Prismal.Lib
