import Mathlib.Data.List.Infix
import Mathlib.Data.List.TakeWhile

namespace Prismal.Lib
set_option autoImplicit true

/-! Text with references: a mark, a word and a closing text, such as `$T1.output`. -/

/-- How a reference is written. The mark stands nowhere else in it, and the closing text ends the
word. -/
structure Marking where
  mark : Char
  word : Char → Bool
  stop : Char
  tail : List Char
  mark_not_word : word mark = false
  stop_not_word : word stop = false
  mark_not_close : mark ∉ stop :: tail

namespace Marking

variable (m : Marking)

def close : List Char := m.stop :: m.tail

def literal (w : List Char) : List Char := m.mark :: (w ++ m.close)

def IsWord (w : List Char) : Prop := w ≠ [] ∧ ∀ c ∈ w, m.word c = true

def reference : List Char → Option (List Char)
  | [] => none
  | c :: cs =>
    if c = m.mark ∧ cs.takeWhile m.word ≠ [] ∧ m.close.isPrefixOf (cs.dropWhile m.word) = true then
      some (cs.takeWhile m.word)
    else none

inductive Segment where
  | chr (c : Char)
  | ref (w : List Char)
  deriving DecidableEq, Repr

def segmentsFrom : Nat → List Char → List Segment
  | _, [] => []
  | skip + 1, _ :: cs => segmentsFrom skip cs
  | 0, c :: cs =>
    match m.reference (c :: cs) with
    | none => .chr c :: segmentsFrom 0 cs
    | some w => .ref w :: segmentsFrom (w ++ m.close).length cs

def segments (cs : List Char) : List Segment := m.segmentsFrom 0 cs

variable {m}

theorem takeWhile_word (h : ∀ c ∈ w, m.word c = true) (cs : List Char) :
    (w ++ m.close ++ cs).takeWhile m.word = w := by
  rw [List.append_assoc, List.takeWhile_append_of_pos h, close, List.cons_append,
    List.takeWhile_cons_of_neg (by simp [m.stop_not_word]), List.append_nil]

theorem dropWhile_word (h : ∀ c ∈ w, m.word c = true) (cs : List Char) :
    (w ++ m.close ++ cs).dropWhile m.word = m.close ++ cs := by
  rw [List.append_assoc, List.dropWhile_append_of_pos h, close, List.cons_append,
    List.dropWhile_cons_of_neg (by simp [m.stop_not_word])]

theorem reference_eq_some :
    m.reference cs = some w ↔ m.IsWord w ∧ m.literal w <+: cs := by
  cases cs with
  | nil =>
    constructor
    · intro h
      cases h
    · rintro ⟨-, h⟩
      exact absurd (List.prefix_nil.1 h) (List.cons_ne_nil _ _)
  | cons c cs =>
    rw [reference]
    constructor
    · intro h
      split at h
      · next hc =>
        obtain ⟨rfl, hne, hclose⟩ := hc
        cases h
        refine ⟨⟨hne, fun c hc => List.mem_takeWhile_imp hc⟩, ?_⟩
        obtain ⟨post, hpost⟩ := List.isPrefixOf_iff_prefix.1 hclose
        refine ⟨post, ?_⟩
        rw [literal, List.cons_append, List.append_assoc, hpost, List.takeWhile_append_dropWhile]
      · cases h
    · rintro ⟨⟨hne, hword⟩, post, hpost⟩
      rw [literal, List.cons_append, List.cons.injEq] at hpost
      obtain ⟨rfl, rfl⟩ := hpost
      rw [takeWhile_word hword, dropWhile_word hword, if_pos]
      exact ⟨rfl, hne, List.isPrefixOf_iff_prefix.2 (List.prefix_append _ _)⟩

theorem segmentsFrom_skip (n : Nat) (cs : List Char) :
    m.segmentsFrom n cs = m.segments (cs.drop n) := by
  induction n generalizing cs with
  | zero => rfl
  | succ n ih =>
    cases cs with
    | nil => rw [segmentsFrom, List.drop_nil, segments, segmentsFrom]
    | cons c cs => rw [segmentsFrom, ih, List.drop_succ_cons]

theorem segments_chr (h : m.reference (c :: cs) = none) :
    m.segments (c :: cs) = .chr c :: m.segments cs := by
  rw [segments, segmentsFrom, h]
  rfl

theorem segments_ref (h : m.IsWord w) (cs : List Char) :
    m.segments (m.literal w ++ cs) = .ref w :: m.segments cs := by
  have href : m.reference (m.mark :: (w ++ m.close ++ cs)) = some w :=
    reference_eq_some.2 ⟨h, List.prefix_append (m.literal w) cs⟩
  rw [literal, List.cons_append, segments, segmentsFrom, href]
  simp only
  rw [segmentsFrom_skip, List.drop_left]

theorem mark_not_mem (h : m.IsWord w) : m.mark ∉ w ++ m.close := by
  rw [List.mem_append]
  rintro (hw | hclose)
  · exact absurd (h.2 _ hw) (by simp [m.mark_not_word])
  · exact m.mark_not_close hclose

theorem prefix_of_prefix_append (h : m.IsWord v) (hne : pre ≠ [])
    (hp : m.literal v <+: pre ++ (m.literal w ++ post)) : m.literal v <+: pre := by
  rcases List.prefix_or_prefix_of_prefix hp (List.prefix_append pre _) with hpre | hpre
  · exact hpre
  · obtain ⟨rest, hrest⟩ := hpre
    rw [← hrest, List.prefix_append_right_inj] at hp
    cases rest with
    | nil => exact ⟨[], by rw [← hrest, List.append_nil, List.append_nil]⟩
    | cons c rest =>
      rw [literal, List.cons_append, List.cons_prefix_cons] at hp
      obtain ⟨d, pre, rfl⟩ := List.exists_cons_of_ne_nil hne
      rw [literal, List.cons_append, List.cons.injEq] at hrest
      refine absurd ?_ (mark_not_mem h)
      rw [← hrest.2, hp.1]
      exact List.mem_append_right _ List.mem_cons_self

theorem reference_append (hne : pre ≠ []) (w post : List Char) :
    m.reference (pre ++ (m.literal w ++ post)) = m.reference pre := by
  apply Option.ext
  intro v
  rw [reference_eq_some, reference_eq_some]
  constructor
  · rintro ⟨hv, hp⟩
    exact ⟨hv, prefix_of_prefix_append hv hne hp⟩
  · rintro ⟨hv, hp⟩
    exact ⟨hv, hp.trans (List.prefix_append _ _)⟩

theorem segments_literal (hw : m.IsWord w) (pre post : List Char) :
    m.segments (pre ++ (m.literal w ++ post)) = m.segments pre ++ .ref w :: m.segments post := by
  induction hn : pre.length using Nat.strongRecOn generalizing pre with
  | ind n ih =>
    cases pre with
    | nil => exact segments_ref hw post
    | cons c pre =>
      have happend := reference_append (m := m) (List.cons_ne_nil c pre) w post
      cases hc : m.reference (c :: pre) with
      | none =>
        rw [hc, List.cons_append] at happend
        rw [List.cons_append, segments_chr hc, segments_chr happend,
          ih pre.length (by rw [← hn]; exact Nat.lt_succ_self _) pre rfl, List.cons_append]
      | some v =>
        obtain ⟨hv, rest, hrest⟩ := reference_eq_some.1 hc
        have hlt : rest.length < n := by
          rw [← hn, ← hrest, List.length_append]
          exact Nat.lt_add_of_pos_left (Nat.succ_pos _)
        rw [← hrest, List.append_assoc, segments_ref hv, segments_ref hv,
          ih rest.length hlt rest rfl,
          List.cons_append]

theorem isWord_of_mem_segments (cs : List Char) (h : .ref w ∈ m.segments cs) : m.IsWord w := by
  induction hn : cs.length using Nat.strongRecOn generalizing cs with
  | ind n ih =>
    cases cs with
    | nil => cases h
    | cons c cs =>
      cases hc : m.reference (c :: cs) with
      | none =>
        rw [segments_chr hc] at h
        rcases List.mem_cons.1 h with h | h
        · cases h
        · exact ih cs.length (by rw [← hn]; exact Nat.lt_succ_self _) cs h rfl
      | some v =>
        obtain ⟨hv, rest, hrest⟩ := reference_eq_some.1 hc
        rw [← hrest, segments_ref hv] at h
        rcases List.mem_cons.1 h with h | h
        · cases h
          exact hv
        · refine ih rest.length ?_ rest h rfl
          rw [← hn, ← hrest, List.length_append]
          exact Nat.lt_add_of_pos_left (Nat.succ_pos _)

end Marking

end Prismal.Lib
