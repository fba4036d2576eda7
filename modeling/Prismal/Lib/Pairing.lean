import Mathlib.Data.List.Count
import Mathlib.Data.List.Nodup
import Mathlib.Data.List.TakeWhile
import Mathlib.Data.Option.Basic

namespace Prismal.Lib
set_option autoImplicit true
set_option linter.unusedSectionVars false

/-! Lists of moves in which each question is followed by its replies. -/

/-- A move of a dialogue: a reply, a list of questions, or neither. -/
structure Move (κ : Type u) (ι : Type v) where
  reply : Option κ
  asks : List κ
  name : ι

variable {κ : Type u} {ι : Type v} [DecidableEq κ] {m : Move κ ι} {ms rs : List (Move κ ι)}

def frontReplies (ms : List (Move κ ι)) : List (Move κ ι) := ms.takeWhile fun m => m.reply.isSome

def Move.Answered (m : Move κ ι) (rest : List (Move κ ι)) : Prop :=
  ∀ k ∈ m.asks, (frontReplies rest).countP (fun r => decide (r.reply = some k)) = 1

def Move.Fresh (m : Move κ ι) (ms : List (Move κ ι)) : Prop :=
  m.asks ≠ [] → ∀ x ∈ ms, x.asks ≠ [] → x.name ≠ m.name

def Paired : List (Move κ ι) → Prop
  | [] => True
  | m :: rest => m.Answered rest ∧ m.Fresh rest ∧ Paired rest

theorem Move.answered_of_plain (h : m.asks = []) : m.Answered rest := by
  intro k hk
  rw [h] at hk
  cases hk

theorem Move.fresh_of_plain (h : m.asks = []) : m.Fresh ms := fun hm => absurd h hm

theorem paired_of_append (xs : List (Move κ ι)) (h : Paired (xs ++ ms)) : Paired ms := by
  induction xs with
  | nil => exact h
  | cons x xs ih => exact ih h.2.2

theorem paired_cons_plain (hm : m.asks = []) (h : Paired ms) : Paired (m :: ms) :=
  ⟨Move.answered_of_plain hm, Move.fresh_of_plain hm, h⟩

theorem frontReplies_append (hm : m.reply = none) (ms rest : List (Move κ ι)) :
    frontReplies (ms ++ m :: rest) = frontReplies ms := by
  induction ms with
  | nil =>
    rw [List.nil_append, frontReplies, List.takeWhile_cons, hm]
    rfl
  | cons x ms ih =>
    rw [frontReplies] at ih
    rw [List.cons_append, frontReplies, frontReplies, List.takeWhile_cons, List.takeWhile_cons]
    split
    · exact congrArg (x :: ·) ih
    · rfl

theorem frontReplies_of_replies (h : ∀ r ∈ rs, r.reply.isSome = true) : frontReplies rs = rs :=
  List.takeWhile_eq_self_iff.2 h

theorem paired_append_group (hms : Paired ms) (hm : m.reply = none)
    (hfresh : m.Fresh ms) (hrs : ∀ r ∈ rs, r.reply.isSome = true ∧ r.asks = [])
    (hanswered : m.Answered rs) : Paired (ms ++ m :: rs) := by
  induction ms with
  | nil =>
    have hreplies : ∀ rs : List (Move κ ι), (∀ r ∈ rs, r.reply.isSome = true ∧ r.asks = []) →
        Paired rs := by
      intro rs hrs
      induction rs with
      | nil => trivial
      | cons r rs ih =>
        exact paired_cons_plain (hrs r List.mem_cons_self).2
          (ih fun x hx => hrs x (List.mem_cons_of_mem r hx))
    exact ⟨hanswered, fun _ x hx hasks => absurd (hrs x hx).2 hasks, hreplies rs hrs⟩
  | cons x ms ih =>
    obtain ⟨hx, hxfresh, hms⟩ := hms
    refine ⟨?_, ?_, ih hms ?_⟩
    · intro k hk
      rw [List.append_eq, frontReplies_append hm]
      exact hx k hk
    · intro hasks y hy hyasks
      rcases List.mem_append.1 hy with hy | hy
      · exact hxfresh hasks y hy hyasks
      · cases List.mem_cons.1 hy with
        | inl hy =>
          rw [hy] at hyasks ⊢
          exact (hfresh hyasks x List.mem_cons_self hasks).symm
        | inr hy => exact absurd (hrs y hy).2 hyasks
    · exact fun hasks y hy => hfresh hasks y (List.mem_cons_of_mem x hy)

theorem paired_concat_plain (hms : Paired ms) (hm : m.reply = none) (hasks : m.asks = []) :
    Paired (ms ++ [m]) :=
  paired_append_group hms hm (Move.fresh_of_plain hasks) (fun r hr => by cases hr)
    (Move.answered_of_plain hasks)

theorem answered_of_replies (hn : m.asks.Nodup)
    (hrs : rs.map Move.reply = m.asks.map some) : m.Answered rs := by
  intro k hk
  have hall : ∀ r ∈ rs, r.reply.isSome = true := by
    intro r hr
    have hmem := List.mem_map_of_mem (f := Move.reply) hr
    rw [hrs] at hmem
    obtain ⟨j, -, hj⟩ := List.mem_map.1 hmem
    rw [← hj]
    rfl
  rw [frontReplies_of_replies hall]
  have hcount : rs.countP (fun r => decide (r.reply = some k)) =
      (rs.map Move.reply).count (some k) := by
    rw [List.count, List.countP_map]
    apply List.countP_congr
    intro r _
    simp
  rw [hcount, hrs, List.count_map_of_injective _ _ (Option.some_injective _)]
  exact List.count_eq_one_of_mem hn hk

end Prismal.Lib
