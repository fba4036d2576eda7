import Mathlib.Data.List.Induction

namespace Prismal.Lib
set_option autoImplicit true

/-! A table whose rows are asserted one by one and retracted by a condition. -/

namespace Ledger

variable {α : Type u}

inductive Entry (α : Type u) where
  | assert (a : α)
  | retract (p : α → Bool)

def write (rows : List α) : Entry α → List α
  | .assert a => rows ++ [a]
  | .retract p => rows.filter fun a => !p a

def rows (start : List α) (log : List (Entry α)) : List α := log.foldl write start

def Stands (log : List (Entry α)) (a : α) : Prop :=
  ∃ before after, log = before ++ .assert a :: after ∧ ∀ p, .retract p ∈ after → p a = false

variable {log : List (Entry α)} {start : List α} {a b : α} {e : Entry α} {p q : α → Bool}

theorem rows_concat (start : List α) (log : List (Entry α)) (e : Entry α) :
    rows start (log ++ [e]) = write (rows start log) e := by
  rw [rows, List.foldl_append]
  rfl

theorem not_stands_nil : ¬ Stands [] a := by
  intro ⟨before, after, hlog, _⟩
  cases before <;> cases hlog

theorem stands_assert : Stands (log ++ [.assert b]) a ↔ Stands log a ∨ b = a := by
  constructor
  · intro ⟨before, after, hlog, hafter⟩
    cases after using List.reverseRecOn with
    | nil =>
      obtain ⟨-, hlast⟩ := List.append_inj' hlog rfl
      exact Or.inr (Entry.assert.inj (List.cons.inj hlast).1)
    | append_singleton after last =>
      rw [← List.cons_append, ← List.append_assoc] at hlog
      obtain ⟨hinit, -⟩ := List.append_inj' hlog rfl
      exact Or.inl ⟨before, after, hinit, fun p hp => hafter p (List.mem_append_left _ hp)⟩
  · intro h
    rcases h with ⟨before, after, rfl, hafter⟩ | rfl
    · refine ⟨before, after ++ [.assert b], by rw [List.append_assoc, List.cons_append], ?_⟩
      intro p hp
      rcases List.mem_append.1 hp with hold | hnew
      · exact hafter p hold
      · cases List.mem_singleton.1 hnew
    · exact ⟨log, [], rfl, fun p hp => absurd hp List.not_mem_nil⟩

theorem stands_retract : Stands (log ++ [.retract p]) a ↔ Stands log a ∧ p a = false := by
  constructor
  · intro ⟨before, after, hlog, hafter⟩
    cases after using List.reverseRecOn with
    | nil =>
      obtain ⟨-, hlast⟩ := List.append_inj' hlog rfl
      cases (List.cons.inj hlast).1
    | append_singleton after last =>
      rw [← List.cons_append, ← List.append_assoc] at hlog
      obtain ⟨hinit, hlast⟩ := List.append_inj' hlog rfl
      cases (List.cons.inj hlast).1
      constructor
      · exact ⟨before, after, hinit, fun p hp => hafter p (List.mem_append_left _ hp)⟩
      · exact hafter p (List.mem_append_right _ (List.mem_singleton_self _))
  · intro ⟨⟨before, after, hlog, hafter⟩, hp⟩
    refine ⟨before, after ++ [.retract p], ?_, ?_⟩
    · rw [hlog, List.append_assoc, List.cons_append]
    · intro p' hp'
      rcases List.mem_append.1 hp' with hold | hnew
      · exact hafter p' hold
      · cases List.mem_singleton.1 hnew
        exact hp

theorem mem_rows : a ∈ rows [] log ↔ Stands log a := by
  induction log using List.reverseRecOn with
  | nil => exact iff_of_false List.not_mem_nil not_stands_nil
  | append_singleton log e ih =>
    rw [rows_concat]
    cases e with
    | assert b =>
      rw [write, List.mem_append, List.mem_singleton, ih, stands_assert]
      exact or_congr_right eq_comm
    | retract p => rw [write, List.mem_filter, ih, stands_retract, Bool.not_eq_true']

def Entry.Outside (q : α → Bool) : Entry α → Prop
  | .assert a => q a = false
  | .retract p => ∀ a, q a = true → p a = false

theorem Entry.Outside.write (h : e.Outside q) (rows : List α) :
    (write rows e).filter q = rows.filter q := by
  cases e with
  | assert a =>
    rw [Ledger.write, List.filter_append, List.filter_cons_of_neg (ne_true_of_eq_false h)]
    exact List.append_nil _
  | retract p =>
    rw [Ledger.write, List.filter_filter]
    apply List.filter_congr
    intro a _
    cases hq : q a with
    | false => rfl
    | true => rw [h a hq]; rfl

theorem write_filter (q : α → Bool) (rows : List α) (e : Entry α) :
    (write (rows.filter q) e).filter q = (write rows e).filter q := by
  cases e with
  | assert a =>
    rw [write, write, List.filter_append, List.filter_append, List.filter_filter]
    simp only [Bool.and_self]
  | retract p =>
    rw [write, write, List.filter_filter, List.filter_filter, List.filter_filter]
    apply List.filter_congr
    intro a _
    cases q a <;> cases p a <;> rfl

theorem filter_rows {entry : β → Entry α} (keep : β → Bool)
    (hkeep : ∀ c, keep c = false → (entry c).Outside q) (start : List α) (calls : List β) :
    (rows start (calls.map entry)).filter q =
      (rows start ((calls.filter keep).map entry)).filter q := by
  induction calls using List.reverseRecOn with
  | nil => rfl
  | append_singleton calls c ih =>
    rw [List.map_append, List.map_singleton, rows_concat, List.filter_append, List.filter_cons,
      List.filter_nil]
    cases hk : keep c with
    | true =>
      rw [if_pos rfl, List.map_append, List.map_singleton, rows_concat, ← write_filter, ih,
        write_filter]
    | false =>
      rw [if_neg Bool.false_ne_true, List.append_nil, (hkeep c hk).write, ih]

end Ledger

end Prismal.Lib
