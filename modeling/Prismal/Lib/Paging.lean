import Mathlib.Data.List.Pairwise
import Mathlib.Order.Lattice

namespace Prismal.Lib.Paging
set_option autoImplicit true

variable {α : Type u} {κ : Type v} [LinearOrder κ] (key : α → κ)

def Descending (view : List α) : Prop := view.Pairwise fun a b => key b < key a

/-- What of a view is left for a reader who stopped at `cursor`. -/
def below (cursor : Option κ) (view : List α) : List α :=
  view.filter fun a => cursor.all fun c => decide (key a < c)

/-- A reader who takes pages of `n` from views that change between the pages, and resumes each
time below the last element of the page before: what was read, and whether the end was reached. -/
def walk (n : Nat) : Option κ → List (List α) → List α × Bool
  | _, [] => ([], false)
  | cursor, view :: later =>
    let page := (below key cursor view).take n
    if n < (below key cursor view).length then
      match page.getLast? with
      | none => (page, true)
      | some a => (page ++ (walk n (some (key a)) later).1, (walk n (some (key a)) later).2)
    else (page, true)

def Ahead (cursor : Option κ) (a : α) : Prop := ∀ c ∈ cursor, key a < c

variable {key} {cursor : Option κ} {view : List α} {n : Nat}

theorem mem_below : a ∈ below key cursor view ↔ a ∈ view ∧ Ahead key cursor a := by
  rw [below, List.mem_filter]
  cases cursor <;> simp [Ahead]

theorem Descending.below (h : Descending key view) :
    Descending key (below key cursor view) := h.filter _

theorem Descending.nodup (h : Descending key view) : view.Nodup := by
  apply h.imp
  intro a b hlt he
  rw [he] at hlt
  exact lt_irrefl _ hlt

theorem Descending.drop_below (h : Descending key view) (ha : (view.take n).getLast? = some a)
    (hb : b ∈ view.drop n) : key b < key a := by
  have hsplit := h
  rw [← List.take_append_drop n view, Descending, List.pairwise_append] at hsplit
  exact hsplit.2.2 a (List.mem_of_getLast? ha) b hb

theorem Descending.last_least (h : Descending key view) (ha : view.getLast? = some a)
    (hb : b ∈ view) : key a ≤ key b := by
  obtain ⟨front, rfl⟩ := List.getLast?_eq_some_iff.1 ha
  rw [Descending, List.pairwise_append] at h
  rcases List.mem_append.1 hb with hb | hb
  · exact le_of_lt (h.2.2 b hb a (List.mem_singleton_self a))
  · rw [List.mem_singleton.1 hb]

theorem below_last (h : Descending key view) (ha : (view.take n).getLast? = some a) :
    below key (some (key a)) view = view.drop n := by
  have hpage : below key (some (key a)) (view.take n) = [] := by
    apply List.filter_eq_nil_iff.2
    intro b hb hlt
    have hle := Descending.last_least (h.sublist (List.take_sublist n view)) ha hb
    exact absurd (of_decide_eq_true hlt) (not_lt.2 hle)
  have hrest : below key (some (key a)) (view.drop n) = view.drop n := by
    apply List.filter_eq_self.2
    intro b hb
    exact decide_eq_true (h.drop_below ha hb)
  calc below key (some (key a)) view
      = below key (some (key a)) (view.take n) ++ below key (some (key a)) (view.drop n) := by
        rw [below, below, below, ← List.filter_append, List.take_append_drop]
    _ = view.drop n := by rw [hpage, hrest, List.nil_append]

theorem below_below (h : Ahead key cursor a) :
    below key (some (key a)) (below key cursor view) = below key (some (key a)) view := by
  rw [below, below, List.filter_filter, below]
  apply List.filter_congr
  intro b _
  cases cursor with
  | none => simp
  | some c =>
    have hc : key a < c := h c rfl
    simpa using fun hlt => lt_trans hlt hc

theorem getLast?_take (hn : 0 < n) (hl : n < l.length) :
    ∃ a, (List.take n l).getLast? = some a := by
  cases hlast : (l.take n).getLast? with
  | some a => exact ⟨a, rfl⟩
  | none =>
    have hlen := congrArg List.length (List.getLast?_eq_none_iff.1 hlast)
    rw [List.length_take, List.length_nil] at hlen
    omega

theorem walk_cons (key : α → κ) (hn : 0 < n) (cursor : Option κ) (view : List α)
    (later : List (List α)) :
    ((below key cursor view).length ≤ n ∧
        walk key n cursor (view :: later) = (below key cursor view, true)) ∨
      ∃ a, n < (below key cursor view).length ∧
        ((below key cursor view).take n).getLast? = some a ∧
        walk key n cursor (view :: later) =
          ((below key cursor view).take n ++ (walk key n (some (key a)) later).1,
            (walk key n (some (key a)) later).2) := by
  rw [walk]
  by_cases hl : n < (below key cursor view).length
  · obtain ⟨a, ha⟩ := getLast?_take hn hl
    right
    refine ⟨a, hl, ha, ?_⟩
    simp only [if_pos hl, ha]
  · left
    refine ⟨Nat.le_of_not_lt hl, ?_⟩
    simp only [if_neg hl, List.take_of_length_le (Nat.le_of_not_lt hl)]

theorem mem_take_below (h : a ∈ (below key cursor view).take n) :
    a ∈ view ∧ Ahead key cursor a := mem_below.1 (List.mem_of_mem_take h)

theorem walk_sound (hn : 0 < n) {views : List (List α)} (h : a ∈ (walk key n cursor views).1) :
    Ahead key cursor a ∧ ∃ view ∈ views, a ∈ view := by
  induction views generalizing cursor with
  | nil => cases h
  | cons view later ih =>
    rcases walk_cons key hn cursor view later with ⟨-, hw⟩ | ⟨b, -, hb, hw⟩
    · rw [hw] at h
      obtain ⟨hv, ha⟩ := mem_below.1 h
      exact ⟨ha, view, List.mem_cons_self, hv⟩
    · rw [hw] at h
      rcases List.mem_append.1 h with h | h
      · obtain ⟨hv, ha⟩ := mem_take_below h
        exact ⟨ha, view, List.mem_cons_self, hv⟩
      · obtain ⟨ha, v, hv, hav⟩ := ih h
        have hbc := (mem_take_below (List.mem_of_getLast? hb)).2
        refine ⟨fun c hc => lt_trans (ha (key b) rfl) (hbc c hc), v, List.mem_cons_of_mem _ hv, hav⟩

theorem walk_descending (hn : 0 < n) {views : List (List α)}
    (h : ∀ view ∈ views, Descending key view) :
    Descending key (walk key n cursor views).1 := by
  induction views generalizing cursor with
  | nil => exact List.Pairwise.nil
  | cons view later ih =>
    have hview : Descending key (below key cursor view) := (h view List.mem_cons_self).below
    rcases walk_cons key hn cursor view later with ⟨-, hw⟩ | ⟨b, -, hb, hw⟩
    · rw [hw]
      exact hview
    · rw [hw]
      have hpage := hview.sublist (List.take_sublist n _)
      apply List.pairwise_append.2
      refine ⟨hpage, ih fun v hv => h v (List.mem_cons_of_mem _ hv), ?_⟩
      intro x hx y hy
      have hy := (walk_sound hn hy).1 (key b) rfl
      exact lt_of_lt_of_le hy (Descending.last_least hpage hb hx)

theorem walk_complete (hn : 0 < n) {views : List (List α)}
    (hd : ∀ view ∈ views, Descending key view) (hdone : (walk key n cursor views).2 = true)
    (ha : Ahead key cursor a) (h : ∀ view ∈ views, a ∈ view) :
    a ∈ (walk key n cursor views).1 := by
  induction views generalizing cursor with
  | nil => cases hdone
  | cons view later ih =>
    have hmem : a ∈ below key cursor view := mem_below.2 ⟨h view List.mem_cons_self, ha⟩
    rcases walk_cons key hn cursor view later with ⟨-, hw⟩ | ⟨b, -, hb, hw⟩
    · rw [hw]
      exact hmem
    · rw [hw] at hdone ⊢
      apply List.mem_append.2
      rw [← List.take_append_drop n (below key cursor view)] at hmem
      rcases List.mem_append.1 hmem with hmem | hmem
      · exact Or.inl hmem
      · have hview : Descending key (below key cursor view) := (hd view List.mem_cons_self).below
        have hlt := hview.drop_below hb hmem
        right
        apply ih (fun v hv => hd v (List.mem_cons_of_mem _ hv)) hdone
        · intro c hc
          cases hc
          exact hlt
        · exact fun v hv => h v (List.mem_cons_of_mem _ hv)

theorem walk_same (hn : 0 < n) (hd : Descending key view)
    (hm : (below key cursor view).length < m) :
    walk key n cursor (List.replicate m view) = (below key cursor view, true) := by
  induction m generalizing cursor with
  | zero => cases hm
  | succ m ih =>
    rw [List.replicate_succ]
    rcases walk_cons key hn cursor view (List.replicate m view) with
      ⟨-, hw⟩ | ⟨b, hl, hb, hw⟩
    · exact hw
    · have hcur := (mem_take_below (List.mem_of_getLast? hb)).2
      have hrest : below key (some (key b)) view = (below key cursor view).drop n := by
        rw [← below_below hcur, below_last hd.below hb]
      have hlen : (below key (some (key b)) view).length < m := by
        rw [hrest, List.length_drop]
        omega
      rw [hw, ih hlen, hrest, List.take_append_drop]

theorem walk_ends (hn : 0 < n) (views : List (List α)) (hd : Descending key view)
    (hm : view.length < m) :
    (walk key n cursor (views ++ List.replicate m view)).2 = true := by
  induction views generalizing cursor with
  | nil =>
    have hlen : (below key cursor view).length < m :=
      Nat.lt_of_le_of_lt (List.length_filter_le _ _) hm
    rw [List.nil_append, walk_same hn hd hlen]
  | cons v later ih =>
    rw [List.cons_append]
    rcases walk_cons key hn cursor v (later ++ List.replicate m view) with
      ⟨-, hw⟩ | ⟨b, -, -, hw⟩
    · rw [hw]
    · rw [hw]
      exact ih

end Prismal.Lib.Paging
