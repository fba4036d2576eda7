import Mathlib.Algebra.BigOperators.Group.List.Basic
import Mathlib.Data.List.Basic

namespace Prismal.Lib
set_option autoImplicit true

/-! Trees with any number of children, whose nodes are named by their addresses, and quantities
that are tallied along the way from a node to the root. -/

inductive Rose (α : Type u) where
  | node (label : α) (children : List (Rose α))

namespace Rose

def label : Rose α → α
  | node a _ => a

def children : Rose α → List (Rose α)
  | node _ cs => cs

def leaf (a : α) : Rose α := node a []

theorem lt_of_mem [SizeOf α] {t c : Rose α} (h : c ∈ t.children) : sizeOf c < sizeOf t := by
  cases t with
  | node a cs =>
    have hc := List.sizeOf_lt_of_mem (show c ∈ cs from h)
    rw [node.sizeOf_spec]
    omega

def subtree (t : Rose α) : List Nat → Option (Rose α)
  | [] => some t
  | i :: p => t.children[i]?.bind fun c => c.subtree p

def labelAt (t : Rose α) (p : List Nat) : Option α := (t.subtree p).map label

def along (f : α → α) : List Nat → Rose α → Rose α
  | [], t => node (f t.label) t.children
  | i :: p, t => node (f t.label) (t.children.modify i (along f p))

def relabel (f : α → α) : List Nat → Rose α → Rose α
  | [], t => node (f t.label) t.children
  | i :: p, t => node t.label (t.children.modify i (relabel f p))

def graft (new : List α) : List Nat → Rose α → Rose α
  | [], t => node t.label (t.children ++ new.map leaf)
  | i :: p, t => node t.label (t.children.modify i (graft new p))

theorem subtree_append (t : Rose α) (p q : List Nat) :
    t.subtree (p ++ q) = (t.subtree p).bind fun s => s.subtree q := by
  induction p generalizing t with
  | nil => rfl
  | cons i p ih =>
    rw [List.cons_append, subtree, subtree]
    cases t.children[i]? with
    | none => rfl
    | some c => exact ih c

theorem subtree_child {t s : Rose α} (h : t.subtree p = some s) (i : Nat) :
    t.subtree (p ++ [i]) = s.children[i]? := by
  rw [subtree_append, h, Option.bind_some, subtree]
  cases s.children[i]? <;> rfl

theorem labelAt_of_subtree {t s : Rose α} (h : t.subtree p = some s) :
    t.labelAt p = some s.label := by
  rw [labelAt, h, Option.map_some]

@[simp] theorem labelAt_nil (t : Rose α) : t.labelAt [] = some t.label := rfl

theorem labelAt_cons (t : Rose α) (i : Nat) (p : List Nat) :
    t.labelAt (i :: p) = t.children[i]?.bind fun c => c.labelAt p := by
  rw [labelAt, subtree]
  cases t.children[i]? <;> rfl

theorem labelAt_child {t s : Rose α} (h : t.subtree p = some s) (i : Nat) :
    t.labelAt (p ++ [i]) = s.children[i]?.map label := by
  rw [labelAt, subtree_child h]

theorem labelAt_of_append {t : Rose α} (h : t.labelAt (p ++ q) = some a) :
    ∃ b, t.labelAt p = some b := by
  rw [labelAt, subtree_append] at h
  cases hs : t.subtree p with
  | none => rw [hs] at h; cases h
  | some s => exact ⟨s.label, labelAt_of_subtree hs⟩

theorem labelAt_modify (F : Rose α → Rose α) (a : α) (cs : List (Rose α)) (i j : Nat)
    (q : List Nat) : (node a (cs.modify i F)).labelAt (j :: q) =
      if i = j then cs[j]?.bind fun c => (F c).labelAt q else cs[j]?.bind fun c => c.labelAt q := by
  rw [labelAt_cons, children, List.getElem?_modify]
  split
  · cases cs[j]? <;> simp
  · cases cs[j]? <;> simp

theorem labelAt_along (f : α → α) (p q : List Nat) (t : Rose α) :
    (along f p t).labelAt q = (t.labelAt q).map fun a => if q <+: p then f a else a := by
  induction p generalizing q t with
  | nil =>
    cases q with
    | nil => simp [along, label]
    | cons j q =>
      rw [along, labelAt_cons, labelAt_cons, children]
      simp
  | cons i p ih =>
    cases q with
    | nil => simp [along, label]
    | cons j q =>
      rw [along, labelAt_modify, labelAt_cons, Option.map_bind]
      simp only [List.cons_prefix_cons]
      by_cases hij : i = j
      · simp [hij, ih, Function.comp_def]
      · have hji : ¬ j = i := fun h => hij h.symm
        simp [hij, hji, Function.comp_def]

theorem labelAt_relabel (f : α → α) (p q : List Nat) (t : Rose α) :
    (relabel f p t).labelAt q = (t.labelAt q).map fun a => if q = p then f a else a := by
  induction p generalizing q t with
  | nil =>
    cases q with
    | nil => simp [relabel, label]
    | cons j q =>
      rw [relabel, labelAt_cons, labelAt_cons, children]
      simp
  | cons i p ih =>
    cases q with
    | nil => simp [relabel, label]
    | cons j q =>
      rw [relabel, labelAt_modify, labelAt_cons, Option.map_bind]
      simp only [List.cons.injEq]
      by_cases hij : i = j
      · simp [hij, ih, Function.comp_def]
      · have hji : ¬ j = i := fun h => hij h.symm
        simp [hij, hji, Function.comp_def]

theorem labelAt_graft {t : Rose α} (hs : t.subtree p = some s) (new : List α) :
    (graft new p t).labelAt q = some a ↔ t.labelAt q = some a ∨
      ∃ j, q = p ++ [s.children.length + j] ∧ new[j]? = some a := by
  induction p generalizing q t with
  | nil =>
    cases hs
    cases q with
    | nil => simp [graft, label]
    | cons i q =>
      rw [graft, labelAt_cons, labelAt_cons, children]
      by_cases hi : i < s.children.length
      · rw [List.getElem?_append_left hi]
        apply Iff.intro Or.inl
        intro h
        obtain h | ⟨j, hj, _⟩ := h
        · exact h
        · injection hj with hj
          omega
      · have hi := Nat.le_of_not_lt hi
        rw [List.getElem?_append_right hi, List.getElem?_eq_none hi, List.getElem?_map]
        apply Iff.intro
        · intro h
          obtain ⟨c, hc, hq⟩ := Option.bind_eq_some_iff.1 h
          obtain ⟨b, hb, hbc⟩ := Option.map_eq_some_iff.1 hc
          subst hbc
          cases q with
          | nil =>
            refine Or.inr ⟨i - s.children.length, ?_, hb.trans hq⟩
            rw [Nat.add_sub_cancel' hi]
            rfl
          | cons k q => simp [labelAt_cons, leaf, children] at hq
        · intro h
          obtain h | ⟨j, hj, ha⟩ := h
          · cases h
          · injection hj with hij hq
            rw [hij, hq, Nat.add_sub_cancel_left, ha]
            rfl
  | cons i p ih =>
    rw [subtree] at hs
    obtain ⟨c, hc, hs⟩ := Option.bind_eq_some_iff.1 hs
    cases q with
    | nil => simp [graft, label]
    | cons k q =>
      rw [graft, labelAt_modify, labelAt_cons]
      by_cases hik : i = k
      · subst hik
        simpa [hc] using ih hs
      · have hki : ¬ k = i := fun h => hik h.symm
        simp [hik, hki]

section Tallies
variable [AddCommMonoid M]

def loggedAt (log : List (List Nat × M)) (p : List Nat) : M :=
  ((log.filter fun e => decide (e.1 = p)).map Prod.snd).sum

def loggedBelow (log : List (List Nat × M)) (p : List Nat) : M :=
  ((log.filter fun e => decide (p <+: e.1)).map Prod.snd).sum

theorem loggedBelow_append (log : List (List Nat × M)) (e : List Nat × M) (p : List Nat) :
    loggedBelow (log ++ [e]) p = loggedBelow log p + if p <+: e.1 then e.2 else 0 := by
  rw [loggedBelow, List.filter_append, List.map_append, List.sum_append, ← loggedBelow]
  by_cases h : p <+: e.1 <;> simp [h]

theorem loggedBelow_root (log : List (List Nat × M)) :
    loggedBelow log [] = (log.map Prod.snd).sum := by
  simp [loggedBelow]

theorem split_entry (p q : List Nat) (m : M) (h : p <+: q → q = p ∨ ∃ i < n, p ++ [i] <+: q) :
    (if p <+: q then m else 0) =
      (if q = p then m else 0) +
        ((List.range n).map fun i => if p ++ [i] <+: q then m else 0).sum := by
  by_cases hpq : p <+: q
  · cases h hpq with
    | inl heq =>
      subst heq
      have hout : ∀ i, ¬ q ++ [i] <+: q := by
        intro i hi
        have hlen := hi.length_le
        rw [List.length_append, List.length_singleton] at hlen
        omega
      simp [hout]
    | inr hchild =>
      obtain ⟨i, hi, r, rfl⟩ := hchild
      have hne : ¬ p ++ [i] ++ r = p := by simp
      rw [if_pos hpq, if_neg hne, zero_add,
        List.sum_map_eq_nsmul_single i _ (fun j hj _ => if_neg (by simpa using hj)),
        List.nodup_range.count, if_pos (List.mem_range.2 hi), one_nsmul,
        if_pos (List.prefix_append _ _)]
  · have hne : ¬ q = p := fun heq => hpq (heq ▸ List.prefix_rfl)
    have hout : ∀ i, ¬ p ++ [i] <+: q := fun i hi => hpq ((List.prefix_append p [i]).trans hi)
    simp [hpq, hne, hout]

theorem loggedBelow_split {log : List (List Nat × M)}
    (h : ∀ e ∈ log, p <+: e.1 → e.1 = p ∨ ∃ i < n, p ++ [i] <+: e.1) :
    loggedBelow log p =
      loggedAt log p + ((List.range n).map fun i => loggedBelow log (p ++ [i])).sum := by
  induction log with
  | nil => simp [loggedBelow, loggedAt]
  | cons e log ih =>
    have hcons : ∀ q, loggedBelow (e :: log) q =
        (if q <+: e.1 then e.2 else 0) + loggedBelow log q := by
      intro q
      by_cases hq : q <+: e.1 <;> simp [loggedBelow, hq]
    have hat : loggedAt (e :: log) p = (if e.1 = p then e.2 else 0) + loggedAt log p := by
      by_cases hq : e.1 = p <;> simp [loggedAt, hq]
    have hlog := ih fun d hd => h d (List.mem_cons_of_mem _ hd)
    have he := split_entry p e.1 e.2 (h e List.mem_cons_self)
    simp only [hcons, hat, List.sum_map_add]
    rw [hlog, he, add_add_add_comm]

/-- Every node weighs what is logged at it and below it. -/
structure Tallied (w : α → M) (t : Rose α) (log : List (List Nat × M)) : Prop where
  inside : ∀ e ∈ log, ∃ a, t.labelAt e.1 = some a
  weight : ∀ p a, t.labelAt p = some a → w a = loggedBelow log p

namespace Tallied
variable {w : α → M} {t : Rose α} {log : List (List Nat × M)}

theorem leaf (h : w a = 0) : Tallied w (leaf a) [] where
  inside e he := by cases he
  weight p b hb := by
    cases p with
    | nil =>
      cases hb
      exact h
    | cons i p => simp [labelAt_cons, Rose.leaf, children] at hb

theorem along {f : α → α} (h : Tallied w t log) (hp : t.labelAt p = some a)
    (hf : ∀ a, w (f a) = w a + m) : Tallied w (t.along f p) (log ++ [(p, m)]) where
  inside e he := by
    have hin : ∃ b, t.labelAt e.1 = some b := by
      rcases List.mem_append.1 he with he | he
      · exact h.inside e he
      · rw [List.mem_singleton.1 he]
        exact ⟨a, hp⟩
    obtain ⟨b, hb⟩ := hin
    exact ⟨_, by rw [labelAt_along, hb]; rfl⟩
  weight q b hb := by
    rw [labelAt_along] at hb
    obtain ⟨c, hc, rfl⟩ := Option.map_eq_some_iff.1 hb
    rw [loggedBelow_append, ← h.weight q c hc]
    by_cases hq : q <+: p
    · rw [if_pos hq, if_pos hq, hf]
    · rw [if_neg hq, if_neg hq, add_zero]

theorem relabel {f : α → α} (h : Tallied w t log) (hf : ∀ a, w (f a) = w a) :
    Tallied w (t.relabel f p) log where
  inside e he := by
    obtain ⟨b, hb⟩ := h.inside e he
    exact ⟨_, by rw [labelAt_relabel, hb]; rfl⟩
  weight q b hb := by
    rw [labelAt_relabel] at hb
    obtain ⟨c, hc, rfl⟩ := Option.map_eq_some_iff.1 hb
    rw [← h.weight q c hc]
    split
    · exact hf c
    · rfl

theorem graft (h : Tallied w t log) (hs : t.subtree p = some s) (hnew : ∀ a ∈ new, w a = 0) :
    Tallied w (t.graft new p) log where
  inside e he := by
    obtain ⟨b, hb⟩ := h.inside e he
    exact ⟨b, (labelAt_graft hs new).2 (Or.inl hb)⟩
  weight q b hb := by
    cases (labelAt_graft hs new).1 hb with
    | inl hb => exact h.weight q b hb
    | inr hb =>
      obtain ⟨j, rfl, hj⟩ := hb
      rw [hnew b (List.mem_of_getElem? hj), loggedBelow]
      have hnone : log.filter (fun e => decide (p ++ [s.children.length + j] <+: e.1)) = [] := by
        rw [List.filter_eq_nil_iff]
        intro e he hpre
        obtain ⟨r, hr⟩ := of_decide_eq_true hpre
        obtain ⟨c, hc⟩ := h.inside e he
        rw [← hr] at hc
        obtain ⟨d, hd⟩ := labelAt_of_append hc
        rw [labelAt_child hs, List.getElem?_eq_none (Nat.le_add_right _ _)] at hd
        cases hd
      rw [hnone]
      rfl

theorem weight_children (h : Tallied w t log) (hs : t.subtree p = some s) :
    w s.label = loggedAt log p + (s.children.map fun c => w c.label).sum := by
  have hbelow : ∀ e ∈ log, p <+: e.1 →
      e.1 = p ∨ ∃ i < s.children.length, p ++ [i] <+: e.1 := by
    intro e he hpre
    obtain ⟨q, hq⟩ := hpre
    cases q with
    | nil => exact Or.inl (by rw [← hq, List.append_nil])
    | cons i q =>
      obtain ⟨a, ha⟩ := h.inside e he
      rw [← hq, List.append_cons] at ha
      obtain ⟨b, hb⟩ := labelAt_of_append ha
      rw [labelAt_child hs] at hb
      obtain ⟨c, hc, _⟩ := Option.map_eq_some_iff.1 hb
      obtain ⟨hi, _⟩ := List.getElem?_eq_some_iff.1 hc
      exact Or.inr ⟨i, hi, q, by rw [← hq, List.append_assoc, List.singleton_append]⟩
  rw [h.weight p _ (labelAt_of_subtree hs), loggedBelow_split hbelow]
  congr 2
  apply List.ext_getElem (by simp)
  intro i hi _
  have hi : i < s.children.length := by simpa using hi
  simp only [List.getElem_map, List.getElem_range]
  refine (h.weight _ _ ?_).symm
  rw [labelAt_child hs, List.getElem?_eq_getElem hi, Option.map_some]

end Tallied
end Tallies
end Rose
end Prismal.Lib
