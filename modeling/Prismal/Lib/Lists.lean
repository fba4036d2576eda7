import Mathlib.Data.List.Chain
import Mathlib.Data.List.Induction
import Mathlib.Data.List.Sort

namespace Prismal.Lib
set_option autoImplicit true

def pickMin (lt : α → α → Bool) : List α → Option α
  | [] => none
  | a :: as =>
    match pickMin lt as with
    | none => some a
    | some b => if lt b a then some b else some a

theorem pickMin_mem {lt : α → α → Bool} (h : pickMin lt l = some a) : a ∈ l := by
  induction l generalizing a with
  | nil => cases h
  | cons b l ih =>
    rw [pickMin] at h
    split at h
    · cases h
      exact List.mem_cons_self
    next c hc =>
      split at h
      · cases h
        exact List.mem_cons_of_mem _ (ih hc)
      · cases h
        exact List.mem_cons_self

theorem pickMin_eq_none {lt : α → α → Bool} : pickMin lt l = none ↔ l = [] := by
  cases l with
  | nil => exact ⟨fun _ => rfl, fun _ => rfl⟩
  | cons b l =>
    refine ⟨fun h => ?_, fun h => by cases h⟩
    rw [pickMin] at h
    split at h
    · cases h
    · split at h <;> cases h

theorem pickMin_isSome {lt : α → α → Bool} (h : l ≠ []) : (pickMin lt l).isSome :=
  Option.isSome_iff_ne_none.2 fun hn => h (pickMin_eq_none.1 hn)

theorem pickMin_le [LinearOrder β] {key : α → β}
    (h : pickMin (fun a b => decide (key a < key b)) l = some a) (hb : b ∈ l) : key a ≤ key b := by
  induction l generalizing a b with
  | nil => cases hb
  | cons c l ih =>
    rw [pickMin] at h
    split at h
    next hnone =>
      cases h
      rw [pickMin_eq_none.1 hnone] at hb
      exact (congrArg key (List.mem_singleton.1 hb)).ge
    next d hd =>
      split at h
      next hlt =>
        cases h
        rcases List.mem_cons.1 hb with rfl | hb
        · exact (of_decide_eq_true hlt).le
        · exact ih hd hb
      next hlt =>
        cases h
        rcases List.mem_cons.1 hb with rfl | hb
        · exact le_refl _
        · exact (not_lt.1 fun h => hlt (decide_eq_true h)).trans (ih hd hb)

theorem countP_lt_countP {l : List α} {p q : α → Bool} (h : ∀ a ∈ l, p a = true → q a = true)
    (hb : b ∈ l)
    (hq : q b = true) (hp : p b = false) : l.countP p < l.countP q := by
  induction l with
  | nil => cases hb
  | cons a l ih =>
    have hle := List.countP_mono_left fun c hc => h c (List.mem_cons_of_mem a hc)
    have ha := h a List.mem_cons_self
    rw [List.countP_cons, List.countP_cons]
    rcases List.mem_cons.1 hb with rfl | hb
    · rw [hq, hp]
      exact Nat.lt_succ_of_le hle
    · have hlt := ih (fun c hc => h c (List.mem_cons_of_mem a hc)) hb
      split <;> split <;> first | omega | simp_all

theorem filter_flatMap_not_mem [DecidableEq κ] {key : α → κ} {tag : β → κ} {g : α → List β}
    {xs : List α} (hg : ∀ x, ∀ b ∈ g x, tag b = key x) (hk : k ∉ xs.map key) :
    (xs.flatMap g).filter (fun b => decide (tag b = k)) = [] := by
  apply List.filter_eq_nil_iff.2
  intro b hb ht
  obtain ⟨x, hx, hb⟩ := List.mem_flatMap.1 hb
  have hkey : key x = k := (hg x b hb).symm.trans (of_decide_eq_true ht)
  exact hk (hkey ▸ List.mem_map_of_mem hx)

theorem filter_flatMap_mem [DecidableEq κ] {key : α → κ} {tag : β → κ} {g : α → List β}
    {xs : List α} (hg : ∀ x, ∀ b ∈ g x, tag b = key x) (hn : (xs.map key).Nodup) (hx : x ∈ xs) :
    (xs.flatMap g).filter (fun b => decide (tag b = key x)) = g x := by
  induction xs with
  | nil => cases hx
  | cons y xs ih =>
    rw [List.map_cons, List.nodup_cons] at hn
    rw [List.flatMap_cons, List.filter_append]
    rcases List.mem_cons.1 hx with rfl | hx
    · have hself : (g x).filter (fun b => decide (tag b = key x)) = g x := by
        apply List.filter_eq_self.2
        intro b hb
        exact decide_eq_true (hg x b hb)
      rw [hself, filter_flatMap_not_mem hg hn.1, List.append_nil]
    · have hother : (g y).filter (fun b => decide (tag b = key x)) = [] := by
        apply List.filter_eq_nil_iff.2
        intro b hb ht
        have hkey : key y = key x := (hg y b hb).symm.trans (of_decide_eq_true ht)
        exact hn.1 (hkey ▸ List.mem_map_of_mem hx)
      rw [hother, ih hn.2 hx, List.nil_append]

theorem rel_of_lt [Preorder κ] {key : α → κ} {R : α → α → Prop} {l : List α}
    (hn : (l.map key).Pairwise (· < ·)) (h : l.Pairwise R) (ha : a ∈ l) (hb : b ∈ l)
    (hlt : key a < key b) : R a b := by
  induction l with
  | nil => cases ha
  | cons c l ih =>
    rw [List.map_cons, List.pairwise_cons] at hn
    rw [List.pairwise_cons] at h
    rcases List.mem_cons.1 ha with rfl | ha'
    · rcases List.mem_cons.1 hb with rfl | hb'
      · exact absurd hlt (lt_irrefl _)
      · exact h.1 b hb'
    · rcases List.mem_cons.1 hb with rfl | hb'
      · exact absurd (hlt.trans (hn.1 _ (List.mem_map_of_mem ha'))) (lt_irrefl _)
      · exact ih hn.2 h.2 ha' hb'

theorem filter_eq_singleton [DecidableEq β] {f : α → β} {l : List α} (hn : l.Nodup) (ha : a ∈ l)
    (hu : ∀ b ∈ l, f b = f a → b = a) : l.filter (fun b => decide (f b = f a)) = [a] := by
  have hall : ∀ b ∈ l.filter (fun b => decide (f b = f a)), b = a := by
    intro b hb
    obtain ⟨hb, he⟩ := List.mem_filter.1 hb
    exact hu b hb (of_decide_eq_true he)
  have hmem : a ∈ l.filter (fun b => decide (f b = f a)) :=
    List.mem_filter.2 ⟨ha, decide_eq_true rfl⟩
  have hrep := List.eq_replicate_of_mem hall
  have hlen := List.nodup_replicate.1 (hrep ▸ hn.filter _)
  have hpos := List.length_pos_of_mem hmem
  rw [hrep, Nat.le_antisymm hlen hpos]
  rfl

theorem mapM_eq_some {f : α → Option β} {l : List α} {bs : List β} :
    l.mapM f = some bs ↔ List.Forall₂ (fun a b => f a = some b) l bs := by
  induction l generalizing bs with
  | nil =>
    rw [List.forall₂_nil_left_iff]
    exact ⟨fun h => by cases h; rfl, fun h => by cases h; rfl⟩
  | cons a l ih =>
    rw [List.mapM_cons, List.forall₂_cons_left_iff]
    apply Iff.intro
    · intro h
      obtain ⟨b, hb, h⟩ := Option.bind_eq_some_iff.1 h
      obtain ⟨cs, hcs, h⟩ := Option.bind_eq_some_iff.1 h
      cases h
      exact ⟨b, cs, hb, ih.1 hcs, rfl⟩
    · rintro ⟨b, cs, hb, hcs, rfl⟩
      rw [hb, ih.2 hcs]
      rfl

theorem mapM_option_map {f : α → Option β} {g : β → α} {l : List α} {bs : List β}
    (hf : ∀ a b, f a = some b → g b = a) (h : l.mapM f = some bs) : bs.map g = l := by
  induction mapM_eq_some.1 h with
  | nil => rfl
  | cons hb hcs ih => rw [List.map_cons, hf _ _ hb, ih (mapM_eq_some.2 hcs)]

theorem rel_of_take {l : List α} {R : α → α → Prop} (h : l.Pairwise R) (ha : a ∈ l.take n)
    (hb : b ∈ l) (hn : b ∉ l.take n) : R a b := by
  rw [← List.take_append_drop n l] at h hb
  rcases List.mem_append.1 hb with hb | hb
  · exact absurd hb hn
  · exact (List.pairwise_append.1 h).2.2 a ha b hb

theorem not_mem_take_of_last {l : List α} {R : α → α → Prop} (h : l.Pairwise R) (hd : l.Nodup)
    (hlast : ∀ b ∈ l, b ≠ a → ¬ R a b) (hn : n < l.length) : a ∉ l.take n := by
  intro ha
  have hb : l[n] ∈ l.drop n := by
    rw [List.drop_eq_getElem_cons hn]
    exact List.mem_cons_self
  have hcut : l[n] ∉ l.take n := by
    rw [← List.take_append_drop n l] at hd
    exact fun hm => (List.nodup_append.1 hd).2.2 _ hm _ hb rfl
  have hne : l[n] ≠ a := fun he => hcut (he ▸ ha)
  exact hlast _ (List.getElem_mem hn) hne (rel_of_take h ha (List.getElem_mem hn) hcut)

theorem append_cons_inj {xs ys : List α} (hx : a ∉ xs) (hy : a ∉ ys)
    (h : xs ++ a :: s = ys ++ a :: t) : xs = ys ∧ s = t := by
  induction xs generalizing ys with
  | nil =>
    cases ys with
    | nil => exact ⟨rfl, List.tail_eq_of_cons_eq h⟩
    | cons y ys => exact absurd (List.head_eq_of_cons_eq h) (List.ne_of_not_mem_cons hy)
  | cons x xs ih =>
    cases ys with
    | nil => exact absurd (List.head_eq_of_cons_eq h).symm (List.ne_of_not_mem_cons hx)
    | cons y ys =>
      obtain ⟨rfl, htail⟩ := List.cons_eq_cons.1 h
      obtain ⟨rfl, hst⟩ := ih (List.not_mem_of_not_mem_cons hx) (List.not_mem_of_not_mem_cons hy)
        htail
      exact ⟨rfl, hst⟩

theorem append_cons_inj_last {xs ys : List α} (hs : a ∉ s) (ht : a ∉ t)
    (h : xs ++ a :: s = ys ++ a :: t) : xs = ys ∧ s = t := by
  have hrev : s.reverse ++ a :: xs.reverse = t.reverse ++ a :: ys.reverse := by
    have hr := congrArg List.reverse h
    simpa only [List.reverse_append, List.reverse_cons, List.append_assoc, List.singleton_append]
      using hr
  obtain ⟨hst, hxy⟩ := append_cons_inj (fun hm => hs (List.mem_reverse.1 hm))
    (fun hm => ht (List.mem_reverse.1 hm)) hrev
  exact ⟨List.reverse_injective hxy, List.reverse_injective hst⟩

theorem length_le_of_classes [DecidableEq κ] {ks : List κ} {f : α → κ} {l : List α}
    (hf : ∀ a ∈ l, f a ∈ ks) (hn : ∀ k, (l.filter fun a => decide (f a = k)).length ≤ n) :
    l.length ≤ ks.length * n := by
  induction ks generalizing l with
  | nil =>
    have hnil : l = [] := List.eq_nil_iff_forall_not_mem.2 fun a ha => List.not_mem_nil (hf a ha)
    rw [hnil]
    exact Nat.zero_le _
  | cons k ks ih =>
    have hrest : (l.filter fun a => !decide (f a = k)).length ≤ ks.length * n := by
      apply ih
      · intro a ha
        obtain ⟨hmem, hne⟩ := List.mem_filter.1 ha
        rcases List.mem_cons.1 (hf a hmem) with heq | hks
        · rw [decide_eq_true heq] at hne
          cases hne
        · exact hks
      · intro j
        refine le_trans ?_ (hn j)
        rw [List.filter_filter]
        apply List.Sublist.length_le
        apply List.monotone_filter_right
        intro a ha
        exact (Bool.and_eq_true _ _ ▸ ha).1
    have hsplit := List.length_eq_length_filter_add (l := l) fun a => decide (f a = k)
    have hk := hn k
    rw [hsplit, List.length_cons, Nat.succ_mul]
    omega

theorem map_filterMap_sublist {f : α → Option β} {g : β → κ} {k : α → κ}
    (h : ∀ a b, f a = some b → g b = k a) (l : List α) :
    ((l.filterMap f).map g).Sublist (l.map k) := by
  induction l with
  | nil => exact List.Sublist.slnil
  | cons a l ih =>
    cases hb : f a with
    | none =>
      rw [List.filterMap_cons_none hb, List.map_cons]
      exact ih.cons _
    | some b =>
      rw [List.filterMap_cons_some hb, List.map_cons, List.map_cons, h a b hb]
      exact ih.cons_cons _

theorem length_eraseDups_le [BEq α] (l : List α) : l.eraseDups.length ≤ l.length := by
  induction hn : l.length using Nat.strong_induction_on generalizing l with
  | _ n ih =>
    cases l with
    | nil => simp
    | cons a l =>
      have hlt : (l.filter fun b => !b == a).length < n := by
        rw [← hn, List.length_cons]
        exact Nat.lt_succ_of_le (List.length_filter_le _ l)
      have hrest := ih _ hlt _ rfl
      rw [List.eraseDups_cons, List.length_cons]
      exact Nat.succ_le_of_lt (Nat.lt_of_le_of_lt hrest hlt)

theorem countP_mem_le [DecidableEq β] {f : α → β} {l : List α} (h : (l.map f).Nodup)
    (keys : List β) : l.countP (fun a => decide (f a ∈ keys)) ≤ keys.length := by
  have hnodup : ((l.filter fun a => decide (f a ∈ keys)).map f).Nodup :=
    h.sublist (List.filter_sublist.map f)
  have hsub : (l.filter fun a => decide (f a ∈ keys)).map f ⊆ keys := by
    intro b hb
    obtain ⟨a, ha, rfl⟩ := List.mem_map.1 hb
    exact of_decide_eq_true (List.mem_filter.1 ha).2
  have hle := (List.subperm_of_subset hnodup hsub).length_le
  rw [List.length_map, ← List.countP_eq_length_filter] at hle
  exact hle

/-- `P` holds of each element and what stands before it. -/
def AtEach (P : List α → α → Prop) (l : List α) : Prop :=
  ∀ pre a post, l = pre ++ a :: post → P pre a

theorem atEach_nil {P : List α → α → Prop} : AtEach P [] := by
  intro pre a post h
  exact absurd h.symm (List.append_ne_nil_of_right_ne_nil _ (List.cons_ne_nil _ _))

theorem atEach_concat {P : List α → α → Prop} (h : AtEach P l) (ha : P l a) :
    AtEach P (l ++ [a]) := by
  intro pre b post heq
  rcases List.eq_nil_or_concat post with rfl | ⟨post, c, rfl⟩
  · obtain ⟨rfl, hb⟩ := List.append_inj' heq rfl
    cases hb
    exact ha
  · rw [List.concat_eq_append, ← List.cons_append, ← List.append_assoc] at heq
    obtain ⟨hl, -⟩ := List.append_inj' heq rfl
    exact h pre b post hl

theorem atEach_of_forall {P : List α → α → Prop} (h : ∀ a ∈ l, ∀ pre, P pre a) : AtEach P l := by
  intro pre a post hl
  apply h a
  rw [hl]
  exact List.mem_append_right pre List.mem_cons_self

theorem AtEach.of_concat {P : List α → α → Prop} (h : AtEach P (l ++ [a])) :
    AtEach P l ∧ P l a := by
  refine ⟨?_, h l a [] rfl⟩
  intro pre b post heq
  apply h pre b (post ++ [a])
  rw [heq, List.append_assoc, List.cons_append]

theorem atEach_concat_iff {P : List α → α → Prop} :
    AtEach P (l ++ [a]) ↔ AtEach P l ∧ P l a :=
  ⟨AtEach.of_concat, fun h => atEach_concat h.1 h.2⟩

theorem atEach_map {P : List β → β → Prop} {f : α → β} :
    AtEach P (l.map f) ↔ AtEach (fun pre a => P (pre.map f) (f a)) l := by
  induction l using List.reverseRecOn with
  | nil => exact ⟨fun _ => atEach_nil, fun _ => atEach_nil⟩
  | append_singleton l a ih =>
    rw [List.map_append, List.map_singleton, atEach_concat_iff, atEach_concat_iff, ih]

theorem atEach_filter {P : List α → α → Prop} {f : α → Bool} :
    AtEach P (l.filter f) ↔ AtEach (fun pre a => f a = true → P (pre.filter f) a) l := by
  induction l using List.reverseRecOn with
  | nil => exact ⟨fun _ => atEach_nil, fun _ => atEach_nil⟩
  | append_singleton l a ih =>
    rw [List.filter_append, atEach_concat_iff, ← ih]
    cases ha : f a with
    | false => simp [ha]
    | true => simp [ha, atEach_concat_iff]

theorem atEach_cons {P : List α → α → Prop} :
    AtEach P (a :: l) ↔ P [] a ∧ AtEach (fun pre b => P (a :: pre) b) l := by
  induction l using List.reverseRecOn with
  | nil =>
    have hnil : AtEach P [a] ↔ AtEach P [] ∧ P [] a := atEach_concat_iff (l := [])
    rw [hnil, and_comm]
    exact and_congr_right fun _ => ⟨fun _ => atEach_nil, fun _ => atEach_nil⟩
  | append_singleton l b ih =>
    rw [← List.cons_append, atEach_concat_iff, atEach_concat_iff, ih, and_assoc]

theorem AtEach.append {P : List α → α → Prop} (h : AtEach P l) (hs : ∀ a ∈ xs, P l a)
    (hmono : xs.Pairwise fun b a => ∀ pre, P pre a → P (pre ++ [b]) a) : AtEach P (l ++ xs) := by
  induction xs generalizing l with
  | nil =>
    rw [List.append_nil]
    exact h
  | cons x xs ih =>
    obtain ⟨hx, hrest⟩ := List.pairwise_cons.1 hmono
    rw [List.append_cons]
    apply ih (atEach_concat h (hs x List.mem_cons_self)) _ hrest
    intro a ha
    exact hx a ha l (hs a (List.mem_cons_of_mem x ha))

theorem foldl_of_foldlM {step : σ → α → Option σ} {total : σ → α → σ}
    (hstep : ∀ s a s', step s a = some s' → total s a = s') {l : List α}
    (h : l.foldlM step s = some s') : l.foldl total s = s' := by
  induction l generalizing s with
  | nil => exact Option.some.inj h
  | cons a l ih =>
    rw [List.foldlM_cons] at h
    obtain ⟨s₁, hs₁, h⟩ := Option.bind_eq_some_iff.1 h
    rw [List.foldl_cons, hstep s a s₁ hs₁]
    exact ih h

theorem isChain_concat {R : α → α → Prop} :
    (l ++ [a]).IsChain R ↔ l.IsChain R ∧ ∀ b ∈ l.getLast?, R b a := by
  rw [List.isChain_append, and_iff_right (List.isChain_singleton a)]
  apply and_congr_right
  intro _
  apply Iff.intro
  · intro h b hb
    exact h b hb a rfl
  · intro h b hb c hc
    cases Option.some.inj hc
    exact h b hb

theorem isChain_iff_dropLast {R : α → α → Prop} {B : α → Prop} {l : List α}
    (h : l.IsChain fun a b => (R a b ↔ B a)) : l.IsChain R ↔ ∀ a ∈ l.dropLast, B a := by
  induction h with
  | nil => exact ⟨fun _ _ ha => absurd ha List.not_mem_nil, fun _ => .nil⟩
  | singleton a => exact ⟨fun _ _ ha => absurd ha List.not_mem_nil, fun _ => .singleton a⟩
  | cons_cons hab _ ih =>
    rw [List.isChain_cons_cons, List.dropLast_cons_cons, List.forall_mem_cons, ih, hab]

end Prismal.Lib
