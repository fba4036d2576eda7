import Prismal.Lib.Replace

namespace Prismal.Lib
set_option autoImplicit true

/-! A text in pieces: what stands between the matches of a pattern, and which matches of another
are left when these give way to a text in brackets. -/

namespace Pattern
variable (A : Alphabet α) (p : Pattern)

/-- `split`, past the symbols of the match before. -/
def splitFrom : Nat → Option α → List α → List (List α)
  | _, _, [] => [[]]
  | n + 1, _, a :: t => splitFrom n (some a) t
  | 0, prev, a :: t =>
    match p.span A ⟨prev, a :: t⟩ with
    | some n => [] :: splitFrom (n - 1) (some a) t
    | none => (splitFrom 0 (some a) t).modifyHead (a :: ·)

/-- `split`: the pieces of a text between the matches that `sub` replaces. -/
def split (t : List α) : List (List α) := p.splitFrom A 0 none t

def Clean (prev : Option α) (t : List α) : Prop :=
  ∀ s w e, t = s ++ w ++ e → ¬ p.expr.Matches A (s.getLast?.or prev) w e.head?

variable {A p}

theorem foundFrom_eq_false {prev : Option α} {t : List α} :
    p.foundFrom A prev t = false ↔ p.Clean A prev t := by
  induction t generalizing prev with
  | nil =>
    apply iff_of_true rfl
    intro s w e ht hm
    obtain ⟨a, u, rfl⟩ := matches_cons hm
    simp at ht
  | cons a t ih =>
    rw [foundFrom, Bool.or_eq_false_iff, Bool.not_eq_false', List.isEmpty_iff, ih]
    apply Iff.intro
    · rintro ⟨hends, hclean⟩ s w e ht hm
      cases s with
      | nil =>
        rw [List.nil_append] at ht
        rw [ht] at hends
        exact not_matches_of_ends hends hm
      | cons b s =>
        cases ht
        rw [Regex.getLast?_cons_or] at hm
        exact hclean s w e rfl hm
    · intro h
      apply And.intro
      · apply List.eq_nil_iff_forall_not_mem.2
        intro d hd
        obtain ⟨w, hw, _, hm⟩ := Regex.mem_ends.1 hd
        exact h [] w d.rest hw hm
      · intro s w e ht hm
        apply h (a :: s) w e (by rw [ht]; rfl)
        rw [Regex.getLast?_cons_or]
        exact hm

theorem found_eq_false {t : List α} : p.found A t = false ↔ p.Clean A none t := foundFrom_eq_false

theorem Clean.append_right {prev : Option α} {s t : List α} (h : p.Clean A prev (s ++ t)) :
    p.Clean A (s.getLast?.or prev) t := by
  intro x w e ht hm
  apply h (s ++ x) w e (by rw [ht]; simp)
  rw [Regex.getLast?_append_or]
  exact hm

/-- A pattern that begins and ends with a symbol of a word, where a word begins and ends. -/
structure Guarded (A : Alphabet α) (p : Pattern) : Prop where
  lineless : p.expr.lineless = true
  starts : ∀ prev w next, p.expr.Matches A prev w next → A.isWordAt prev ≠ A.isWordAt w.head?
  ends : ∀ prev w next, p.expr.Matches A prev w next →
    A.isWordAt w.getLast? = true ∧ A.isWordAt next = false

/-! ### What a match ends with -/

def EndsIn (A : Alphabet α) (P : Char → Bool) (r : Regex) : Prop :=
  ∀ prev w next, r.Matches A prev w next → ∃ a, w.getLast? = some a ∧ P (A.char a) = true

theorem EndsIn.many {P : Char → Bool} {k : CharClass} (hk : ∀ c, k.has c = true → P c = true)
    {least : Nat} (h : 0 < least) (most : Option Nat) : EndsIn A P (.many k least most) := by
  rintro prev w next ⟨hlen, _, hall⟩
  have hne : w ≠ [] := List.ne_nil_of_length_pos (by omega)
  exact ⟨w.getLast hne, List.getLast?_eq_some_getLast hne, hk _ (hall _ (List.getLast_mem hne))⟩

theorem EndsIn.seq {P : Char → Bool} {s : Regex} (h : EndsIn A P s) (r : Regex) :
    EndsIn A P (.seq r s) := by
  rintro prev w next ⟨u, v, rfl, _, hv⟩
  obtain ⟨a, ha, hP⟩ := h _ _ _ hv
  exact ⟨a, by rw [List.getLast?_append, ha]; rfl, hP⟩

theorem EndsIn.alt {P : Char → Bool} {r s : Regex} (hr : EndsIn A P r) (hs : EndsIn A P s) :
    EndsIn A P (.alt r s) := by
  intro prev w next h
  exact h.elim (hr prev w next) (hs prev w next)

theorem EndsIn.seqs {P : Char → Bool} {r : Regex} (h : EndsIn A P r) (rs : List Regex) :
    EndsIn A P (Regex.seqs (rs ++ [r])) := by
  induction rs with
  | nil =>
    rintro prev w next ⟨u, v, rfl, hu, hv⟩
    cases Regex.matches_eps.1 hv
    rw [List.append_nil]
    exact h _ _ _ hu
  | cons s rs ih => exact ih.seq s

theorem EndsIn.seqs_opt {P : Char → Bool} {r s : Regex} (hr : EndsIn A P r) (hs : EndsIn A P s) :
    EndsIn A P (Regex.seqs [r, .alt s .eps]) := by
  rintro prev w next ⟨u, v, rfl, hu, v₁, v₂, rfl, hopt, heps⟩
  cases Regex.matches_eps.1 heps
  rw [List.append_nil]
  rcases hopt with hv | hv
  · obtain ⟨a, ha, hP⟩ := hs _ _ _ hv
    exact ⟨a, by rw [List.getLast?_append, ha]; rfl, hP⟩
  · cases Regex.matches_eps.1 hv
    rw [List.append_nil]
    exact hr _ _ _ hu

theorem EndsIn.clean {P : Char → Bool} (h : EndsIn A P p.expr) {t : List α}
    (ht : ∀ a ∈ t, P (A.char a) = false) (prev : Option α) : p.Clean A prev t := by
  intro s w e heq hm
  obtain ⟨a, ha, hP⟩ := h _ _ _ hm
  rw [ht a (by rw [heq]; simp [List.mem_of_getLast? ha])] at hP
  cases hP

theorem EndsIn.bounded {P : Char → Bool} {r : Regex} (h : EndsIn A P r) :
    EndsIn A P r.bounded :=
  fun _ _ _ hm => h _ _ _ (Regex.matches_bounded hm).2.1

theorem guarded_bounded {r : Regex} (hp : p.expr = r.bounded) (hl : r.lineless = true)
    {P : Char → Bool} (hP : ∀ c, P c = true → A.isWord c = true) (h : EndsIn A P r) :
    Guarded A p := by
  apply Guarded.mk
  · rw [hp]
    exact Bool.and_eq_true_iff.2 ⟨rfl, Bool.and_eq_true_iff.2 ⟨hl, rfl⟩⟩
  · intro prev w next hm
    obtain ⟨a, u, rfl⟩ := matches_cons hm
    rw [hp] at hm
    exact (Regex.matches_bounded hm).1
  · intro prev w next hm
    rw [hp] at hm
    obtain ⟨_, hr, hend⟩ := Regex.matches_bounded hm
    obtain ⟨a, ha, hPa⟩ := h _ _ _ hr
    have hword : A.isWordAt w.getLast? = true := by
      rw [ha]
      exact hP _ hPa
    rw [ha] at hend hword
    rw [ha]
    exact ⟨hword, Bool.eq_false_iff.2 fun hnext => hend (hword.trans hnext.symm)⟩

/-! ### A symbol that stops a pattern -/

theorem Clean.nil (prev : Option α) : p.Clean A prev [] := foundFrom_eq_false.1 rfl

theorem Clean.congr {prev prev' : Option α} {t : List α} (h : p.Clean A prev t)
    (hl : p.expr.lineless = true) (hprev : A.isWordAt prev = A.isWordAt prev') :
    p.Clean A prev' t := by
  intro s w e ht hm
  apply h s w e ht
  apply Regex.matches_congr hl hm _ rfl
  cases s.getLast? with
  | none => exact hprev.symm
  | some a => rfl

theorem matches_stop (hl : p.expr.lineless = true) {c : α} (hc : p.expr.Avoids (A.char c))
    (hw : A.isWord (A.char c) = false) {prev : Option α} {x y s w e : List α}
    (ht : x ++ c :: y = s ++ w ++ e) (hm : p.expr.Matches A (s.getLast?.or prev) w e.head?) :
    (∃ e', x = s ++ w ++ e' ∧ e = e' ++ c :: y ∧
      p.expr.Matches A (s.getLast?.or prev) w e'.head?) ∨
    ∃ s', s = x ++ c :: s' ∧ y = s' ++ w ++ e ∧ p.expr.Matches A s'.getLast? w e.head? := by
  have hnone : A.isWordAt (some c) = A.isWordAt none := hw
  have havoid := Regex.ne_of_avoids hc hm
  rw [List.append_assoc] at ht
  rcases List.append_eq_append_iff.1 ht with ⟨u, hs, hv⟩ | ⟨u, hs, hv⟩
  · -- the match begins with the symbol or behind it
    cases u with
    | nil =>
      obtain ⟨a, w', rfl⟩ := matches_cons hm
      cases hv
      exact absurd rfl (havoid c List.mem_cons_self)
    | cons b u =>
      cases hv
      rw [hs, Regex.getLast?_append_or, Regex.getLast?_cons_or] at hm
      refine .inr ⟨u, hs, (List.append_assoc u w e).symm, Regex.matches_congr hl hm ?_ rfl⟩
      cases u.getLast? with
      | none => exact hnone
      | some a => rfl
  · -- the match begins before it, and so it ends there
    rcases List.append_eq_append_iff.1 hv with ⟨z, hu, hz⟩ | ⟨z, hu, hz⟩
    · refine .inl ⟨z, by rw [hs, hu, List.append_assoc], hz, ?_⟩
      rw [hz] at hm
      cases z with
      | nil => exact Regex.matches_congr hl hm rfl hnone
      | cons b z => exact hm
    · cases z with
      | nil =>
        rw [List.append_nil] at hu
        rw [List.nil_append] at hz
        rw [← hz] at hm
        exact .inl ⟨[], by rw [hs, hu, List.append_nil], hz.symm,
          Regex.matches_congr hl hm rfl hnone⟩
      | cons b z =>
        cases hz
        exact absurd rfl (havoid c (by rw [hu]; simp))

theorem clean_stop (hl : p.expr.lineless = true) {c : α} (hc : p.expr.Avoids (A.char c))
    (hw : A.isWord (A.char c) = false) {prev : Option α} {x y : List α} :
    p.Clean A prev (x ++ c :: y) ↔ p.Clean A prev x ∧ p.Clean A none y := by
  have hnone : A.isWordAt (some c) = A.isWordAt none := hw
  apply Iff.intro
  · intro h
    apply And.intro
    · intro s w e hx hm
      apply h s w (e ++ c :: y) (by rw [hx]; simp)
      apply Regex.matches_congr hl hm rfl
      cases e with
      | nil => exact hnone.symm
      | cons a e => rfl
    · have hy : p.Clean A ((x ++ [c]).getLast?.or prev) y := by
        apply Clean.append_right
        rw [List.append_assoc]
        exact h
      rw [List.getLast?_concat] at hy
      exact hy.congr hl hnone
  · rintro ⟨hx, hy⟩ s w e ht hm
    rcases matches_stop hl hc hw ht hm with ⟨e', hx', _, hm'⟩ | ⟨s', _, hy', hm'⟩
    · exact hx s w e' hx' hm'
    · apply hy s' w e hy'
      rw [Option.or_none]
      exact hm'

theorem span_alike (hl : p.expr.lineless = true) {tail : List α} (hs : Regex.Stops A p.expr tail)
    {c d : Cursor α} (h : Regex.Alike A tail c d) : p.span A c = p.span A d := by
  have hends := Regex.ends_alike hl hs h
  unfold span
  generalize p.expr.ends A c = xs at hends ⊢
  generalize p.expr.ends A d = ys at hends ⊢
  cases hends with
  | nil => rfl
  | cons hfirst _ =>
    simp only [List.head?_cons, Option.map_some, h.rest, hfirst.rest, List.length_append]
    congr 1
    omega

theorem span_le {c : Cursor α} (h : p.span A c = some n) : n ≤ c.rest.length := by
  obtain ⟨d, _, rfl⟩ := Option.map_eq_some_iff.1 h
  omega

theorem span_nil (prev : Option α) : p.span A ⟨prev, []⟩ = none := by
  apply span_eq_none.2
  apply List.eq_nil_iff_forall_not_mem.2
  intro d hd
  obtain ⟨w, hw, _, hm⟩ := Regex.mem_ends.1 hd
  obtain ⟨a, u, rfl⟩ := matches_cons hm
  cases hw

theorem subFrom_congr (hl : p.expr.lineless = true) {prev prev' : Option α}
    (hprev : A.isWordAt prev = A.isWordAt prev') (r : List α) (n : Nat) (t : List α) :
    p.subFrom A r n prev t = p.subFrom A r n prev' t := by
  cases t with
  | nil => cases n <;> rfl
  | cons a t =>
    cases n with
    | succ n => rfl
    | zero =>
      have halike : Regex.Alike A [] ⟨prev, a :: t⟩ ⟨prev', a :: t⟩ :=
        ⟨(List.append_nil _).symm, hprev⟩
      have hspan := span_alike hl (fun _ h => by cases h) halike
      rw [subFrom, subFrom, hspan]

theorem subFrom_stop (hl : p.expr.lineless = true) {c : α} (hc : p.expr.Avoids (A.char c))
    (hw : A.isWord (A.char c) = false) (r y : List α) {n : Nat} {x : List α} (hn : n ≤ x.length)
    (prev : Option α) :
    p.subFrom A r n prev (x ++ c :: y) = p.subFrom A r n prev x ++ c :: p.sub A r y := by
  have hs : Regex.Stops A p.expr (c :: y) := by
    intro a ha
    cases ha
    exact ⟨hc, hw⟩
  induction x generalizing n prev with
  | nil =>
    have halike : Regex.Alike A (c :: y) ⟨prev, []⟩ ⟨prev, c :: y⟩ := ⟨rfl, rfl⟩
    have hspan : p.span A ⟨prev, c :: y⟩ = none :=
      (span_alike hl hs halike).symm.trans (span_nil prev)
    have hstep : p.subFrom A r 0 prev (c :: y) = c :: p.subFrom A r 0 (some c) y := by
      rw [subFrom, hspan]
    cases Nat.le_zero.1 hn
    have hnone : A.isWordAt (some c) = A.isWordAt none := hw
    exact hstep.trans (congrArg (c :: ·) (subFrom_congr hl hnone r 0 y))
  | cons a x ih =>
    cases n with
    | succ n =>
      exact ih (Nat.le_of_succ_le_succ hn) (some a)
    | zero =>
      have halike : Regex.Alike A (c :: y) ⟨prev, a :: x⟩ ⟨prev, a :: (x ++ c :: y)⟩ :=
        ⟨rfl, rfl⟩
      have hspan := (span_alike hl hs halike).symm
      rw [List.cons_append, subFrom, subFrom, hspan]
      cases hx : p.span A ⟨prev, a :: x⟩ with
      | none => exact congrArg (a :: ·) (ih (Nat.zero_le _) (some a))
      | some m =>
        have hm := span_le hx
        rw [List.length_cons] at hm
        simp only
        rw [ih (by omega) (some a), List.append_assoc]

theorem sub_stop (hl : p.expr.lineless = true) {c : α} (hc : p.expr.Avoids (A.char c))
    (hw : A.isWord (A.char c) = false) (r x y : List α) :
    p.sub A r (x ++ c :: y) = p.sub A r x ++ c :: p.sub A r y :=
  subFrom_stop hl hc hw r y (Nat.zero_le _) none

/-! ### A text in brackets in place of the matches -/

/-- A text between two symbols that stop a pattern, which has no match inside. -/
structure Bracketed (A : Alphabet α) (p : Pattern) (r : List α) : Prop where
  lineless : p.expr.lineless = true
  brackets : ∃ b mid e, r = b :: (mid ++ [e]) ∧ p.Clean A none mid ∧
    (p.expr.Avoids (A.char b) ∧ A.isWord (A.char b) = false) ∧
    p.expr.Avoids (A.char e) ∧ A.isWord (A.char e) = false

theorem Bracketed.matches_append {r : List α} (h : Bracketed A p r) {prev : Option α}
    {x y s w e : List α} (ht : x ++ r ++ y = s ++ w ++ e)
    (hm : p.expr.Matches A (s.getLast?.or prev) w e.head?) :
    (∃ e', x = s ++ w ++ e' ∧ e = e' ++ r ++ y ∧
      p.expr.Matches A (s.getLast?.or prev) w e'.head?) ∨
    ∃ s', s = x ++ r ++ s' ∧ y = s' ++ w ++ e ∧ p.expr.Matches A s'.getLast? w e.head? := by
  obtain ⟨b, mid, c, rfl, hmid, ⟨hb, hbw⟩, hc, hcw⟩ := h.brackets
  have hassoc : x ++ b :: (mid ++ [c]) ++ y = x ++ b :: (mid ++ c :: y) := by simp
  rw [hassoc] at ht
  rcases matches_stop h.lineless hb hbw ht hm with ⟨e', hx, he, hm'⟩ | ⟨s', hs, hy, hm'⟩
  · exact .inl ⟨e', hx, by rw [he]; simp, hm'⟩
  · rw [← Option.or_none (o := s'.getLast?)] at hm'
    rcases matches_stop h.lineless hc hcw hy hm' with ⟨e', hin, _, hm''⟩ | ⟨z, hz, hy', hm''⟩
    · exact absurd hm'' (hmid s' w e' hin)
    · exact .inr ⟨z, by rw [hs, hz]; simp, hy', hm''⟩

theorem Bracketed.clean_append {r : List α} (h : Bracketed A p r) {prev : Option α}
    {x y : List α} :
    p.Clean A prev (x ++ r ++ y) ↔ p.Clean A prev x ∧ p.Clean A none y := by
  obtain ⟨b, mid, e, rfl, hmid, ⟨hb, hbw⟩, he, hew⟩ := h.brackets
  have hassoc : x ++ b :: (mid ++ [e]) ++ y = x ++ b :: (mid ++ e :: y) := by simp
  rw [hassoc, clean_stop h.lineless hb hbw, clean_stop h.lineless he hew]
  exact and_congr_right fun _ => and_iff_right hmid

theorem Bracketed.clean_intercalate {r : List α} (h : Bracketed A p r) {gs : List (List α)} :
    p.Clean A none (r.intercalate gs) ↔ ∀ g ∈ gs, p.Clean A none g := by
  induction gs with
  | nil =>
    apply iff_of_true (Clean.nil none)
    simp
  | cons g gs ih =>
    cases gs with
    | nil => simp
    | cons g' gs =>
      rw [List.intercalate_cons_cons, h.clean_append, ih, List.forall_mem_cons (a := g)]

theorem Bracketed.sub_append {r : List α} (h : Bracketed A p r) (R x y : List α) :
    p.sub A R (x ++ r ++ y) = p.sub A R x ++ r ++ p.sub A R y := by
  obtain ⟨b, mid, e, rfl, hmid, ⟨hb, hbw⟩, he, hew⟩ := h.brackets
  have hassoc : x ++ b :: (mid ++ [e]) ++ y = x ++ b :: (mid ++ e :: y) := by simp
  rw [hassoc, sub_stop h.lineless hb hbw, sub_stop h.lineless he hew,
    sub_of_not_found (found_eq_false.2 hmid)]
  simp

theorem Bracketed.sub_intercalate {r : List α} (h : Bracketed A p r) (R : List α)
    (gs : List (List α)) :
    p.sub A R (r.intercalate gs) = r.intercalate (gs.map (p.sub A R)) := by
  induction gs with
  | nil => rfl
  | cons g gs ih =>
    cases gs with
    | nil => simp
    | cons g' gs =>
      rw [List.intercalate_cons_cons, h.sub_append, ih]
      exact List.intercalate_cons_cons.symm

/-! ### The pieces between the matches -/

def NoStart (A : Alphabet α) (p : Pattern) (prev : Option α) (g tail : List α) : Prop :=
  ∀ x y, g = x ++ y → y ≠ [] → p.expr.ends A ⟨x.getLast?.or prev, y ++ tail⟩ = []

/-- A text is its pieces and the matches between them. -/
inductive Cut (A : Alphabet α) (p : Pattern) : Option α → List α → List (List α) → Prop where
  | last (hnone : NoStart A p prev g []) : Cut A p prev g [g]
  | next (hnone : NoStart A p prev g (m ++ rest))
      (hm : p.expr.Matches A (g.getLast?.or prev) m rest.head?)
      (h : Cut A p m.getLast? rest gs) : Cut A p prev (g ++ (m ++ rest)) (g :: gs)

theorem NoStart.cons {prev : Option α} {g tail : List α}
    (h : NoStart A p (some a) g tail) (hends : p.expr.ends A ⟨prev, a :: (g ++ tail)⟩ = []) :
    NoStart A p prev (a :: g) tail := by
  intro x y hxy hy
  cases x with
  | nil =>
    rw [List.nil_append] at hxy
    rw [← hxy]
    exact hends
  | cons b x =>
    cases hxy
    rw [Regex.getLast?_cons_or]
    exact h x y rfl hy

theorem NoStart.nil (prev : Option α) (tail : List α) : NoStart A p prev [] tail := by
  intro x y hxy hy
  exact absurd (List.append_eq_nil_iff.1 hxy.symm).2 hy

theorem Cut.cons {prev : Option α} {t g : List α} {gs : List (List α)}
    (h : Cut A p (some a) t (g :: gs)) (hends : p.expr.ends A ⟨prev, a :: t⟩ = []) :
    Cut A p prev (a :: t) ((a :: g) :: gs) := by
  cases h with
  | last hnone =>
    apply Cut.last
    apply hnone.cons
    rw [List.append_nil]
    exact hends
  | @next _ _ m rest _ hnone hm h =>
    apply Cut.next (g := a :: g) (hnone.cons hends) _ h
    rw [Regex.getLast?_cons_or]
    exact hm

theorem splitFrom_ne_nil (n : Nat) (prev : Option α) (t : List α) :
    p.splitFrom A n prev t ≠ [] := by
  induction t generalizing n prev with
  | nil => cases n <;> exact List.cons_ne_nil _ _
  | cons a t ih =>
    cases n with
    | succ n => exact ih n (some a)
    | zero =>
      rw [splitFrom]
      cases p.span A ⟨prev, a :: t⟩ with
      | some n => exact List.cons_ne_nil _ _
      | none =>
        obtain ⟨g, gs, hg⟩ := List.exists_cons_of_ne_nil (ih 0 (some a))
        simp [hg]

theorem subFrom_eq_intercalate (r : List α) (n : Nat) (prev : Option α) (t : List α) :
    p.subFrom A r n prev t = r.intercalate (p.splitFrom A n prev t) := by
  induction t generalizing n prev with
  | nil => cases n <;> simp [subFrom, splitFrom]
  | cons a t ih =>
    cases n with
    | succ n => exact ih n (some a)
    | zero =>
      rw [subFrom, splitFrom]
      cases p.span A ⟨prev, a :: t⟩ with
      | some n =>
        obtain ⟨g, gs, hg⟩ := List.exists_cons_of_ne_nil (splitFrom_ne_nil (n - 1) (some a) t)
        simp only
        rw [ih, hg, List.intercalate_cons_cons]
        rfl
      | none =>
        obtain ⟨g, gs, hg⟩ := List.exists_cons_of_ne_nil (splitFrom_ne_nil 0 (some a) t)
        simp only
        rw [ih, hg]
        cases gs <;> simp

theorem sub_eq_intercalate (r t : List α) : p.sub A r t = r.intercalate (p.split A t) :=
  subFrom_eq_intercalate r 0 none t

theorem splitFrom_skip (m rest : List α) (prev : Option α) :
    p.splitFrom A m.length prev (m ++ rest) = p.splitFrom A 0 (m.getLast?.or prev) rest := by
  induction m generalizing prev with
  | nil => rfl
  | cons a m ih =>
    rw [Regex.getLast?_cons_or]
    exact ih (some a)

theorem splitFrom_cut (prev : Option α) (t : List α) : Cut A p prev t (p.splitFrom A 0 prev t) := by
  induction hn : t.length using Nat.strongRecOn generalizing prev t with
  | ind n ih =>
    cases t with
    | nil => exact .last (NoStart.nil prev [])
    | cons a t =>
      rw [splitFrom]
      cases hspan : p.span A ⟨prev, a :: t⟩ with
      | none =>
        have hcut := ih t.length (by rw [← hn]; simp) (some a) t rfl
        obtain ⟨g, gs, hg⟩ := List.exists_cons_of_ne_nil (splitFrom_ne_nil 0 (some a) t)
        rw [hg] at hcut
        simp only [hg, List.modifyHead_cons]
        exact hcut.cons (span_eq_none.1 hspan)
      | some k =>
        obtain ⟨d, hd, rfl⟩ := Option.map_eq_some_iff.1 hspan
        obtain ⟨w, hw, _, hm⟩ := Regex.mem_ends.1 (List.mem_of_head? hd)
        obtain ⟨b, m, rfl⟩ := matches_cons hm
        cases hw
        have hlen : (a :: (m ++ d.rest)).length = m.length + d.rest.length + 1 := by
          rw [List.length_cons, List.length_append]
        have hskip : (a :: (m ++ d.rest)).length - d.rest.length - 1 = m.length := by omega
        have hlt : d.rest.length < n := by
          rw [← hn, List.append_eq, hlen]
          omega
        have hcut := ih d.rest.length hlt (a :: m).getLast? d.rest rfl
        have hlast : (a :: m).getLast? = m.getLast?.or (some a) := by
          rw [List.getLast?_cons]
          cases m.getLast? <;> rfl
        simp only [List.append_eq]
        rw [hskip, splitFrom_skip, ← hlast]
        exact .next (g := []) (m := a :: m) (NoStart.nil prev _) hm hcut

theorem split_cut (t : List α) : Cut A p none t (p.split A t) := splitFrom_cut none t

/-! ### What is left of another pattern -/

variable {q : Pattern}

/-- Beside its own matches, `p` does not hide those of `q`. -/
def Meets (A : Alphabet α) (p q : Pattern) : Prop :=
  q.expr.free = true ∨ Guarded A p ∧ Guarded A q

theorem Meets.before (h : Meets A p q) {prev next next' : Option α} {w m : List α}
    (hq : q.expr.Matches A prev w next) (hnext : A.isWordAt next = false)
    (hp : p.expr.Matches A w.getLast? m next') : q.expr.Matches A prev w m.head? := by
  rcases h with hfree | ⟨hgp, hgq⟩
  · exact Regex.matches_of_free hfree hq prev _
  · have hne := hgp.starts _ _ _ hp
    rw [(hgq.ends _ _ _ hq).1] at hne
    have hhead : A.isWordAt m.head? = false := Bool.eq_false_iff.2 (Ne.symm hne)
    exact Regex.matches_congr hgq.lineless hq rfl (hnext.trans hhead.symm)

theorem Meets.after (h : Meets A p q) {prev prev' next : Option α} {w m : List α}
    (hq : q.expr.Matches A prev w next) (hprev : A.isWordAt prev = false)
    (hp : p.expr.Matches A prev' m w.head?) : q.expr.Matches A m.getLast? w next := by
  rcases h with hfree | ⟨hgp, hgq⟩
  · exact Regex.matches_of_free hfree hq _ next
  · have hne := hgq.starts _ _ _ hq
    rw [hprev, (hgp.ends _ _ _ hp).2] at hne
    exact absurd rfl hne

def Entry (A : Alphabet α) (p : Pattern) (prev : Option α) (t : List α) : Prop :=
  prev = none ∨ ∃ x m, prev = m.getLast? ∧ p.expr.Matches A x m t.head?

def Exit (A : Alphabet α) (p : Pattern) (prev : Option α) (tail : List α) : Prop :=
  tail = [] ∨ ∃ m next, tail.head? = m.head? ∧ p.expr.Matches A prev m next

theorem Meets.in_piece (h : Meets A p q) {prev : Option α} {g tail s w e : List α}
    (hentry : Entry A p prev (g ++ tail)) (hexit : Exit A p (g.getLast?.or prev) tail)
    (hg : g = s ++ w ++ e) (hm : q.expr.Matches A s.getLast? w e.head?) :
    q.expr.Matches A (s.getLast?.or prev) w (e ++ tail).head? := by
  obtain ⟨a, u, rfl⟩ := matches_cons hm
  have hleft : q.expr.Matches A (s.getLast?.or prev) (a :: u) e.head? := by
    cases hs : s.getLast? with
    | some b =>
      rw [hs] at hm
      exact hm
    | none =>
      rw [hs] at hm
      rcases hentry with rfl | ⟨x, m, rfl, hp⟩
      · exact hm
      · apply h.after hm rfl
        rw [List.getLast?_eq_none_iff] at hs
        rw [hg, hs] at hp
        exact hp
  cases e with
  | cons b e => exact hleft
  | nil =>
    rcases hexit with rfl | ⟨m, next, hhead, hp⟩
    · exact hleft
    · rw [List.nil_append, hhead]
      apply h.before hleft rfl
      rw [hg, List.append_nil, List.getLast?_append, List.getLast?_cons] at hp
      rw [List.getLast?_cons]
      exact hp

theorem Exit.of_matches {prev : Option α} {m rest : List α}
    (hm : p.expr.Matches A prev m rest.head?) : Exit A p prev (m ++ rest) := by
  obtain ⟨a, u, rfl⟩ := matches_cons hm
  exact .inr ⟨a :: u, rest.head?, rfl, hm⟩

theorem getLast?_or_of_matches {prev prev' next : Option α} {m : List α}
    (hm : p.expr.Matches A prev m next) : m.getLast?.or prev' = m.getLast? := by
  obtain ⟨a, u, rfl⟩ := matches_cons hm
  rw [List.getLast?_cons]
  rfl

theorem Cut.clean {prev : Option α} {t : List α} {gs : List (List α)} (h : Cut A p prev t gs)
    (hself : Meets A p p) (hentry : Entry A p prev t) : ∀ g ∈ gs, p.Clean A none g := by
  have hpiece {prev : Option α} {g tail : List α} (hnone : NoStart A p prev g tail)
      (hentry : Entry A p prev (g ++ tail)) (hexit : Exit A p (g.getLast?.or prev) tail) :
      p.Clean A none g := by
    intro s w e hg hm
    rw [Option.or_none] at hm
    have hin := hself.in_piece hentry hexit hg hm
    obtain ⟨a, u, rfl⟩ := matches_cons hm
    have hends := hnone s (a :: u ++ e) (by rw [hg, List.append_assoc]) (List.cons_ne_nil _ _)
    rw [List.append_assoc] at hends
    exact not_matches_of_ends hends hin
  induction h with
  | last hnone =>
    intro g hg
    cases List.mem_singleton.1 hg
    exact hpiece hnone (by rw [List.append_nil]; exact hentry) (.inl rfl)
  | next hnone hm _ ih =>
    intro g hg
    rcases List.mem_cons.1 hg with rfl | hg
    · exact hpiece hnone hentry (.of_matches hm)
    · exact ih (.inr ⟨_, _, rfl, hm⟩) g hg

theorem Cut.lift {prev : Option α} {t r s w e : List α} {gs : List (List α)}
    (h : Cut A p prev t gs) (hb : Bracketed A q r) (hpq : Meets A p q)
    (hentry : Entry A p prev t) (ht : r.intercalate gs = s ++ w ++ e)
    (hm : q.expr.Matches A s.getLast? w e.head?) :
    ∃ s' e', t = s' ++ w ++ e' ∧ q.expr.Matches A (s'.getLast?.or prev) w e'.head? ∧
      (s' = [] → s = []) ∧ (e' = [] → e = []) := by
  induction h generalizing s w e with
  | @last prev g hnone =>
    rw [List.intercalate_singleton] at ht
    have hentry' : Entry A p prev (g ++ []) := by
      rw [List.append_nil]
      exact hentry
    have hin := hpq.in_piece hentry' (.inl rfl) ht hm
    rw [List.append_nil] at hin
    exact ⟨s, e, ht, hin, id, id⟩
  | @next prev g m rest gs hnone hp hcut ih =>
    obtain ⟨g', gs', rfl⟩ : ∃ g' gs', gs = g' :: gs' := by
      cases hcut with
      | last => exact ⟨_, _, rfl⟩
      | next => exact ⟨_, _, rfl⟩
    rw [List.intercalate_cons_cons] at ht
    rw [← Option.or_none (o := s.getLast?)] at hm
    obtain ⟨a, u, rfl⟩ := matches_cons hp
    rcases hb.matches_append ht hm with ⟨e', hg, _, hm'⟩ | ⟨s', hs, hrest, hm'⟩
    · rw [Option.or_none] at hm'
      have hin := hpq.in_piece hentry (.of_matches hp) hg hm'
      refine ⟨s, e' ++ (a :: u ++ rest), by rw [hg]; simp, hin, id, ?_⟩
      intro hnil
      simp at hnil
    · obtain ⟨s₁, e₁, hsplit, hm₁, _, he⟩ := ih (.inr ⟨_, _, rfl, hp⟩) hrest hm'
      refine ⟨g ++ (a :: u ++ s₁), e₁, by rw [hsplit]; simp, ?_, ?_, he⟩
      · rw [Regex.getLast?_append_or, Regex.getLast?_append_or, getLast?_or_of_matches hp]
        exact hm₁
      · intro hnil
        simp at hnil

theorem Cut.place {prev : Option α} {t g : List α} {xs ys : List (List α)}
    (h : Cut A p prev t (xs ++ g :: ys)) :
    ∃ a b, t = a ++ g ++ b ∧ (xs = [] → a = []) ∧ (ys = [] → b = []) := by
  induction xs generalizing prev t with
  | nil =>
    cases h with
    | last => exact ⟨[], [], by simp, fun _ => rfl, fun _ => rfl⟩
    | @next _ _ m rest _ _ _ hcut =>
      refine ⟨[], m ++ rest, by simp, fun _ => rfl, ?_⟩
      intro hys
      subst hys
      cases hcut
  | cons x xs ih =>
    rw [List.cons_append] at h
    generalize hgs : xs ++ g :: ys = gs at h ih
    cases h with
    | last => simp at hgs
    | @next _ _ m rest _ _ _ hcut =>
      obtain ⟨a, b, hrest, _, hb⟩ := ih hcut
      exact ⟨x ++ (m ++ a), b, by rw [hrest]; simp, (by simp), hb⟩

/-! ### Passes -/

theorem clean_sub_self {r : List α} (hb : Bracketed A p r) (hself : Meets A p p) (t : List α) :
    p.Clean A none (p.sub A r t) := by
  rw [sub_eq_intercalate, hb.clean_intercalate]
  exact (split_cut t).clean hself (.inl rfl)

theorem Clean.sub {r t : List α} (h : q.Clean A none t) (hb : Bracketed A q r)
    (hpq : Meets A p q) : q.Clean A none (p.sub A r t) := by
  intro s w e ht hm
  rw [sub_eq_intercalate] at ht
  rw [Option.or_none] at hm
  obtain ⟨s', e', ht', hm', _⟩ := (split_cut t).lift hb hpq (.inl rfl) ht hm
  exact h s' w e' ht' hm'

def Opens (A : Alphabet α) (q : Pattern) (t : List α) : Prop :=
  ∃ w e, t = w ++ e ∧ q.expr.Matches A none w e.head?

def Closes (A : Alphabet α) (q : Pattern) (t : List α) : Prop :=
  ∃ s w, t = s ++ w ∧ q.expr.Matches A s.getLast? w none

theorem pieces_clean_iff {r t : List α} {p' : Pattern} (h : q.Clean A none t)
    (hb : Bracketed A q r) (hpq : Meets A p' q) :
    (∀ g ∈ p.split A t, q.Clean A none (p'.sub A r g)) ↔
      ∀ xs g ys, p.split A t = xs ++ g :: ys →
        (xs ≠ [] → ¬ Opens A q (p'.sub A r g)) ∧ (ys ≠ [] → ¬ Closes A q (p'.sub A r g)) := by
  apply Iff.intro
  · intro hclean xs g ys hgs
    have hg := hclean g (by rw [hgs]; simp)
    apply And.intro
    · rintro _ ⟨w, e, heq, hm⟩
      exact hg [] w e heq hm
    · rintro _ ⟨s, w, heq, hm⟩
      apply hg s w [] (by rw [heq, List.append_nil])
      rw [Option.or_none]
      exact hm
  · intro hends g hg s w e heq hm
    obtain ⟨xs, ys, hgs⟩ := List.append_of_mem hg
    obtain ⟨hopens, hcloses⟩ := hends xs g ys hgs
    obtain ⟨a, b, ht, ha, hb'⟩ := (hgs ▸ split_cut t : Cut A p none t (xs ++ g :: ys)).place
    rw [Option.or_none] at hm
    obtain ⟨s', e', hg', hm', hs, he⟩ := (split_cut g).lift hb hpq (.inl rfl)
      (by rw [← sub_eq_intercalate]; exact heq) hm
    rw [Option.or_none] at hm'
    -- at an end of its piece the match stands at that end of the text
    have hleft : s' = [] → a = [] := by
      intro hnil
      apply ha
      by_contra hxs
      have hs' := hs hnil
      subst hs'
      exact hopens hxs ⟨w, e, heq, hm⟩
    have hright : e' = [] → b = [] := by
      intro hnil
      apply hb'
      by_contra hys
      have he' := he hnil
      subst he'
      exact hcloses hys ⟨s, w, by rw [heq, List.append_nil], hm⟩
    apply h (a ++ s') w (e' ++ b) (by rw [ht, hg']; simp)
    have hprev : (a ++ s').getLast?.or none = s'.getLast? := by
      cases s' with
      | nil => rw [hleft rfl]; rfl
      | cons c s' => rw [Option.or_none, List.getLast?_append, List.getLast?_cons]; rfl
    have hnext : (e' ++ b).head? = e'.head? := by
      cases e' with
      | nil => rw [hright rfl]; rfl
      | cons c e' => rfl
    rw [hprev, hnext]
    exact hm'

end Pattern

end Prismal.Lib
