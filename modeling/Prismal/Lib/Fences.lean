import Mathlib.Data.List.Infix

namespace Prismal.Lib
set_option autoImplicit true

/-! Markers with a head, any text and a stop, such as `«untrusted:web»`: where they occur in a text,
and what taking them out leaves. -/

/-- How markers are written: a mark, then one of some words, each a test for every character, then
anything up to the stop. -/
structure Fence where
  mark : Char
  words : List (List (Char → Bool))
  stop : Char
  mark_ne_stop : mark ≠ stop
  word_not_stop : ∀ w ∈ words, ∀ t ∈ w, t stop = false

namespace Fence

def spells : List (Char → Bool) → List Char → Bool
  | [], _ => true
  | _ :: _, [] => false
  | t :: w, c :: cs => t c && spells w cs

def after (stop : Char) : List Char → Option (List Char)
  | [] => none
  | c :: cs => if c = stop then some cs else after stop cs

variable (F : Fence)

def heads : List Char → Bool
  | [] => false
  | c :: cs => c == F.mark && F.words.any fun w => spells w cs

def afterMarker (cs : List Char) : Option (List Char) :=
  if F.heads cs then after F.stop cs else none

def subFrom : Nat → List Char → List Char
  | _, [] => []
  | skip + 1, _ :: cs => subFrom skip cs
  | 0, c :: cs =>
    match F.afterMarker (c :: cs) with
    | none => c :: subFrom 0 cs
    | some rest => subFrom (cs.length - rest.length) cs

/-- `re.sub` with the empty text. -/
def sub (cs : List Char) : List Char := F.subFrom 0 cs

def strip : Nat → Option (List Char) → List Char → Option (List Char)
  | 0, _, _ => none
  | n + 1, previous, clean =>
    if previous = some clean then some clean else strip n (some clean) (F.sub clean)

def Marker (m : List Char) : Prop := F.afterMarker m = some []

instance (m : List Char) : Decidable (F.Marker m) :=
  inferInstanceAs (Decidable (F.afterMarker m = some []))

/-- A marker stands in a text after `pre`. -/
def Occurs (cs pre m : List Char) : Prop := F.Marker m ∧ ∃ post, cs = pre ++ (m ++ post)

def Free (cs : List Char) : Prop := ∀ q, q <:+ cs → F.heads q = false

structure Outside (c : Char) : Prop where
  not_mark : c ≠ F.mark
  not_word : ∀ w ∈ F.words, ∀ t ∈ w, t c = false

variable {F}

theorem spells_append (h : spells w cs = true) (post : List Char) :
    spells w (cs ++ post) = true := by
  induction w generalizing cs with
  | nil => rfl
  | cons t w ih =>
    cases cs with
    | nil => cases h
    | cons c cs =>
      rw [spells, Bool.and_eq_true] at h
      rw [List.cons_append, spells, h.1, ih h.2]
      rfl

theorem spells_before (hc : ∀ t ∈ w, t c = false) (h : spells w (q ++ c :: b) = true) :
    spells w q = true := by
  induction w generalizing q with
  | nil => rfl
  | cons t w ih =>
    cases q with
    | nil =>
      rw [List.nil_append, spells, hc t List.mem_cons_self] at h
      cases h
    | cons d q =>
      rw [List.cons_append, spells, Bool.and_eq_true] at h
      rw [spells, h.1, ih (fun u hu => hc u (List.mem_cons_of_mem t hu)) h.2]
      rfl

theorem heads_cons : F.heads (c :: cs) = true ↔ c = F.mark ∧ ∃ w ∈ F.words, spells w cs = true := by
  rw [heads, Bool.and_eq_true, beq_iff_eq, List.any_eq_true]

theorem heads_append (h : F.heads cs = true) (post : List Char) : F.heads (cs ++ post) = true := by
  cases cs with
  | nil => cases h
  | cons c cs =>
    obtain ⟨hc, w, hw, hspells⟩ := heads_cons.1 h
    exact heads_cons.2 ⟨hc, w, hw, spells_append hspells post⟩

theorem heads_before (hc : F.Outside c) (h : F.heads (q ++ c :: b) = true) :
    F.heads q = true := by
  cases q with
  | nil => exact absurd (heads_cons.1 h).1 hc.not_mark
  | cons d q =>
    obtain ⟨hd, w, hw, hspells⟩ := heads_cons.1 h
    exact heads_cons.2 ⟨hd, w, hw, spells_before (hc.not_word w hw) hspells⟩

theorem after_eq_some : after e cs = some rest ↔ ∃ x, e ∉ x ∧ cs = x ++ e :: rest := by
  constructor
  · intro h
    induction cs with
    | nil => cases h
    | cons c cs ih =>
      rw [after] at h
      split at h
      · next hc =>
        cases h
        exact ⟨[], List.not_mem_nil, by rw [hc, List.nil_append]⟩
      · next hc =>
        obtain ⟨x, hx, rfl⟩ := ih h
        refine ⟨c :: x, ?_, rfl⟩
        rw [List.mem_cons, not_or]
        exact ⟨Ne.symm hc, hx⟩
  · intro ⟨x, hx, hcs⟩
    subst hcs
    induction x with
    | nil => exact if_pos rfl
    | cons c x ih =>
      rw [List.mem_cons, not_or] at hx
      rw [List.cons_append, after, if_neg (Ne.symm hx.1)]
      exact ih hx.2

theorem stop_outside : F.Outside F.stop := ⟨F.mark_ne_stop.symm, F.word_not_stop⟩

theorem afterMarker_eq_some : F.afterMarker cs = some rest ↔
    F.heads cs = true ∧ ∃ x, F.stop ∉ x ∧ cs = x ++ F.stop :: rest := by
  rw [afterMarker, ← after_eq_some]
  split
  · next h => rw [and_iff_right h]
  · next h => exact iff_of_false (fun h' => by cases h') fun h' => h h'.1

theorem marker_iff : F.Marker m ↔ F.heads m = true ∧ ∃ x, F.stop ∉ x ∧ m = x ++ [F.stop] :=
  afterMarker_eq_some

theorem Marker.after (h : F.Marker m) (post : List Char) :
    F.afterMarker (m ++ post) = some post := by
  obtain ⟨hheads, x, hx, rfl⟩ := marker_iff.1 h
  exact afterMarker_eq_some.2 ⟨heads_append hheads post, x, hx, List.append_assoc x _ post⟩

theorem marker_of_after (h : F.afterMarker cs = some rest) : ∃ m, F.Marker m ∧ cs = m ++ rest := by
  obtain ⟨hheads, x, hx, rfl⟩ := afterMarker_eq_some.1 h
  have hm := heads_append (heads_before stop_outside hheads) [F.stop]
  exact ⟨x ++ [F.stop], marker_iff.2 ⟨hm, x, hx, rfl⟩, List.append_cons x F.stop rest⟩

theorem Marker.unique (hm : F.Marker m) (hn : F.Marker n) (h : m ++ post = n ++ rest) : m = n := by
  have hrest := hm.after post
  rw [h, hn.after rest] at hrest
  cases hrest
  exact List.append_cancel_right h

theorem Marker.ne_nil (h : F.Marker m) : m ≠ [] := by
  rintro rfl
  exact absurd (marker_iff.1 h).1 Bool.false_ne_true

/-! Taking markers out. -/

theorem subFrom_skip (n : Nat) (cs : List Char) : F.subFrom n cs = F.sub (cs.drop n) := by
  induction n generalizing cs with
  | zero => rfl
  | succ n ih =>
    cases cs with
    | nil => rfl
    | cons c cs => rw [subFrom, ih, List.drop_succ_cons]

theorem sub_cons (h : F.afterMarker (c :: cs) = none) : F.sub (c :: cs) = c :: F.sub cs := by
  rw [sub, subFrom, h]
  rfl

theorem sub_marker (h : F.afterMarker cs = some rest) : F.sub cs = F.sub rest := by
  obtain ⟨m, hm, rfl⟩ := marker_of_after h
  cases m with
  | nil => exact absurd rfl hm.ne_nil
  | cons c m =>
    rw [List.cons_append, sub, subFrom, ← List.cons_append, h]
    dsimp only
    rw [subFrom_skip, List.length_append, Nat.add_sub_cancel, List.drop_left]

theorem length_afterMarker (h : F.afterMarker cs = some rest) : rest.length < cs.length := by
  obtain ⟨m, hm, rfl⟩ := marker_of_after h
  rw [List.length_append]
  exact Nat.lt_add_of_pos_left (List.length_pos_of_ne_nil hm.ne_nil)

theorem length_sub_le (cs : List Char) : (F.sub cs).length ≤ cs.length := by
  induction hn : cs.length using Nat.strong_induction_on generalizing cs with
  | _ n ih =>
    subst hn
    cases cs with
    | nil => exact le_refl 0
    | cons c cs =>
      cases hm : F.afterMarker (c :: cs) with
      | none =>
        rw [sub_cons hm]
        exact Nat.succ_le_succ (ih cs.length (Nat.lt_succ_self _) cs rfl)
      | some rest =>
        have hlt := length_afterMarker hm
        rw [sub_marker hm]
        exact (ih rest.length hlt rest rfl).trans hlt.le

theorem length_sub_lt (h : F.sub cs ≠ cs) : (F.sub cs).length < cs.length := by
  induction cs with
  | nil => exact absurd rfl h
  | cons c cs ih =>
    cases hm : F.afterMarker (c :: cs) with
    | none =>
      rw [sub_cons hm] at h ⊢
      apply Nat.succ_lt_succ
      apply ih
      intro heq
      exact h (by rw [heq])
    | some rest =>
      rw [sub_marker hm]
      exact (length_sub_le rest).trans_lt (length_afterMarker hm)

theorem strip_some (previous : Option (List Char)) (clean : List Char)
    (hprevious : ∀ p, previous = some p → clean = F.sub p)
    (h : clean.length + 2 ≤ n) : ∃ r, F.strip n previous clean = some r ∧ F.sub r = r := by
  induction n generalizing previous clean with
  | zero => exact absurd h (by omega)
  | succ n ih =>
    rw [strip]
    split
    · next hsame => exact ⟨clean, rfl, (hprevious clean hsame).symm⟩
    · by_cases hsub : F.sub clean = clean
      · cases n with
        | zero => exact absurd h (by omega)
        | succ n =>
          rw [strip, hsub, if_pos rfl]
          exact ⟨clean, rfl, hsub⟩
      · apply ih
        · intro p hp
          cases hp
          rfl
        · have hlt := length_sub_lt hsub
          omega

/-! Markers around a text. -/

def fenced (front back : List Char) (c : Char) (cs : List Char) : List Char :=
  front ++ c :: (cs ++ c :: back)

/-- A marker whose mark stands at its front only. -/
structure Bare (F : Fence) (m : List Char) : Prop where
  marker : F.Marker m
  tail : F.mark ∉ m.tail

def Intact (F : Fence) (front back text : List Char) : Prop :=
  ∀ pre m, F.Occurs text pre m → (pre = [] ∧ m = front) ∨ (text = pre ++ m ∧ m = back)

theorem Bare.heads_front (h : Bare F m) (hm : m = p ++ q) (hq : q ≠ [])
    (hheads : F.heads (q ++ post) = true) : p = [] := by
  cases p with
  | nil => rfl
  | cons c p =>
    cases q with
    | nil => exact absurd rfl hq
    | cons d q =>
      have hmark := (heads_cons.1 hheads).1
      refine absurd ?_ h.tail
      rw [hm, ← hmark]
      exact List.mem_append_right p List.mem_cons_self

theorem Marker.heads (h : F.Marker m) (post : List Char) : F.heads (m ++ post) = true :=
  heads_append (marker_iff.1 h).1 post

theorem after_of_mem (h : e ∈ cs) : ∃ rest, after e cs = some rest := by
  induction cs with
  | nil => cases h
  | cons c cs ih =>
    rw [after]
    split
    · exact ⟨cs, rfl⟩
    · next hc => exact ih ((List.mem_cons.1 h).resolve_left (Ne.symm hc))

theorem occurs_of_heads (hback : F.Marker back) (hq : F.heads q = true) (front p : List Char) :
    ∃ m, F.Occurs (fenced front back c (p ++ q)) (front ++ c :: p) m := by
  obtain ⟨-, x, -, rfl⟩ := marker_iff.1 hback
  have hstop : F.stop ∈ q ++ c :: (x ++ [F.stop]) := by simp
  obtain ⟨rest, hrest⟩ := after_of_mem hstop
  have hafter : F.afterMarker (q ++ c :: (x ++ [F.stop])) = some rest := by
    rw [afterMarker, if_pos (heads_append hq _)]
    exact hrest
  obtain ⟨m, hm, hsplit⟩ := marker_of_after hafter
  refine ⟨m, hm, rest, ?_⟩
  rw [← hsplit, fenced]
  simp only [List.append_assoc, List.cons_append]

theorem intact_of_free (hfront : Bare F front) (hback : Bare F back) (hc : F.Outside c)
    (h : F.Free cs) : Intact F front back (fenced front back c cs) := by
  intro pre m ⟨hm, post, heq⟩
  have hheads := hm.heads post
  rcases List.append_eq_append_iff.1 heq with ⟨p, rfl, hp⟩ | ⟨q, hq, hrest⟩
  · cases p with
    | nil =>
      rw [List.nil_append] at hp
      rw [← hp] at hheads
      exact absurd (heads_cons.1 hheads).1 hc.not_mark
    | cons d p =>
      obtain ⟨rfl, htail⟩ := List.cons_eq_cons.1 hp
      rcases List.append_eq_append_iff.1 htail with ⟨r, rfl, hr⟩ | ⟨q, rfl, hq⟩
      · cases r with
        | nil =>
          rw [List.nil_append] at hr
          rw [← hr] at hheads
          exact absurd (heads_cons.1 hheads).1 hc.not_mark
        | cons d r =>
          obtain ⟨rfl, hend⟩ := List.cons_eq_cons.1 hr
          have hne : m ++ post ≠ [] := by simp [hm.ne_nil]
          rw [← List.append_nil (m ++ post)] at hheads
          have hr : r = [] := hback.heads_front hend hne hheads
          subst hr
          have hsame : m ++ post = back ++ [] := hend.symm.trans (List.append_nil back).symm
          have hm := hm.unique hback.marker hsame
          subst hm
          rw [List.append_cancel_left hsame, List.append_nil] at heq
          exact .inr ⟨heq, rfl⟩
      · rw [hq] at hheads
        exact absurd (heads_before hc hheads) (by rw [h q (List.suffix_append p q)]; decide)
  · by_cases hne : q = []
    · subst hne
      rw [List.nil_append] at hrest
      rw [hrest] at hheads
      exact absurd (heads_cons.1 hheads).1 hc.not_mark
    · rw [hrest] at hheads
      have hpre := hfront.heads_front hq hne hheads
      subst hpre
      exact .inl ⟨rfl, hm.unique hfront.marker heq.symm⟩

theorem intact_iff (hfront : Bare F front) (hback : Bare F back) (hc : F.Outside c) :
    Intact F front back (fenced front back c cs) ↔ F.Free cs := by
  constructor
  · intro h q hq
    obtain ⟨p, rfl⟩ := hq
    by_contra hheads
    rw [Bool.not_eq_false] at hheads
    obtain ⟨m, hm⟩ := occurs_of_heads hback.marker hheads front p
    rcases h _ m hm with ⟨hpre, -⟩ | ⟨htext, rfl⟩
    · exact absurd hpre (by simp)
    · have hlen := congrArg List.length htext
      simp only [fenced, List.length_append, List.length_cons] at hlen
      omega
  · exact intact_of_free hfront hback hc

end Fence

end Prismal.Lib
