import Prismal.Lib.Text

namespace Prismal.Lib
set_option autoImplicit true

/-! The lines of a text, as `str.splitlines` finds them. -/

def lineBreaks : List Char :=
  ['\n', '\r', '\x0b', '\x0c', '\x1c', '\x1d', '\x1e', '\u0085', '\u2028', '\u2029']

def lineBreak (c : Char) : Bool := lineBreaks.contains c

theorem isSpace_of_lineBreak (h : lineBreak c = true) : isSpace c = true := by
  have hall : lineBreaks.all isSpace = true := by decide
  exact List.all_eq_true.1 hall c (List.contains_iff_mem.1 h)

/-- The lines behind what has been read of one, in reverse. A text that ends with a line does not
begin another. -/
def splitLinesFrom (line : List Char) : List Char → List (List Char)
  | [] => if line.isEmpty then [] else [line.reverse]
  | '\r' :: '\n' :: cs => line.reverse :: splitLinesFrom [] cs
  | c :: cs =>
    if lineBreak c then line.reverse :: splitLinesFrom [] cs else splitLinesFrom (c :: line) cs

def splitLines (cs : List Char) : List (List Char) := splitLinesFrom [] cs

def piecesFrom (line : List Char) : List Char → List (List Char)
  | [] => [line.reverse]
  | c :: cs => if lineBreak c then line.reverse :: piecesFrom [] cs else piecesFrom (c :: line) cs

theorem splitLinesFrom_cons (h : c ≠ '\r') (line cs : List Char) :
    splitLinesFrom line (c :: cs) =
      if lineBreak c then line.reverse :: splitLinesFrom [] cs
      else splitLinesFrom (c :: line) cs := by
  rw [splitLinesFrom]
  intro cs' hc
  exact absurd hc h

theorem piecesFrom_of_unbroken (h : ∀ c ∈ cs, lineBreak c = false) (line : List Char) :
    piecesFrom line cs = [line.reverse ++ cs] := by
  induction cs generalizing line with
  | nil => rw [piecesFrom, List.append_nil]
  | cons c cs ih =>
    rw [piecesFrom, h c List.mem_cons_self, if_neg Bool.false_ne_true,
      ih fun d hd => h d (List.mem_cons_of_mem _ hd), List.reverse_cons, List.append_assoc]
    rfl

theorem splitLinesFrom_newline (h : '\r' ∉ cs) (line rest : List Char) :
    splitLinesFrom line (cs ++ '\n' :: rest) = piecesFrom line cs ++ splitLinesFrom [] rest := by
  induction cs generalizing line with
  | nil =>
    rw [List.nil_append, splitLinesFrom_cons (by decide), if_pos (by decide)]
    rfl
  | cons c cs ih =>
    have hc : c ≠ '\r' := fun heq => h (heq ▸ List.mem_cons_self)
    have hcs : '\r' ∉ cs := fun hin => h (List.mem_cons_of_mem _ hin)
    rw [List.cons_append, splitLinesFrom_cons hc, piecesFrom]
    split
    · rw [ih hcs, List.cons_append]
    · exact ih hcs (c :: line)

theorem filterMap_splitLinesFrom {f : List Char → Option β} (hf : f [] = none) (h : '\r' ∉ cs)
    (line : List Char) :
    (splitLinesFrom line cs).filterMap f = (piecesFrom line cs).filterMap f := by
  induction cs generalizing line with
  | nil =>
    rw [splitLinesFrom, piecesFrom]
    split
    next hempty =>
      rw [List.isEmpty_iff.1 hempty]
      simp [hf]
    · rfl
  | cons c cs ih =>
    have hc : c ≠ '\r' := fun heq => h (heq ▸ List.mem_cons_self)
    have hcs : '\r' ∉ cs := fun hin => h (List.mem_cons_of_mem _ hin)
    rw [splitLinesFrom_cons hc, piecesFrom]
    split
    · rw [List.filterMap_cons, List.filterMap_cons, ih hcs]
    · exact ih hcs (c :: line)

theorem filterMap_splitLines {f : List Char → Option β} (hf : f [] = none)
    (h : ∀ cs ∈ texts, '\r' ∉ cs) :
    (splitLines (['\n'].intercalate texts)).filterMap f =
      texts.flatMap fun cs => (piecesFrom [] cs).filterMap f := by
  induction texts with
  | nil => rfl
  | cons cs texts ih =>
    have hcs := h cs List.mem_cons_self
    have htexts := ih fun ds hds => h ds (List.mem_cons_of_mem _ hds)
    cases texts with
    | nil =>
      rw [List.intercalate_singleton, splitLines, filterMap_splitLinesFrom hf hcs,
        List.flatMap_cons, List.flatMap_nil, List.append_nil]
    | cons ds texts =>
      rw [List.intercalate_cons_cons, List.append_assoc, List.singleton_append, splitLines,
        splitLinesFrom_newline hcs, List.filterMap_append, List.flatMap_cons, ← htexts]
      rfl

theorem splitLinesFrom_unbroken (hline : ∀ c ∈ line, lineBreak c = false)
    (h : l ∈ splitLinesFrom line cs) : ∀ c ∈ l, lineBreak c = false := by
  have hrev : ∀ c ∈ line.reverse, lineBreak c = false := fun c hc =>
    hline c (List.mem_reverse.1 hc)
  induction line, cs using splitLinesFrom.induct with
  | case1 line hempty =>
    rw [splitLinesFrom, if_pos hempty] at h
    cases h
  | case2 line hempty =>
    rw [splitLinesFrom, if_neg hempty] at h
    cases List.mem_singleton.1 h
    exact hrev
  | case3 line cs ih =>
    rw [splitLinesFrom] at h
    rcases List.mem_cons.1 h with rfl | h
    · exact hrev
    · exact ih (by simp) h (by simp)
  | case4 line c cs hc hb ih =>
    rw [splitLinesFrom.eq_3 _ _ _ hc, if_pos hb] at h
    rcases List.mem_cons.1 h with rfl | h
    · exact hrev
    · exact ih (by simp) h (by simp)
  | case5 line c cs hc hb ih =>
    rw [splitLinesFrom.eq_3 _ _ _ hc, if_neg hb] at h
    have hcons : ∀ d ∈ c :: line, lineBreak d = false := by
      intro d hd
      rcases List.mem_cons.1 hd with rfl | hd
      · exact Bool.eq_false_iff.2 hb
      · exact hline d hd
    exact ih hcons h fun d hd => hcons d (List.mem_reverse.1 hd)

theorem splitLines_unbroken (h : l ∈ splitLines cs) : ∀ c ∈ l, lineBreak c = false :=
  splitLinesFrom_unbroken (by simp) h

theorem splitLines_written (h : ∀ l ∈ lines, ∀ c ∈ l, lineBreak c = false) :
    splitLines (lines.flatMap (· ++ ['\n'])) = lines := by
  induction lines with
  | nil => rfl
  | cons l lines ih =>
    have hl := h l List.mem_cons_self
    have hr : '\r' ∉ l := fun hin => absurd (hl '\r' hin) (by decide)
    rw [List.flatMap_cons, List.append_assoc, List.singleton_append, splitLines,
      splitLinesFrom_newline hr, piecesFrom_of_unbroken hl]
    exact congrArg (l :: ·) (ih fun m hm => h m (List.mem_cons_of_mem _ hm))

theorem intercalate_newline (h : lines ≠ []) :
    ['\n'].intercalate lines ++ ['\n'] = lines.flatMap (· ++ ['\n']) := by
  induction lines with
  | nil => exact absurd rfl h
  | cons l lines ih =>
    cases lines with
    | nil => simp
    | cons m lines =>
      rw [List.intercalate_cons_cons, List.flatMap_cons, ← ih (List.cons_ne_nil m lines),
        List.append_assoc, List.append_assoc]

end Prismal.Lib

namespace Prismal.Lib
set_option autoImplicit true

/-! Lines of a text that are read with a bound on what is held of one. -/

/-- `fh.readline(n)`: up to the end of the line, at most `n` characters; and what follows. -/
def readline : Nat → List Char → List Char × List Char
  | 0, cs => ([], cs)
  | _ + 1, [] => ([], [])
  | n + 1, c :: cs =>
    if c = '\n' then ([c], cs)
    else
      let tail := readline n cs
      (c :: tail.1, tail.2)

def endsLine (cs : List Char) : Bool := cs.getLast? == some '\n'

def drain (limit : Nat) : Nat → List Char → List Char
  | 0, cs => cs
  | fuel + 1, cs =>
    let chunk := readline limit cs
    if chunk.1 = [] ∨ endsLine chunk.1 = true then chunk.2 else drain limit fuel chunk.2

/-- The lines of a text that are not blank; `none` stands for one that is too long. -/
def recordsFrom (limit : Nat) : Nat → List Char → List (Option (List Char))
  | 0, _ => []
  | fuel + 1, cs =>
    let line := readline (limit + 1) cs
    if line.1 = [] then []
    else if limit < line.1.length ∧ endsLine line.1 = false then
      none :: recordsFrom limit fuel (drain limit (line.2.length + 2) line.2)
    else if stripChars line.1 = [] then recordsFrom limit fuel line.2
    else some line.1 :: recordsFrom limit fuel line.2

def lineRecords (limit : Nat) (text : List Char) : List (Option (List Char)) :=
  recordsFrom limit (text.length + 1) text

def linesOf : List Char → List (List Char)
  | [] => []
  | c :: cs =>
    if c = '\n' then [c] :: linesOf cs
    else
      match linesOf cs with
      | [] => [[c]]
      | line :: lines => (c :: line) :: lines

def lineBody (line : List Char) : List Char := if endsLine line then line.dropLast else line

def recordOf (limit : Nat) (line : List Char) : Option (Option (List Char)) :=
  if limit < (lineBody line).length then some none
  else if stripChars line = [] then none
  else some (some line)

/-- A line and what comes after it: nothing comes after a line that is not ended. -/
inductive Leads : List Char → List Char → Prop where
  | ended {body : List Char} (h : '\n' ∉ body) (rest : List Char) : Leads (body ++ ['\n']) rest
  | last {line : List Char} (h : '\n' ∉ line) (hne : line ≠ []) : Leads line []

theorem endsLine_of_not_mem (h : '\n' ∉ line) : endsLine line = false := by
  rw [endsLine, beq_eq_false_iff_ne]
  exact fun hlast => h (List.mem_of_getLast? hlast)

theorem endsLine_concat (body : List Char) : endsLine (body ++ ['\n']) = true := by
  rw [endsLine, List.getLast?_concat]
  rfl

theorem Leads.ne_nil (h : Leads line rest) : line ≠ [] := by
  cases h with
  | ended h rest => exact List.append_ne_nil_of_right_ne_nil _ (List.cons_ne_nil _ _)
  | last h hne => exact hne

theorem Leads.cons (h : Leads line rest) (hc : c ≠ '\n') : Leads (c :: line) rest := by
  cases h with
  | ended h rest =>
    rw [← List.cons_append]
    exact Leads.ended (List.not_mem_cons_of_ne_of_not_mem (Ne.symm hc) h) rest
  | last h hne =>
    exact Leads.last (List.not_mem_cons_of_ne_of_not_mem (Ne.symm hc) h) (List.cons_ne_nil c _)

theorem Leads.endsLine_take (h : Leads line rest) (hn : n < line.length) :
    endsLine (line.take n) = false := by
  apply endsLine_of_not_mem
  intro hmem
  cases h with
  | ended h rest =>
    rw [List.length_append, List.length_singleton] at hn
    rw [List.take_append_of_le_length (by omega)] at hmem
    exact h (List.mem_of_mem_take hmem)
  | last h hne => exact h (List.mem_of_mem_take hmem)

theorem Leads.drop (h : Leads line rest) (hn : n < line.length) : Leads (line.drop n) rest := by
  cases h with
  | ended h rest =>
    rw [List.length_append, List.length_singleton] at hn
    rw [List.drop_append_of_le_length (by omega)]
    exact Leads.ended (fun hmem => h (List.mem_of_mem_drop hmem)) rest
  | last h hne =>
    apply Leads.last fun hmem => h (List.mem_of_mem_drop hmem)
    exact List.ne_nil_of_length_pos (by rw [List.length_drop]; omega)

theorem readline_leads (h : Leads line rest) (n : Nat) :
    readline n (line ++ rest) = (line.take n, line.drop n ++ rest) := by
  cases h with
  | ended h rest =>
    next body =>
      induction body generalizing n with
      | nil =>
        cases n with
        | zero => rfl
        | succ n => rw [List.nil_append, List.singleton_append, readline, if_pos rfl]; simp
      | cons c body ih =>
        cases n with
        | zero => rfl
        | succ n =>
          rw [List.cons_append, List.cons_append, readline,
            if_neg (List.ne_of_not_mem_cons h).symm, ih n (List.not_mem_of_not_mem_cons h)]
          rfl
  | last h hne =>
    clear hne
    rw [List.append_nil, List.append_nil]
    induction line generalizing n with
    | nil => cases n <;> rfl
    | cons c line ih =>
      cases n with
      | zero => rfl
      | succ n =>
        rw [readline, if_neg (List.ne_of_not_mem_cons h).symm,
          ih n (List.not_mem_of_not_mem_cons h)]
        rfl

theorem drain_nil (limit fuel : Nat) : drain limit fuel [] = [] := by
  cases fuel with
  | zero => rfl
  | succ fuel =>
    have hread : readline limit [] = ([], []) := by cases limit <;> rfl
    rw [drain, hread]
    exact if_pos (Or.inl rfl)

theorem drain_leads (h : Leads line rest) (hlimit : 0 < limit) (hfuel : line.length < fuel) :
    drain limit fuel (line ++ rest) = rest := by
  induction fuel generalizing line with
  | zero => cases hfuel
  | succ fuel ih =>
    rw [drain, readline_leads h]
    dsimp only
    by_cases hlen : limit < line.length
    · have hne : line.take limit ≠ [] := by
        apply List.ne_nil_of_length_pos
        rw [List.length_take]
        omega
      rw [if_neg]
      · apply ih (h.drop hlen)
        rw [List.length_drop]
        omega
      · rintro (hnil | hends)
        · exact hne hnil
        · rw [h.endsLine_take hlen] at hends
          cases hends
    · rw [List.take_of_length_le (by omega), List.drop_of_length_le (by omega), List.nil_append]
      cases h with
      | ended h rest => exact if_pos (Or.inr (endsLine_concat _))
      | last h hne =>
        split
        · rfl
        · exact drain_nil limit fuel

theorem linesOf_cases (text : List Char) :
    text = [] ∨ ∃ line rest, text = line ++ rest ∧ Leads line rest ∧
      linesOf text = line :: linesOf rest := by
  induction text with
  | nil => exact Or.inl rfl
  | cons c cs ih =>
    right
    by_cases hc : c = '\n'
    · subst hc
      refine ⟨['\n'], cs, rfl, Leads.ended List.not_mem_nil cs, ?_⟩
      rw [linesOf, if_pos rfl]
    · rcases ih with rfl | ⟨line, rest, rfl, hleads, hlines⟩
      · refine ⟨[c], [], rfl, Leads.last ?_ (List.cons_ne_nil c []), ?_⟩
        · exact List.not_mem_cons_of_ne_of_not_mem (Ne.symm hc) List.not_mem_nil
        · simp only [linesOf, if_neg hc]
      · refine ⟨c :: line, rest, rfl, hleads.cons hc, ?_⟩
        rw [linesOf, if_neg hc, hlines]

theorem lineBody_length (limit : Nat) (h : Leads line rest) :
    limit < (lineBody line).length ↔
      limit + 1 < line.length ∨ limit < line.length ∧ endsLine line = false := by
  cases h with
  | ended h rest =>
    rw [lineBody, endsLine_concat, if_pos rfl, List.dropLast_concat, List.length_append,
      List.length_singleton]
    constructor
    · intro hlen
      exact Or.inl (by omega)
    · rintro (hlen | ⟨-, hends⟩)
      · omega
      · cases hends
  | last h hne =>
    rw [lineBody, endsLine_of_not_mem h, if_neg Bool.false_ne_true]
    constructor
    · intro hlen
      exact Or.inr ⟨hlen, rfl⟩
    · rintro (hlen | ⟨hlen, -⟩)
      · omega
      · exact hlen

theorem recordsFrom_eq (hlimit : 0 < limit) (hfuel : text.length < fuel) :
    recordsFrom limit fuel text = (linesOf text).filterMap (recordOf limit) := by
  induction fuel generalizing text with
  | zero => cases hfuel
  | succ fuel ih =>
    rcases linesOf_cases text with rfl | ⟨line, rest, rfl, hleads, hlines⟩
    · rw [recordsFrom]
      exact if_pos rfl
    · have hpos := List.length_pos_of_ne_nil hleads.ne_nil
      rw [List.length_append] at hfuel
      have hrest : recordsFrom limit fuel rest = (linesOf rest).filterMap (recordOf limit) :=
        ih (by omega)
      have hlong := lineBody_length limit hleads
      rw [recordsFrom, readline_leads hleads, hlines, List.filterMap_cons, recordOf]
      dsimp only
      by_cases hover : limit + 1 < line.length
      · -- only a part of the line was read
        have hne : line.take (limit + 1) ≠ [] := by
          apply List.ne_nil_of_length_pos
          rw [List.length_take]
          omega
        have hpart : limit < (line.take (limit + 1)).length ∧
            endsLine (line.take (limit + 1)) = false := by
          refine ⟨?_, hleads.endsLine_take hover⟩
          rw [List.length_take]
          omega
        rw [if_neg hne, if_pos hpart, if_pos (hlong.2 (Or.inl hover)),
          drain_leads (hleads.drop hover) hlimit (by rw [List.length_append]; omega), hrest]
      · rw [List.take_of_length_le (by omega), List.drop_of_length_le (by omega), List.nil_append,
          if_neg hleads.ne_nil]
        by_cases hpart : limit < line.length ∧ endsLine line = false
        · have hlast : rest = [] := by
            cases hleads with
            | ended h rest =>
              rw [endsLine_concat] at hpart
              cases hpart.2
            | last h hne => rfl
          rw [if_pos hpart, if_pos (hlong.2 (Or.inr hpart)), hlast, drain_nil, ← hlast, hrest]
        · rw [if_neg hpart, if_neg (fun h => (hlong.1 h).elim hover hpart)]
          by_cases hblank : stripChars line = []
          · rw [if_pos hblank, if_pos hblank, hrest]
          · rw [if_neg hblank, if_neg hblank, hrest]

theorem lineRecords_eq (hlimit : 0 < limit) (text : List Char) :
    lineRecords limit text = (linesOf text).filterMap (recordOf limit) :=
  recordsFrom_eq hlimit (Nat.lt_succ_self _)

end Prismal.Lib
