import Prismal.Lib.Lines

namespace Prismal.Memory.Preferences
open Prismal.Lib
set_option autoImplicit true

/-! The preferences that are kept in `PREFERENCES.md`. -/

abbrev Text := List Char

/-- `str.lower`. White space has no case, and whether a letter ends a word is not looked for beyond
it. -/
structure Case where
  lower : Text → Text
  lower_nil : lower [] = []
  lower_space : ∀ a d b, isSpace d → lower (a ++ d :: b) = lower a ++ d :: lower b
  lower_unbroken : ∀ a, (∀ c ∈ a, lineBreak c = false) → ∀ c ∈ lower a, lineBreak c = false

inductive Section where
  | communicationStyle
  | techStack
  | workflow
  | projectContext
  deriving DecidableEq

namespace Section

def all : List Section := [communicationStyle, techStack, workflow, projectContext]

def key : Section → String
  | communicationStyle => "communication_style"
  | techStack => "tech_stack"
  | workflow => "workflow"
  | projectContext => "project_context"

def header : Section → Text
  | communicationStyle => "## Estilo de Comunicacion".toList
  | techStack => "## Stack Tecnico".toList
  | workflow => "## Flujo de Trabajo".toList
  | projectContext => "## Contexto del Proyecto".toList

end Section

/-- `_SECTION_HEADERS.get(section)` -/
def sectionOf (key : String) : Option Section := Section.all.find? fun s => s.key = key

/-- `header_to_key.get(stripped)` -/
def headed (stripped : Text) : Option Section := Section.all.find? fun s => s.header = stripped

def prefsTemplate : Text :=
  ("# User Preferences\n\n## Estilo de Comunicacion\n\n## Stack Tecnico\n\n" ++
    "## Flujo de Trabajo\n\n## Contexto del Proyecto\n").toList

/-- The section that a reader of the lines is in, and the bullets it has read. -/
structure Reading where
  current : Option Section := none
  result : Section → List Text := fun _ => []

def Reading.add (st : Reading) (s : Section) (bullet : Text) : Reading :=
  { st with result := fun t => if t = s then st.result s ++ [bullet] else st.result t }

def dash : Text := ['-', ' ']

def readLine (st : Reading) (line : Text) : Reading :=
  let stripped := stripChars line
  match headed stripped with
  | some s => { st with current := some s }
  | none =>
    match st.current with
    | some s => if dash <+: stripped then st.add s (stripChars (stripped.drop 2)) else st
    | none => st

def parseSections (content : Text) : Section → List Text :=
  ((splitLines content).foldl readLine {}).result

def load (file : Option Text) : Text := file.getD []

def sectionLines (header : Text) : Bool → List Text → List Text
  | _, [] => []
  | inSection, line :: rest =>
    if stripChars line = header then sectionLines header true rest
    else if inSection then
      if ['#', '#', ' '] <+: line then [] else line :: sectionLines header true rest
    else sectionLines header false rest

def loadSection (file : Option Text) (s : Section) : Text :=
  stripChars (['\n'].intercalate (sectionLines s.header false (splitLines (load file))))

/-- `line.strip() == ""` -/
def blank (line : Text) : Bool := stripChars line = []

def insertBullet (header bullet : Text) : List Text → Option (List Text)
  | [] => none
  | line :: rest =>
    if stripChars line = header then
      some (line :: (rest.takeWhile blank ++ bullet :: rest.dropWhile blank))
    else (insertBullet header bullet rest).map (line :: ·)

def newLines (s : Section) (fact : Text) (lines : List Text) : List Text :=
  (insertBullet s.header (dash ++ fact) lines).getD (lines ++ [[], s.header, dash ++ fact])

/-- The section has the fact in its text, as `load_section` reads it. -/
def Duplicate (L : Case) (s : Section) (fact : Text) (file : Option Text) : Prop :=
  L.lower fact <:+: L.lower (loadSection file s)

instance : Decidable (Duplicate L s fact file) :=
  inferInstanceAs (Decidable (L.lower fact <:+: L.lower (loadSection file s)))

def setFact (L : Case) (key : String) (fact : Text) (file : Option Text) : Option Text :=
  match sectionOf key with
  | none => file
  | some s =>
    let fact := stripChars fact
    if fact = [] then file
    else
      let content := file.getD prefsTemplate
      if Duplicate L s fact (some content) then some content
      else some (['\n'].intercalate (newLines s fact (splitLines content)) ++ ['\n'])

structure PreferenceFacts where
  communicationStyle : List Text := []
  techStack : List Text := []
  workflow : List Text := []
  projectContext : List Text := []

def PreferenceFacts.of (facts : PreferenceFacts) : Section → List Text
  | .communicationStyle => facts.communicationStyle
  | .techStack => facts.techStack
  | .workflow => facts.workflow
  | .projectContext => facts.projectContext

def mergeItem (L : Case) (s : Section) (file : Option Text) (item : Text) : Option Text :=
  if stripChars item = [] then file else setFact L s.key (stripChars item) file

def merge (L : Case) (facts : PreferenceFacts) (file : Option Text) : Option Text :=
  Section.all.foldl (fun file s => (facts.of s).foldl (mergeItem L s) file)
    (some (file.getD prefsTemplate))

/-! What the bullets of a section are, line by line. -/

def enters (current : Option Section) (line : Text) : Option Section :=
  (headed (stripChars line)).or current

def bulletIn (t : Section) (current : Option Section) (line : Text) : List Text :=
  if headed (stripChars line) = none ∧ current = some t ∧ dash <+: stripChars line then
    [stripChars ((stripChars line).drop 2)]
  else []

def bulletsFrom (t : Section) : Option Section → List Text → List Text
  | _, [] => []
  | current, line :: rest =>
    bulletIn t current line ++ bulletsFrom t (enters current line) rest

theorem readLine_current (st : Reading) (line : Text) :
    (readLine st line).current = enters st.current line := by
  simp only [readLine, enters]
  cases headed (stripChars line) with
  | some s => rfl
  | none =>
    cases hc : st.current with
    | none => exact hc
    | some s =>
      change (if _ then _ else _ : Reading).current = some s
      split
      next => exact hc
      next => exact hc

theorem readLine_result (st : Reading) (line : Text) (t : Section) :
    (readLine st line).result t = st.result t ++ bulletIn t st.current line := by
  simp only [readLine, bulletIn]
  cases headed (stripChars line) with
  | some s => simp
  | none =>
    cases hc : st.current with
    | none => simp
    | some s =>
      by_cases hd : dash <+: stripChars line
      · by_cases hs : t = s
        · subst hs
          simp [hd, Reading.add]
        · simp [hd, hs, Ne.symm hs, Reading.add]
      · simp [hd]

theorem foldl_readLine (st : Reading) (lines : List Text) (t : Section) :
    (lines.foldl readLine st).result t = st.result t ++ bulletsFrom t st.current lines := by
  induction lines generalizing st with
  | nil => simp [bulletsFrom]
  | cons line rest ih =>
    rw [List.foldl_cons, ih, readLine_result, readLine_current, List.append_assoc]
    rfl

theorem parseSections_eq (content : Text) (t : Section) :
    parseSections content t = bulletsFrom t none (splitLines content) :=
  foldl_readLine {} (splitLines content) t

theorem bulletsFrom_append (t : Section) (current : Option Section) (xs ys : List Text) :
    bulletsFrom t current (xs ++ ys) =
      bulletsFrom t current xs ++ bulletsFrom t (xs.foldl enters current) ys := by
  induction xs generalizing current with
  | nil => rfl
  | cons x xs ih =>
    rw [List.cons_append, bulletsFrom, bulletsFrom, ih, List.append_assoc]
    rfl

theorem load_some (content : Text) : load (.some content) = content := rfl

theorem headed_header (s : Section) : headed s.header = some s := by
  cases s <;> decide

theorem headed_eq_some {x : Text} {s : Section} : headed x = some s ↔ x = s.header := by
  apply Iff.intro
  · intro h
    simpa [eq_comm] using List.find?_some h
  · intro h
    rw [h, headed_header]

theorem headed_eq_none {x : Text} : headed x = none ↔ ∀ s : Section, x ≠ s.header := by
  rw [Option.eq_none_iff_forall_ne_some]
  exact forall_congr' fun s => not_congr headed_eq_some

theorem sectionOf_key (s : Section) : sectionOf s.key = some s := by
  cases s <;> decide

theorem headed_of_head {x : Text} (h : x.head? ≠ some '#') : headed x = none := by
  apply headed_eq_none.2
  intro s hs
  apply h
  rw [hs]
  cases s <;> rfl

theorem bulletsFrom_dashless {lines : List Text} (h : ∀ line ∈ lines, ¬ dash <+: stripChars line)
    (t : Section) (current : Option Section) : bulletsFrom t current lines = [] := by
  induction lines generalizing current with
  | nil => rfl
  | cons line rest ih =>
    have hin : bulletIn t current line = [] := if_neg fun hb => h line List.mem_cons_self hb.2.2
    rw [bulletsFrom, hin, List.nil_append]
    exact ih (fun l hl => h l (List.mem_cons_of_mem _ hl)) _

theorem bulletsFrom_absent {t : Section} {current : Option Section} {lines : List Text}
    (hc : current ≠ some t) (h : ∀ line ∈ lines, stripChars line ≠ t.header) :
    bulletsFrom t current lines = [] := by
  induction lines generalizing current with
  | nil => rfl
  | cons line rest ih =>
    have hin : bulletIn t current line = [] := if_neg fun hb => hc hb.2.1
    have hne : enters current line ≠ some t := by
      unfold enters
      cases hh : headed (stripChars line) with
      | none => exact hc
      | some s =>
        intro heq
        cases heq
        exact h line List.mem_cons_self (headed_eq_some.1 hh)
    rw [bulletsFrom, hin, List.nil_append]
    exact ih hne fun l hl => h l (List.mem_cons_of_mem _ hl)

theorem enters_blank {line : Text} (h : blank line = true) (current : Option Section) :
    enters current line = current := by
  have hs : stripChars line = [] := of_decide_eq_true h
  rw [enters, hs, headed_of_head (by simp)]
  rfl

theorem bulletsFrom_blanks {blanks : List Text} (h : ∀ line ∈ blanks, blank line = true)
    (t : Section) (current : Option Section) (rest : List Text) :
    bulletsFrom t current (blanks ++ rest) = bulletsFrom t current rest := by
  induction blanks with
  | nil => rfl
  | cons line blanks ih =>
    have hline := h line List.mem_cons_self
    have hin : bulletIn t current line = [] := by
      have hs : stripChars line = [] := of_decide_eq_true hline
      apply if_neg
      rw [hs]
      simp [dash]
    rw [List.cons_append, bulletsFrom, enters_blank hline, hin, List.nil_append,
      ih fun l hl => h l (List.mem_cons_of_mem _ hl)]

/-- A fact as it is written: no white space at its ends, and something between them. -/
structure Plain (fact : Text) : Prop where
  stripped : stripChars fact = fact
  some : fact ≠ []

theorem Plain.line {fact : Text} (h : Plain fact) : stripChars (dash ++ fact) = dash ++ fact := by
  have hlast := (stripChars_eq_self.1 h.stripped).2
  apply stripChars_eq_self.2
  apply And.intro
  · intro c hc
    cases hc
    decide
  · intro c hc
    apply hlast c
    rwa [← List.getLast?_append_of_ne_nil dash h.some]

theorem Plain.headed {fact : Text} (h : Plain fact) :
    headed (stripChars (dash ++ fact)) = none := by
  rw [h.line]
  exact headed_of_head (by simp [dash])

theorem bulletsFrom_bullet {fact : Text} (h : Plain fact) (s t : Section) (rest : List Text) :
    bulletsFrom t (.some s) ((dash ++ fact) :: rest) =
      (if t = s then [fact] else []) ++ bulletsFrom t (.some s) rest := by
  have henters : enters (.some s) (dash ++ fact) = .some s := by
    rw [enters, h.headed]
    rfl
  rw [bulletsFrom, henters, bulletIn, h.headed, h.line]
  by_cases hs : t = s
  · simp [hs, dash, h.stripped]
  · simp [hs, Ne.symm hs]

/-! Where the bullet goes. -/

/-- The lines of a file around the place of a bullet. -/
structure Place (s : Section) where
  pre : List Text
  head : Text
  blanks : List Text
  rest : List Text
  absent : ∀ line ∈ pre, stripChars line ≠ s.header
  headed : stripChars head = s.header
  empty : ∀ line ∈ blanks, blank line = true

def Place.before (p : Place s) : List Text := p.pre ++ p.head :: (p.blanks ++ p.rest)

def Place.after (p : Place s) (bullet : Text) : List Text :=
  p.pre ++ p.head :: (p.blanks ++ bullet :: p.rest)

theorem insertBullet_some {s : Section} {bullet : Text} {lines new : List Text}
    (h : insertBullet s.header bullet lines = some new) :
    ∃ p : Place s, p.before = lines ∧ p.after bullet = new := by
  induction lines generalizing new with
  | nil => cases h
  | cons line rest ih =>
    rw [insertBullet] at h
    split at h
    next hl =>
      cases h
      exact ⟨⟨[], line, rest.takeWhile blank, rest.dropWhile blank, by simp, hl,
        fun l hb => List.mem_takeWhile_imp hb⟩,
        congrArg (line :: ·) (List.takeWhile_append_dropWhile), rfl⟩
    next hl =>
      obtain ⟨new', hn, rfl⟩ := Option.map_eq_some_iff.1 h
      obtain ⟨p, rfl, rfl⟩ := ih hn
      have habsent : ∀ l ∈ line :: p.pre, stripChars l ≠ s.header := by
        intro l hin
        rcases List.mem_cons.1 hin with rfl | hin
        · exact hl
        · exact p.absent l hin
      exact ⟨⟨line :: p.pre, p.head, p.blanks, p.rest, habsent, p.headed, p.empty⟩, rfl, rfl⟩

theorem insertBullet_none {header bullet : Text} {lines : List Text}
    (h : insertBullet header bullet lines = none) : ∀ line ∈ lines, stripChars line ≠ header := by
  induction lines with
  | nil => simp
  | cons line rest ih =>
    rw [insertBullet] at h
    split at h
    next => cases h
    next hl =>
      intro l hin
      rcases List.mem_cons.1 hin with rfl | hin
      · exact hl
      · exact ih (Option.map_eq_none_iff.1 h) l hin

theorem header_stripped (s : Section) : stripChars s.header = s.header := by
  cases s <;> decide

theorem bulletsFrom_head (t : Section) {s : Section} {head : Text} (h : stripChars head = s.header)
    (current : Option Section) (rest : List Text) :
    bulletsFrom t current (head :: rest) = bulletsFrom t (.some s) rest := by
  have hh : headed (stripChars head) = .some s := headed_eq_some.2 h
  have hin : bulletIn t current head = [] := if_neg fun hb => by simp [hh] at hb
  rw [bulletsFrom, hin, enters, hh]
  rfl

theorem newLines_place (s : Section) (fact : Text) (lines : List Text) :
    ∃ p : Place s, newLines s fact lines = p.after (dash ++ fact) ∧
      (∀ t, bulletsFrom t none p.before = bulletsFrom t none lines) ∧
      ∀ line ∈ p.before, line ∈ lines ∨ line = [] ∨ line = s.header := by
  unfold newLines
  cases hi : insertBullet s.header (dash ++ fact) lines with
  | some new =>
    obtain ⟨p, rfl, rfl⟩ := insertBullet_some hi
    exact ⟨p, rfl, fun _ => rfl, fun _ h => .inl h⟩
  | none =>
    have habsent : ∀ line ∈ lines ++ [[]], stripChars line ≠ s.header := by
      intro line hin
      rcases List.mem_append.1 hin with hin | hin
      · exact insertBullet_none hi line hin
      · cases List.mem_singleton.1 hin
        cases s <;> decide
    refine ⟨⟨lines ++ [[]], s.header, [], [], habsent, header_stripped s, by simp⟩, ?_, ?_, ?_⟩
    · simp [Place.after]
    · intro t
      rw [Place.before, List.append_assoc, bulletsFrom_append]
      change _ ++ bulletsFrom t _ ([[]] ++ s.header :: []) = _
      rw [bulletsFrom_blanks (by simp [blank, stripChars]), bulletsFrom_head t (header_stripped s)]
      exact List.append_nil _
    · intro line hin
      simp only [Place.before, List.mem_append, List.mem_cons, List.not_mem_nil, or_false] at hin
      tauto

theorem Place.bullets (p : Place s) {fact : Text} (h : Plain fact) (t : Section) :
    bulletsFrom t none (p.after (dash ++ fact)) =
      (if t = s then [fact] else []) ++ bulletsFrom t none p.before := by
  rw [Place.after, Place.before, bulletsFrom_append, bulletsFrom_append,
    bulletsFrom_head t p.headed, bulletsFrom_head t p.headed, bulletsFrom_blanks p.empty,
    bulletsFrom_blanks p.empty, bulletsFrom_bullet h]
  by_cases hs : t = s
  · rw [hs, bulletsFrom_absent (by simp) p.absent]
    simp
  · simp [hs]

/-! The text of the section behind the bullet. -/

theorem sectionLines_absent {header : Text} {pre : List Text}
    (h : ∀ line ∈ pre, stripChars line ≠ header) (rest : List Text) :
    sectionLines header false (pre ++ rest) = sectionLines header false rest := by
  induction pre with
  | nil => rfl
  | cons line pre ih =>
    rw [List.cons_append, sectionLines, if_neg (h line List.mem_cons_self),
      if_neg Bool.false_ne_true, ih fun l hl => h l (List.mem_cons_of_mem _ hl)]

theorem sectionLines_cons {header line : Text} (hh : stripChars line ≠ header)
    (hs : ¬ ['#', '#', ' '] <+: line) (rest : List Text) :
    sectionLines header true (line :: rest) = line :: sectionLines header true rest := by
  rw [sectionLines, if_neg hh, if_pos rfl, if_neg hs]

theorem header_head (s : Section) : s.header.head? = .some '#' := by
  cases s <;> rfl

theorem sectionLines_blanks {blanks : List Text} (h : ∀ line ∈ blanks, blank line = true)
    (s : Section) (rest : List Text) :
    sectionLines s.header true (blanks ++ rest) = blanks ++ sectionLines s.header true rest := by
  induction blanks with
  | nil => rfl
  | cons line blanks ih =>
    have hline : stripChars line = [] := of_decide_eq_true (h line List.mem_cons_self)
    have hspace := stripChars_eq_nil.1 hline
    have hhead : stripChars line ≠ s.header := by
      intro heq
      have hs := header_head s
      rw [← heq, hline] at hs
      cases hs
    have hsharp : ¬ ['#', '#', ' '] <+: line := by
      intro hpre
      have hsp := hspace '#' (hpre.subset List.mem_cons_self)
      exact absurd hsp (by decide)
    rw [List.cons_append, sectionLines_cons hhead hsharp,
      ih fun l hl => h l (List.mem_cons_of_mem _ hl)]
    rfl

theorem Place.sectionLines (p : Place s) {fact : Text} (h : Plain fact) :
    ∃ more, sectionLines s.header false (p.after (dash ++ fact)) =
      p.blanks ++ (dash ++ fact) :: more := by
  have hhead : stripChars (dash ++ fact) ≠ s.header := by
    rw [h.line]
    intro heq
    have hs := header_head s
    rw [← heq] at hs
    cases hs
  have hsharp : ¬ ['#', '#', ' '] <+: dash ++ fact := by simp [dash]
  refine ⟨Preferences.sectionLines s.header true p.rest, ?_⟩
  rw [Place.after, sectionLines_absent p.absent, Preferences.sectionLines, if_pos p.headed,
    sectionLines_blanks p.empty, sectionLines_cons hhead hsharp]

theorem intercalate_blanks {blanks : List Text} (h : ∀ line ∈ blanks, blank line = true)
    (line : Text) (more : List Text) : ∃ u v, (∀ c ∈ u, isSpace c = true) ∧
      ['\n'].intercalate (blanks ++ line :: more) = u ++ line ++ v ∧
      (v = [] ∨ ∃ v', v = '\n' :: v') := by
  induction blanks with
  | nil =>
    cases more with
    | nil => exact ⟨[], [], by simp, by simp, .inl rfl⟩
    | cons m more =>
      refine ⟨[], '\n' :: ['\n'].intercalate (m :: more), by simp, ?_, .inr ⟨_, rfl⟩⟩
      rw [List.nil_append, List.intercalate_cons_cons, List.append_assoc]
      rfl
  | cons b blanks ih =>
    obtain ⟨u, v, hu, heq, hv⟩ := ih fun l hl => h l (List.mem_cons_of_mem _ hl)
    have hb : ∀ c ∈ b, isSpace c = true :=
      stripChars_eq_nil.1 (of_decide_eq_true (h b List.mem_cons_self))
    have hne : blanks ++ line :: more ≠ [] := by simp
    obtain ⟨x, xs, hx⟩ := List.exists_cons_of_ne_nil hne
    refine ⟨b ++ '\n' :: u, v, ?_, ?_, hv⟩
    · intro c hc
      rcases List.mem_append.1 hc with hc | hc
      · exact hb c hc
      · rcases List.mem_cons.1 hc with rfl | hc
        · decide
        · exact hu c hc
    · rw [List.cons_append, hx, List.intercalate_cons_cons, ← hx, heq]
      simp

theorem Case.infix_after_dash (L : Case) (fact : Text) {w : Text}
    (hw : w = [] ∨ ∃ w', w = '\n' :: w') : L.lower fact <:+: L.lower (dash ++ fact ++ w) := by
  have hdash : L.lower (dash ++ fact ++ w) = L.lower ['-'] ++ ' ' :: L.lower (fact ++ w) :=
    L.lower_space ['-'] ' ' (fact ++ w) (by decide)
  rcases hw with rfl | ⟨w', rfl⟩
  · rw [hdash, List.append_nil]
    exact ⟨L.lower ['-'] ++ [' '], [], by simp⟩
  · rw [hdash, L.lower_space fact '\n' w' (by decide)]
    exact ⟨L.lower ['-'] ++ [' '], '\n' :: L.lower w', by simp⟩

theorem Place.duplicate (L : Case) (p : Place s) {fact : Text} (h : Plain fact)
    {content : Text} (hc : splitLines content = p.after (dash ++ fact)) :
    Duplicate L s fact (.some content) := by
  obtain ⟨more, hlines⟩ := p.sectionLines h
  obtain ⟨u, v, hu, heq, hv⟩ := intercalate_blanks p.empty (dash ++ fact) more
  have hload : loadSection (.some content) s = dash ++ fact ++ v.rdropWhile isSpace := by
    change stripChars (['\n'].intercalate (Preferences.sectionLines _ _ (splitLines content))) = _
    rw [hc, hlines, heq, stripChars_around hu h.line (by simp [dash])]
  unfold Duplicate
  rw [hload]
  apply L.infix_after_dash
  rcases hv with rfl | ⟨v', rfl⟩
  · exact .inl rfl
  · have hpre := List.rdropWhile_prefix isSpace ('\n' :: v')
    cases hr : ('\n' :: v').rdropWhile isSpace with
    | nil => exact .inl rfl
    | cons d w =>
      rw [hr] at hpre
      cases (List.cons_prefix_cons.1 hpre).1
      exact .inr ⟨w, rfl⟩

/-! One fact. -/

theorem setFact_blank (L : Case) (s : Section) {fact : Text} (h : stripChars fact = [])
    (file : Option Text) : setFact L s.key fact file = file := by
  unfold setFact
  rw [sectionOf_key]
  exact if_pos h

theorem setFact_duplicate {L : Case} {s : Section} {fact : Text} {file : Option Text}
    (h : stripChars fact ≠ [])
    (hd : Duplicate L s (stripChars fact) (.some (file.getD prefsTemplate))) :
    setFact L s.key fact file = .some (file.getD prefsTemplate) := by
  unfold setFact
  rw [sectionOf_key]
  simp only [if_neg h, if_pos hd]

def written (s : Section) (fact content : Text) : Text :=
  ['\n'].intercalate (newLines s fact (splitLines content)) ++ ['\n']

theorem setFact_new {L : Case} {s : Section} {fact : Text} {file : Option Text}
    (h : stripChars fact ≠ [])
    (hd : ¬ Duplicate L s (stripChars fact) (.some (file.getD prefsTemplate))) :
    setFact L s.key fact file =
      .some (written s (stripChars fact) (file.getD prefsTemplate)) := by
  unfold setFact
  rw [sectionOf_key]
  simp only [if_neg h, if_neg hd]
  rfl

theorem dash_unbroken : ∀ c ∈ dash, lineBreak c = false := by
  have hall : dash.all (fun c => !lineBreak c) = true := by decide
  simpa using hall

theorem header_unbroken (s : Section) : ∀ c ∈ s.header, lineBreak c = false := by
  have hall : s.header.all (fun c => !lineBreak c) = true := by cases s <;> decide
  simpa using hall

theorem prefsTemplate_dashless :
    ∀ line ∈ splitLines prefsTemplate, ¬ dash <+: stripChars line := by
  have hall : ((splitLines prefsTemplate).all fun line =>
      !dash.isPrefixOf (stripChars line)) = true := by decide +kernel
  intro line hline hdash
  have hline' := List.all_eq_true.1 hall line hline
  rw [List.isPrefixOf_iff_prefix.2 hdash] at hline'
  cases hline'

theorem parseSections_ensured (file : Option Text) (t : Section) :
    parseSections (file.getD prefsTemplate) t = parseSections (load file) t := by
  cases file with
  | some content => rw [Option.getD_some, load_some]
  | none =>
    rw [parseSections_eq, Option.getD_none, bulletsFrom_dashless prefsTemplate_dashless t none]
    rfl

theorem parseSections_unbroken {content b : Text} {t : Section}
    (h : b ∈ parseSections content t) : ∀ c ∈ b, lineBreak c = false := by
  rw [parseSections_eq] at h
  have hlines : ∀ l ∈ splitLines content, ∀ c ∈ l, lineBreak c = false :=
    fun _ hl => splitLines_unbroken hl
  generalize splitLines content = lines at h hlines
  generalize (none : Option Section) = current at h
  induction lines generalizing current with
  | nil => cases h
  | cons line rest ih =>
    rw [bulletsFrom] at h
    rcases List.mem_append.1 h with h | h
    · unfold bulletIn at h
      split at h
      · cases List.mem_singleton.1 h
        intro c hc
        have hin := (stripChars_sublist line).subset
          (List.mem_of_mem_drop ((stripChars_sublist _).subset hc))
        exact hlines line List.mem_cons_self c hin
      · cases h
    · exact ih (fun l hl => hlines l (List.mem_cons_of_mem _ hl)) _ h

theorem written_reads (L : Case) (s : Section) {fact : Text} (h : Plain fact)
    (hf : ∀ c ∈ fact, lineBreak c = false) (content : Text) :
    (∀ t, parseSections (written s fact content) t =
      (if t = s then [fact] else []) ++ parseSections content t) ∧
    Duplicate L s fact (.some (written s fact content)) := by
  obtain ⟨p, hnew, hsame, hfrom⟩ := newLines_place s fact (splitLines content)
  have hbefore : ∀ l ∈ p.before, ∀ c ∈ l, lineBreak c = false := by
    intro l hl
    rcases hfrom l hl with hl | rfl | rfl
    · exact splitLines_unbroken hl
    · simp
    · exact header_unbroken s
  have hafter : ∀ l ∈ p.after (dash ++ fact), ∀ c ∈ l, lineBreak c = false := by
    intro l hl
    have hl' : l ∈ p.before ∨ l = dash ++ fact := by
      simp only [Place.after, Place.before, List.mem_append, List.mem_cons] at hl ⊢
      tauto
    rcases hl' with hl' | rfl
    · exact hbefore l hl'
    · intro c hc
      rcases List.mem_append.1 hc with hc | hc
      · exact dash_unbroken c hc
      · exact hf c hc
  have hread : splitLines (written s fact content) = p.after (dash ++ fact) := by
    rw [written, hnew, intercalate_newline (by simp [Place.after]), splitLines_written hafter]
  apply And.intro
  · intro t
    rw [parseSections_eq, parseSections_eq, hread, p.bullets h, hsame]
  · exact p.duplicate L h hread

def Occurs (L : Case) (s : Section) (fact : Text) (file : Option Text) : Prop :=
  stripChars fact = [] ∨
    ∃ b ∈ parseSections (load file) s, L.lower (stripChars fact) <:+: L.lower b

/-- The edit is one bullet in its section, or nothing where the fact occurs already. -/
structure Kept (L : Case) (s : Section) (fact : Text) (file : Option Text) : Prop where
  others : ∀ t, t ≠ s → parseSections (load (setFact L s.key fact file)) t =
    parseSections (load file) t
  present : Occurs L s fact file →
    parseSections (load (setFact L s.key fact file)) s = parseSections (load file) s
  added : ¬ Occurs L s fact file → ∃ a b, parseSections (load file) s = a ++ b ∧
    parseSections (load (setFact L s.key fact file)) s = a ++ stripChars fact :: b
  again : setFact L s.key fact (setFact L s.key fact file) = setFact L s.key fact file

theorem Case.unbroken_of_infix (L : Case) {fact b : Text} (h : L.lower fact <:+: L.lower b)
    (hb : ∀ c ∈ b, lineBreak c = false) : ∀ c ∈ fact, lineBreak c = false := by
  intro c hc
  cases hbreak : lineBreak c with
  | false => rfl
  | true =>
    obtain ⟨x, y, rfl⟩ := List.append_of_mem hc
    rw [L.lower_space x c y (isSpace_of_lineBreak hbreak)] at h
    have hin := h.subset (List.mem_append_right _ List.mem_cons_self)
    exact hbreak.symm.trans (L.lower_unbroken b hb c hin)

theorem Occurs.unbroken {L : Case} {s : Section} {fact : Text} {file : Option Text}
    (h : Occurs L s fact file) : ∀ c ∈ stripChars fact, lineBreak c = false := by
  rcases h with h | ⟨b, hb, hin⟩
  · simp [h]
  · exact L.unbroken_of_infix hin (parseSections_unbroken hb)

theorem kept_duplicate_iff {L : Case} {s : Section} {fact : Text} {file : Option Text}
    (h : stripChars fact ≠ [])
    (hd : Duplicate L s (stripChars fact) (.some (file.getD prefsTemplate))) :
    Kept L s fact file ↔ Occurs L s fact file := by
  have hset := setFact_duplicate h hd
  have hparse (t) : parseSections (load (setFact L s.key fact file)) t =
      parseSections (load file) t := by
    rw [hset, load_some]
    exact parseSections_ensured file t
  apply Iff.intro
  · intro hk
    by_contra hn
    obtain ⟨a, b, hold, hnew⟩ := hk.added hn
    rw [hparse, hold] at hnew
    have hlen := congrArg List.length hnew
    simp at hlen
  · intro ho
    have hagain : setFact L s.key fact (.some (file.getD prefsTemplate)) =
        .some (file.getD prefsTemplate) := setFact_duplicate h hd
    exact ⟨fun t _ => hparse t, fun _ => hparse s, fun hn => absurd ho hn, by
      rw [hset, hagain]⟩

theorem kept_new_iff {L : Case} {s : Section} {fact : Text} {file : Option Text}
    (h : stripChars fact ≠ [])
    (hd : ¬ Duplicate L s (stripChars fact) (.some (file.getD prefsTemplate))) :
    Kept L s fact file ↔
      (∀ c ∈ stripChars fact, lineBreak c = false) ∧ ¬ Occurs L s fact file := by
  have hset := setFact_new h hd
  have hplain : Plain (stripChars fact) := ⟨stripChars_stripChars fact, h⟩
  by_cases hf : ∀ c ∈ stripChars fact, lineBreak c = false
  · obtain ⟨hreads, hdup⟩ := written_reads L s hplain hf (file.getD prefsTemplate)
    have hparse (t) : parseSections (load (setFact L s.key fact file)) t =
        (if t = s then [stripChars fact] else []) ++ parseSections (load file) t := by
      rw [hset, ← parseSections_ensured file]
      exact hreads t
    rw [and_iff_right hf]
    apply Iff.intro
    · intro hk ho
      have hp := hk.present ho
      rw [hparse, if_pos rfl] at hp
      exact List.cons_ne_self _ _ hp
    · intro hn
      apply Kept.mk
      · intro t ht
        rw [hparse, if_neg ht]
        rfl
      · intro ho
        exact absurd ho hn
      · intro _
        rw [hparse, if_pos rfl]
        exact ⟨[], _, rfl, rfl⟩
      · rw [hset]
        exact setFact_duplicate h hdup
  · apply iff_of_false
    · intro hk
      have hn : ¬ Occurs L s fact file := fun ho => hf ho.unbroken
      obtain ⟨a, b, _, hnew⟩ := hk.added hn
      apply hf
      apply parseSections_unbroken (t := s)
      rw [hnew]
      exact List.mem_append_right a List.mem_cons_self
    · exact fun hn => hf hn.1

theorem setFact_kept_iff (L : Case) (s : Section) (fact : Text) (file : Option Text) :
    Kept L s fact file ↔ (∀ c ∈ stripChars fact, lineBreak c = false) ∧
      (Duplicate L s (stripChars fact) (.some (file.getD prefsTemplate)) ↔
        Occurs L s fact file) := by
  by_cases h : stripChars fact = []
  · have ho : Occurs L s fact file := .inl h
    have hd : Duplicate L s (stripChars fact) (.some (file.getD prefsTemplate)) := by
      unfold Duplicate
      rw [h, L.lower_nil]
      exact List.nil_infix
    have hset := setFact_blank L s h
    apply iff_of_true
    · exact ⟨fun t _ => by rw [hset], fun _ => by rw [hset], fun hn => absurd ho hn,
        by rw [hset, hset]⟩
    · exact ⟨ho.unbroken, iff_of_true hd ho⟩
  · by_cases hd : Duplicate L s (stripChars fact) (.some (file.getD prefsTemplate))
    · rw [kept_duplicate_iff h hd, iff_true_left hd]
      exact ⟨fun ho => ⟨ho.unbroken, ho⟩, And.right⟩
    · rw [kept_new_iff h hd, iff_false_left hd]

/-! Many facts. -/

theorem setFact_suffix (L : Case) (s t : Section) {fact : Text}
    (hf : ∀ c ∈ stripChars fact, lineBreak c = false) (file : Option Text) :
    parseSections (load file) t <:+ parseSections (load (setFact L s.key fact file)) t := by
  by_cases h : stripChars fact = []
  · rw [setFact_blank L s h]
  rw [← parseSections_ensured file]
  by_cases hd : Duplicate L s (stripChars fact) (.some (file.getD prefsTemplate))
  · rw [setFact_duplicate h hd, load_some]
  · rw [setFact_new h hd, load_some]
    have hreads := (written_reads L s ⟨stripChars_stripChars fact, h⟩ hf
      (file.getD prefsTemplate)).1 t
    exact ⟨_, hreads.symm⟩

theorem foldl_mergeItem_suffix (L : Case) (s t : Section) {items : List Text}
    (h : ∀ item ∈ items, ∀ c ∈ stripChars item, lineBreak c = false) (file : Option Text) :
    parseSections (load file) t <:+
      parseSections (load (items.foldl (mergeItem L s) file)) t := by
  induction items generalizing file with
  | nil => exact List.suffix_rfl
  | cons item items ih =>
    have hstep : parseSections (load file) t <:+
        parseSections (load (mergeItem L s file item)) t := by
      unfold mergeItem
      split
      next => exact List.suffix_rfl
      next =>
        apply setFact_suffix
        rw [stripChars_stripChars]
        exact h item List.mem_cons_self
    exact hstep.trans (ih (fun i hi => h i (List.mem_cons_of_mem _ hi)) _)

theorem merge_suffix (L : Case) (facts : PreferenceFacts) (file : Option Text) (t : Section)
    (h : ∀ s, ∀ item ∈ facts.of s, ∀ c ∈ stripChars item, lineBreak c = false) :
    parseSections (load file) t <:+ parseSections (load (merge L facts file)) t := by
  have hfold (sections : List Section) (start : Option Text) : parseSections (load start) t <:+
      parseSections (load (sections.foldl
        (fun file s => (facts.of s).foldl (mergeItem L s) file) start)) t := by
    induction sections generalizing start with
    | nil => exact List.suffix_rfl
    | cons s sections ih => exact (foldl_mergeItem_suffix L s t (h s) start).trans (ih _)
  have hrun := hfold Section.all (.some (file.getD prefsTemplate))
  rw [load_some, parseSections_ensured] at hrun
  exact hrun

theorem toLower_cases (c : Char) :
    c.toLower = c ∨ 65 ≤ c.toNat ∧ c.toNat ≤ 90 ∧ c.toLower.toNat = c.toNat + 32 := by
  unfold Char.toLower
  split
  next h =>
    obtain ⟨hlow, hhigh⟩ := h
    have hlow' : 65 ≤ c.val.toNat := hlow
    have hhigh' : c.val.toNat ≤ 90 := hhigh
    apply Or.inr
    apply And.intro hlow'
    apply And.intro hhigh'
    change (c.val + ('a'.val - 'A'.val)).toNat = c.val.toNat + 32
    rw [UInt32.toNat_add]
    change (c.val.toNat + 32) % 4294967296 = _
    omega
  next => exact .inl rfl

theorem not_isSpace_letter {c : Char} (hlow : 65 ≤ c.toNat) (hhigh : c.toNat ≤ 122) :
    isSpace c = false := by
  simp [isSpace]
  omega

def asciiCase : Case where
  lower := List.map Char.toLower
  lower_nil := rfl
  lower_space a d b hd := by
    have hlower : d.toLower = d := by
      rcases toLower_cases d with h | ⟨hlow, hhigh, _⟩
      · exact h
      · rw [not_isSpace_letter hlow (by omega)] at hd
        cases hd
    rw [List.map_append, List.map_cons, hlower]
  lower_unbroken a ha c hc := by
    obtain ⟨d, hd, rfl⟩ := List.mem_map.1 hc
    rcases toLower_cases d with h | ⟨hlow, hhigh, h⟩
    · rw [h]
      exact ha d hd
    · cases hb : lineBreak d.toLower with
      | false => rfl
      | true =>
        have hs := isSpace_of_lineBreak hb
        rw [not_isSpace_letter (by omega) (by omega)] at hs
        cases hs

/-- A fact of several lines is read as a header and as bullets of another section. -/
theorem setFact_other_section :
    ¬ Kept asciiCase .techStack "uv\n## Flujo de Trabajo\n- force push".toList none := by
  intro hk
  exact absurd (hk.others .workflow (by decide)) (by decide +kernel)

end Prismal.Memory.Preferences
