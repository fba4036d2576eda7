import Prismal.Lib.JsonReader
import Prismal.Lib.Lines
import Prismal.Providers.Batch

namespace Prismal.Providers
open Prismal.Lib Prismal.Lib.Json Prismal.Budget
set_option autoImplicit true

/-! The results of a provider batch, one JSON object a line. -/

/-- What Python makes of values that are not strings: their text, and whether a number is zero. -/
structure PythonValues where
  str : Tree → String
  isZero : String → Bool

namespace PythonValues
variable (py : PythonValues)

/-- `str(value)` -/
def text : Tree → String
  | .str s => s
  | t => py.str t

def truthy : Tree → Bool
  | .null => false
  | .bool b => b
  | .num t => !py.isZero t
  | .str s => decide (s ≠ "")
  | .arr xs => !xs.isEmpty
  | .obj es => !es.isEmpty

end PythonValues

def intOf : Tree → Option Int
  | .num t => if t.toList.all fun c => c.isDigit || c == '-' then t.toInt? else none
  | _ => none

def asInt (t : Tree) : Int := (intOf t).getD 0

/-- `_mapping` -/
def mappingOf : Tree → Option (List (String × Tree))
  | .obj es => some es
  | _ => none

def member (es : List (String × Tree)) (key : String) : Option Tree :=
  (es.reverse.find? fun e => e.1 == key).map Prod.snd

/-- `get`: null without such a member. -/
def getMember (es : List (String × Tree)) (key : String) : Tree := (member es key).getD .null

/-- `x or {}` for a mapping. -/
def mappingAt (es : List (String × Tree)) (key : String) : List (String × Tree) :=
  (mappingOf (getMember es key)).getD []

/-- `_text_of` -/
def textOf (py : PythonValues) : Tree → Option String
  | .str s => some s
  | .arr xs =>
    some (String.join ((xs.filterMap mappingOf).filterMap fun block =>
      match (member block "type").getD (.str "text") with
      | .str "text" => some (py.text ((member block "text").getD (.str "")))
      | _ => none))
  | _ => none

/-- `_usage` -/
def usageOf (prompt completion : Int) : Usage :=
  { promptTokens := prompt, completionTokens := completion, calls := 1 }

def isSucceeded : Tree → Bool
  | .str s => s == "succeeded"
  | _ => false

/-- `x or y` -/
def PythonValues.or (py : PythonValues) (a b : Tree) : Tree := if py.truthy a then a else b

def anthropicResult (py : PythonValues) (cid : String) (result : List (String × Tree)) :
    BatchResult :=
  let kind := getMember result "type"
  if isSucceeded kind then
    let message := mappingAt result "message"
    let usage := mappingAt message "usage"
    { customId := cid
      content := textOf py (getMember message "content")
      usage := usageOf (asInt (getMember usage "input_tokens"))
        (asInt (getMember usage "output_tokens")) }
  else
    { customId := cid, content := none, error := some (py.text (py.or kind (.str "unknown"))) }

def firstChoice (py : PythonValues) (body : List (String × Tree)) : Option String :=
  match getMember body "choices" with
  | .arr (first :: _) =>
    (mappingOf first).bind fun first =>
      (mappingOf (getMember first "message")).bind fun msg => textOf py (getMember msg "content")
  | _ => none

def openaiResult (py : PythonValues) (cid : String) (line : List (String × Tree)) : BatchResult :=
  let error := getMember line "error"
  if py.truthy error then
    let reason :=
      match mappingOf error with
      | some e => py.or (py.or (getMember e "code") (getMember e "message")) (.str "error")
      | none => error
    { customId := cid, content := none, error := some (py.text reason) }
  else
    match mappingOf (getMember line "response") with
    | none => { customId := cid, content := none, error := some "missing_response" }
    | some response =>
      match (intOf (getMember response "status_code")).filter fun n => decide (400 ≤ n) with
      | some status =>
        { customId := cid, content := none, error := some ("http_" ++ toString status) }
      | none =>
        let body := mappingAt response "body"
        let usage := mappingAt body "usage"
        { customId := cid
          content := firstChoice py body
          usage := usageOf (asInt (getMember usage "prompt_tokens"))
            (asInt (getMember usage "completion_tokens")) }

/-- `_parse_line`: nothing without a mapping that has a string `custom_id`. -/
def parseLine (py : PythonValues) (item : Tree) : Option BatchResult :=
  match mappingOf item with
  | none => none
  | some line =>
    match getMember line "custom_id" with
    | .str cid =>
      match mappingOf (getMember line "result") with
      | some result => some (anthropicResult py cid result)
      | none => some (openaiResult py cid line)
    | _ => none

/-- `_iter_jsonl`: the values of the lines that are not blank and can be read. -/
def iterJsonl (text : List Char) : List Tree :=
  (splitLines text).filterMap fun line =>
    if (stripChars line).isEmpty then none else loads line

/-- `_parse_jsonl` -/
def parseJsonl (py : PythonValues) (text : List Char) : List BatchResult :=
  (iterJsonl text).filterMap (parseLine py)

def lineResult (py : PythonValues) (line : List Char) : Option BatchResult :=
  (if (stripChars line).isEmpty then none else loads line).bind (parseLine py)

theorem parseJsonl_eq (py : PythonValues) (text : List Char) :
    parseJsonl py text = (splitLines text).filterMap (lineResult py) := by
  rw [parseJsonl, iterJsonl, List.filterMap_filterMap]
  rfl

/-- A result object that is serialised as one line of valid JSON. -/
structure ResultLine where
  line : List Char
  object : List (String × Tree)
  customId : String
  oneLine : '\n' ∉ line ∧ '\r' ∉ line
  valid : loads line = some (.obj object)
  identified : getMember object "custom_id" = .str customId

/-- The characters that end a line for `splitlines` and may stand in a JSON string as they are. -/
def isSeparator (c : Char) : Bool := c == '\u0085' || c == '\u2028' || c == '\u2029'

theorem lexStep_of_mem (h : lexRun m cs = some r) (hc : c ∈ cs) :
    ∃ m' r', lexStep m' c = some r' := by
  induction cs generalizing m r with
  | nil => cases hc
  | cons d cs ih =>
    obtain ⟨r₁, r₂, h₁, h₂, rfl⟩ := lexRun_cons h
    cases List.mem_cons.1 hc with
    | inl heq => exact ⟨m, r₁, heq ▸ h₁⟩
    | inr hc => exact ih h₂ hc

theorem lineBreak_spec (hbreak : lineBreak c = true) (hline : c ≠ '\n' ∧ c ≠ '\r') :
    outChar c = false ∧ c ≠ '"' ∧ ¬ (c = 'u' ∨ (escapes.any fun p => p.1 == c) = true) := by
  have hall : (lineBreaks.all fun d => decide (d ≠ '\n' ∧ d ≠ '\r' →
      outChar d = false ∧ d ≠ '"' ∧ ¬ (d = 'u' ∨ (escapes.any fun p => p.1 == d) = true))) =
        true := by
    decide
  exact of_decide_eq_true (List.all_eq_true.1 hall c (List.contains_iff_mem.1 hbreak)) hline

theorem isSeparator_of_valid (h : lexRun m cs = some r) (hc : c ∈ cs)
    (hbreak : lineBreak c = true) (hline : c ≠ '\n' ∧ c ≠ '\r') : isSeparator c = true := by
  obtain ⟨m', r', hstep⟩ := lexStep_of_mem h hc
  obtain ⟨hout, hquote, hescape⟩ := lineBreak_spec hbreak hline
  obtain ⟨raw, _, rfl, _⟩ := quoted_of_lexStep hout hquote hescape hstep
  have hslash : c ≠ '\\' := fun heq => hescape (Or.inr (heq ▸ by decide))
  rw [lexStep, if_neg hquote, if_neg hslash] at hstep
  split at hstep
  · cases hstep
  next hcontrol =>
    have hall : (lineBreaks.all fun d => decide (¬ d.toNat < 32 → isSeparator d = true)) =
        true := by decide
    exact of_decide_eq_true (List.all_eq_true.1 hall c (List.contains_iff_mem.1 hbreak)) hcontrol

def Inside (p : List Char) : Prop := ∃ raw r, lexRun (.quoted raw) p = some r

def Unclosed (p : List Char) : Prop :=
  ∃ r raw, lexRun (.plain []) p = some r ∧ r.2 = .quoted raw

theorem lexRun_snoc (hline : lexRun m₀ line.reverse = some (u, m)) (hstep : lexStep m c = some r) :
    lexRun m₀ (c :: line).reverse = some (u ++ r.1, r.2) := by
  rw [List.reverse_cons, lexRun_append, hline, Option.bind_some, lexRun, hstep, Option.bind_some,
    lexRun, Option.map_some, Option.map_some, List.append_nil]

theorem inside_pieces (hcs : ∀ c ∈ cs, c ≠ '\n' ∧ c ≠ '\r')
    (hline : lexRun (.quoted raw) line.reverse = some (u, m)) (h : lexRun m cs = some r) :
    ∀ p ∈ piecesFrom line cs, Inside p := by
  induction cs generalizing raw line u m r with
  | nil =>
    intro p hp
    rw [List.mem_singleton.1 hp]
    exact ⟨raw, _, hline⟩
  | cons c cs ih =>
    obtain ⟨r₁, r₂, hstep, hrest, _⟩ := lexRun_cons h
    have htail : ∀ d ∈ cs, d ≠ '\n' ∧ d ≠ '\r' := fun d hd => hcs d (List.mem_cons_of_mem _ hd)
    rw [piecesFrom]
    by_cases hbreak : lineBreak c = true
    · obtain ⟨hout, hquote, hescape⟩ := lineBreak_spec hbreak (hcs c List.mem_cons_self)
      obtain ⟨_, raw', _, hraw⟩ := quoted_of_lexStep hout hquote hescape hstep
      rw [hraw] at hrest
      rw [if_pos hbreak]
      intro p hp
      cases List.mem_cons.1 hp with
      | inl heq => exact heq ▸ ⟨raw, _, hline⟩
      | inr hp =>
        have hempty : lexRun (.quoted raw') ([] : List Char).reverse =
            some ([], .quoted raw') := rfl
        exact ih htail hempty hrest p hp
    · rw [if_neg hbreak]
      exact ih htail (lexRun_snoc hline hstep) hrest

theorem broken_pieces (hcs : ∀ c ∈ cs, c ≠ '\n' ∧ c ≠ '\r')
    (hline : lexRun (.plain []) line.reverse = some (u, m)) (h : lexRun m cs = some r)
    (hbroken : ∃ c ∈ cs, lineBreak c = true) :
    ∀ p ∈ piecesFrom line cs, Unclosed p ∨ Inside p := by
  induction cs generalizing line u m r with
  | nil =>
    obtain ⟨c, hc, _⟩ := hbroken
    cases hc
  | cons c cs ih =>
    obtain ⟨r₁, r₂, hstep, hrest, _⟩ := lexRun_cons h
    have htail : ∀ d ∈ cs, d ≠ '\n' ∧ d ≠ '\r' := fun d hd => hcs d (List.mem_cons_of_mem _ hd)
    rw [piecesFrom]
    by_cases hbreak : lineBreak c = true
    · obtain ⟨hout, hquote, hescape⟩ := lineBreak_spec hbreak (hcs c List.mem_cons_self)
      obtain ⟨raw, raw', hm, hraw⟩ := quoted_of_lexStep hout hquote hescape hstep
      rw [hraw] at hrest
      rw [if_pos hbreak]
      intro p hp
      cases List.mem_cons.1 hp with
      | inl heq => exact Or.inl (heq ▸ ⟨_, raw, hline, hm⟩)
      | inr hp =>
        have hempty : lexRun (.quoted raw') ([] : List Char).reverse =
            some ([], .quoted raw') := rfl
        exact Or.inr (inside_pieces htail hempty hrest p hp)
    · rw [if_neg hbreak]
      apply ih htail (lexRun_snoc hline hstep) hrest
      obtain ⟨d, hd, hdbreak⟩ := hbroken
      cases List.mem_cons.1 hd with
      | inl heq => exact absurd (heq ▸ hdbreak) hbreak
      | inr hd => exact ⟨d, hd, hdbreak⟩

theorem lineResult_of_piece (py : PythonValues) (h : Unclosed p ∨ Inside p) :
    lineResult py p = none := by
  rw [lineResult]
  split
  · rfl
  cases h with
  | inl hopen =>
    obtain ⟨r, raw, hrun, hr⟩ := hopen
    rw [loads_of_open hrun hr]
    rfl
  | inr hinside =>
    obtain ⟨raw, r, hrun⟩ := hinside
    cases hloads : loads p with
    | none => rfl
    | some t =>
      rw [Option.bind_some, parseLine]
      cases t with
      | obj es =>
        have hnone : member es "custom_id" = none := by
          rw [member, Option.map_eq_none_iff, List.find?_eq_none]
          intro e he hkey
          have hout := keys_of_inside hloads hrun (List.mem_reverse.1 he) '_'
          rw [beq_iff_eq.1 hkey] at hout
          exact absurd (hout (by decide)) (by decide)
        simp [mappingOf, getMember, hnone]
      | null => rfl
      | bool b => rfl
      | num t => rfl
      | str s => rfl
      | arr xs => rfl

namespace ResultLine

def result (py : PythonValues) (l : ResultLine) : BatchResult :=
  match mappingOf (getMember l.object "result") with
  | some result => anthropicResult py l.customId result
  | none => openaiResult py l.customId l.object

def Plain (l : ResultLine) : Prop := ∀ c ∈ l.line, isSeparator c = false

theorem parseLine_eq (py : PythonValues) (l : ResultLine) :
    parseLine py (.obj l.object) = some (l.result py) := by
  rw [parseLine, mappingOf, result]
  dsimp only
  rw [l.identified]
  dsimp only
  split <;> rfl

theorem lexed (l : ResultLine) : ∃ r, lexRun (.plain []) l.line = some r := by
  obtain ⟨ts, hts, _⟩ := Option.bind_eq_some_iff.1 l.valid
  obtain ⟨r, hr, _⟩ := Option.bind_eq_some_iff.1 hts
  exact ⟨r, hr⟩

theorem not_newline (l : ResultLine) : ∀ c ∈ l.line, c ≠ '\n' ∧ c ≠ '\r' :=
  fun _ hc => ⟨fun heq => l.oneLine.1 (heq ▸ hc), fun heq => l.oneLine.2 (heq ▸ hc)⟩

theorem results (py : PythonValues) (l : ResultLine) :
    (l.Plain → (piecesFrom [] l.line).filterMap (lineResult py) = [l.result py]) ∧
      (¬ l.Plain → (piecesFrom [] l.line).filterMap (lineResult py) = []) := by
  obtain ⟨r, hr⟩ := l.lexed
  apply And.intro
  · intro hplain
    have hunbroken : ∀ c ∈ l.line, lineBreak c = false := by
      intro c hc
      by_contra hbreak
      have hsep := isSeparator_of_valid hr hc (Bool.eq_true_of_not_eq_false hbreak)
        (l.not_newline c hc)
      rw [hplain c hc] at hsep
      cases hsep
    have hblank : (stripChars l.line).isEmpty = false := by
      by_contra hempty
      rw [Bool.not_eq_false, List.isEmpty_iff, stripChars_eq_nil] at hempty
      have hnone := loads_of_blank hempty
      rw [l.valid] at hnone
      cases hnone
    have hresult : lineResult py l.line = some (l.result py) := by
      rw [lineResult, hblank, if_neg Bool.false_ne_true, l.valid, Option.bind_some, parseLine_eq]
    rw [piecesFrom_of_unbroken hunbroken, List.reverse_nil, List.nil_append,
      List.filterMap_cons_some hresult, List.filterMap_nil]
  · intro hbroken
    rw [List.filterMap_eq_nil_iff]
    intro p hp
    apply lineResult_of_piece
    have hempty : lexRun (.plain []) ([] : List Char).reverse = some ([], .plain []) := rfl
    refine broken_pieces l.not_newline hempty hr ?_ p hp
    rw [Plain] at hbroken
    push Not at hbroken
    obtain ⟨c, hc, hsep⟩ := hbroken
    refine ⟨c, hc, ?_⟩
    have hall : ∀ c, isSeparator c = true → lineBreak c = true := by
      intro c hc
      rw [isSeparator, Bool.or_eq_true, Bool.or_eq_true, beq_iff_eq, beq_iff_eq, beq_iff_eq] at hc
      obtain (rfl | rfl) | rfl := hc <;> decide
    exact hall c (Bool.eq_true_of_not_eq_false hsep)

def joined (lines : List ResultLine) : List Char := ['\n'].intercalate (lines.map line)

theorem parseJsonl_joined (py : PythonValues) (lines : List ResultLine) :
    parseJsonl py (joined lines) =
      lines.flatMap fun l => (piecesFrom [] l.line).filterMap (lineResult py) := by
  have hnone : lineResult py [] = none := rfl
  rw [parseJsonl_eq, joined, filterMap_splitLines hnone, List.flatMap_map]
  intro cs hcs
  obtain ⟨l, _, rfl⟩ := List.mem_map.1 hcs
  exact l.oneLine.2

theorem parseJsonl_cons (py : PythonValues) (l : ResultLine) (lines : List ResultLine) :
    parseJsonl py (joined (l :: lines)) =
      (piecesFrom [] l.line).filterMap (lineResult py) ++ parseJsonl py (joined lines) := by
  rw [parseJsonl_joined, List.flatMap_cons, ← parseJsonl_joined]

theorem length_parseJsonl_le (py : PythonValues) (lines : List ResultLine) :
    (parseJsonl py (joined lines)).length ≤ lines.length := by
  induction lines with
  | nil => exact Nat.le_refl 0
  | cons l lines ih =>
    rw [parseJsonl_cons, List.length_append, List.length_cons]
    by_cases hplain : l.Plain
    · rw [(l.results py).1 hplain, List.length_singleton]
      omega
    · rw [(l.results py).2 hplain, List.length_nil]
      omega

theorem filterMap_parseLine (py : PythonValues) (lines : List ResultLine) :
    lines.filterMap (fun l => parseLine py (.obj l.object)) = lines.map (result py) := by
  rw [← List.filterMap_eq_map]
  exact List.filterMap_congr fun l _ => parseLine_eq py l

/-- The results of a batch are the results of its lines if and only if no line has one of the
separators U+0085, U+2028 and U+2029 written raw. -/
theorem parseJsonl_eq_iff (py : PythonValues) (lines : List ResultLine) :
    parseJsonl py (joined lines) = lines.filterMap (fun l => parseLine py (.obj l.object)) ↔
      ∀ l ∈ lines, ∀ c ∈ l.line, c ≠ '\u0085' ∧ c ≠ '\u2028' ∧ c ≠ '\u2029' := by
  have hplain : ∀ l : ResultLine,
      (∀ c ∈ l.line, c ≠ '\u0085' ∧ c ≠ '\u2028' ∧ c ≠ '\u2029') ↔ l.Plain := by
    intro l
    simp [Plain, isSeparator, and_assoc]
  simp only [hplain]
  induction lines with
  | nil => exact ⟨fun _ l hl => (by cases hl), fun _ => rfl⟩
  | cons l lines ih =>
    have hcons : (l :: lines).filterMap (fun l => parseLine py (.obj l.object)) =
        l.result py :: lines.filterMap fun l => parseLine py (.obj l.object) :=
      List.filterMap_cons_some (parseLine_eq py l)
    rw [parseJsonl_cons, hcons, List.forall_mem_cons]
    by_cases hl : l.Plain
    · rw [(l.results py).1 hl, List.singleton_append, List.cons.injEq]
      exact ⟨fun h => ⟨hl, ih.1 h.2⟩, fun h => ⟨rfl, ih.2 h.2⟩⟩
    · rw [(l.results py).2 hl, List.nil_append]
      apply Iff.intro
      · intro heq
        have hle := length_parseJsonl_le py lines
        rw [heq, filterMap_parseLine, List.length_cons, List.length_map] at hle
        omega
      · intro h
        exact absurd h.1 hl

def separatedTokens : List Token :=
  [.punct '\x7b', .str "custom_id", .punct ':', .str "q", .punct ',', .str "result", .punct ':',
   .punct '\x7b', .str "type", .punct ':', .str "succeeded", .punct ',', .str "message",
   .punct ':', .punct '\x7b', .str "content", .punct ':', .str "a\u2028b", .punct '\x7d',
   .punct '\x7d', .punct '\x7d']

def separated : ResultLine where
  line := separatedTokens.flatMap Token.spell
  object := [("custom_id", .str "q"), ("result", .obj [("type", .str "succeeded"),
    ("message", .obj [("content", .str "a\u2028b")])])]
  customId := "q"
  oneLine := by decide
  valid := by
    have hclosed : ∀ t ∈ separatedTokens, t.closed = true := by decide
    rw [loads, tokens_flatMap_spell hclosed]
    rfl
  identified := rfl

/-- The answer of that line is lost. -/
theorem separated_lost : ¬ ∀ (py : PythonValues) (lines : List ResultLine),
    parseJsonl py (joined lines) = lines.filterMap fun l => parseLine py (.obj l.object) := by
  intro hall
  have hplain : ¬ separated.Plain := by
    intro hplain
    exact absurd (hplain '\u2028' (by decide)) (by decide)
  let py : PythonValues := ⟨fun _ => "", fun _ => true⟩
  have hcount := congrArg List.length (hall py [separated])
  rw [parseJsonl_cons, (separated.results py).2 hplain, filterMap_parseLine] at hcount
  cases hcount

end ResultLine

end Prismal.Providers
