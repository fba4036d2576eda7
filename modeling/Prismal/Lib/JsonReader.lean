import Prismal.Lib.Json
import Prismal.Lib.Text

namespace Prismal.Lib.Json
open Prismal.Lib
set_option autoImplicit true

/-! The reader of JSON texts: `json.loads` as a lexer that goes through a text character by
character, and a parser of its tokens. -/

inductive Token where
  | punct (c : Char)
  | str (s : String)
  | atom (t : List Char)
  deriving DecidableEq

/-- Where the lexer is: outside strings, with the number or literal it is at, or inside a string,
possibly behind a backslash. What it has read is kept in reverse. -/
inductive Mode where
  | plain (atom : List Char)
  | quoted (raw : List Char)
  | escaped (raw : List Char)

def blankChar (c : Char) : Bool := c == ' ' || c == '\t' || c == '\n' || c == '\r'

def punctChar (c : Char) : Bool :=
  c == '\x7b' || c == '\x7d' || c == '[' || c == ']' || c == ':' || c == ','

/-- The characters of numbers, of `true`, `false` and `null`, of `NaN` and `Infinity`. -/
def atomChar (c : Char) : Bool := c.isDigit || "+-.eEtrufalsnNIiy".toList.contains c

def outChar (c : Char) : Bool := blankChar c || punctChar c || atomChar c

def hexValue (c : Char) : Option Nat :=
  if c.isDigit then some (c.toNat - 48)
  else if 'a' ≤ c ∧ c ≤ 'f' then some (c.toNat - 87)
  else if 'A' ≤ c ∧ c ≤ 'F' then some (c.toNat - 55)
  else none

def hexUnit (a b c d : Char) : Option Nat := do
  some (4096 * (← hexValue a) + 256 * (← hexValue b) + 16 * (← hexValue c) + (← hexValue d))

/-- The letters behind a backslash but for `u`. -/
def escapes : List (Char × Char) :=
  [('"', '"'), ('\\', '\\'), ('/', '/'), ('b', '\x08'), ('f', '\x0c'), ('n', '\n'), ('r', '\r'),
   ('t', '\t')]

def unescape : List Char → Option (List Char)
  | [] => some []
  | '\\' :: 'u' :: a :: b :: c :: d :: '\\' :: 'u' :: a' :: b' :: c' :: d' :: rest => do
    let high ← hexUnit a b c d
    let low ← hexUnit a' b' c' d'
    if 55296 ≤ high ∧ high < 56320 ∧ 56320 ≤ low ∧ low < 57344 then
      (unescape rest).map (Char.ofNat (65536 + 1024 * (high - 55296) + (low - 56320)) :: ·)
    else
      (unescape ('\\' :: 'u' :: a' :: b' :: c' :: d' :: rest)).map fun cs =>
        (if 55296 ≤ high ∧ high < 57344 then '\uFFFD' else Char.ofNat high) :: cs
  | '\\' :: 'u' :: a :: b :: c :: d :: rest => do
    let unit ← hexUnit a b c d
    (unescape rest).map fun cs =>
      (if 55296 ≤ unit ∧ unit < 57344 then '\uFFFD' else Char.ofNat unit) :: cs
  | '\\' :: e :: rest => do
    let p ← escapes.find? fun p => p.1 == e
    (unescape rest).map (p.2 :: ·)
  | ['\\'] => none
  | c :: rest => (unescape rest).map (c :: ·)

def flush (atom : List Char) : List Token := if atom.isEmpty then [] else [.atom atom.reverse]

def lexStep : Mode → Char → Option (List Token × Mode)
  | .plain atom, c =>
    if c = '"' then some (flush atom, .quoted [])
    else if blankChar c then some (flush atom, .plain [])
    else if punctChar c then some (flush atom ++ [.punct c], .plain [])
    else if atomChar c then some ([], .plain (c :: atom))
    else none
  | .quoted raw, c =>
    if c = '"' then (unescape raw.reverse).map fun s => ([.str (String.ofList s)], .plain [])
    else if c = '\\' then some ([], .escaped raw)
    else if c.toNat < 32 then none
    else some ([], .quoted (c :: raw))
  | .escaped raw, c =>
    if c = 'u' ∨ (escapes.any fun p => p.1 == c) = true then some ([], .quoted (c :: '\\' :: raw))
    else none

def lexRun : Mode → List Char → Option (List Token × Mode)
  | m, [] => some ([], m)
  | m, c :: cs =>
    (lexStep m c).bind fun r => (lexRun r.2 cs).map fun r' => (r.1 ++ r'.1, r'.2)

def tokens (cs : List Char) : Option (List Token) :=
  (lexRun (.plain []) cs).bind fun r =>
    match r.2 with
    | .plain atom => some (r.1 ++ flush atom)
    | _ => none

def isExponent : List Char → Bool
  | [] => true
  | c :: cs =>
    let digits := match cs with
      | '+' :: cs => cs
      | '-' :: cs => cs
      | cs => cs
    (c == 'e' || c == 'E') && !digits.isEmpty && digits.all Char.isDigit

def isFraction : List Char → Bool
  | '.' :: cs => !(cs.takeWhile Char.isDigit).isEmpty && isExponent (cs.dropWhile Char.isDigit)
  | cs => isExponent cs

def isNumber (cs : List Char) : Bool :=
  let cs := match cs with
    | '-' :: cs => cs
    | cs => cs
  let whole := cs.takeWhile Char.isDigit
  let rest := cs.dropWhile Char.isDigit
  !whole.isEmpty && (whole == ['0'] || whole.head? != some '0') && isFraction rest &&
    (!rest.isEmpty || decide (whole.length ≤ 4300))

def atomValue (t : List Char) : Option Tree :=
  if t = "null".toList then some .null
  else if t = "true".toList then some (.bool true)
  else if t = "false".toList then some (.bool false)
  else if t = "NaN".toList ∨ t = "Infinity".toList ∨ t = "-Infinity".toList ∨
      isNumber t = true then some (.num (String.ofList t))
  else none

mutual

def parseValue : Nat → List Token → Option (Tree × List Token)
  | 0, _ => none
  | _ + 1, .str s :: ts => some (.str s, ts)
  | _ + 1, .atom t :: ts => (atomValue t).map fun v => (v, ts)
  | n + 1, .punct '[' :: ts =>
    match ts with
    | .punct ']' :: ts => some (.arr [], ts)
    | ts => (parseItems n ts).map fun r => (.arr r.1, r.2)
  | n + 1, .punct '\x7b' :: ts =>
    match ts with
    | .punct '\x7d' :: ts => some (.obj [], ts)
    | ts => (parseEntries n ts).map fun r => (.obj r.1, r.2)
  | _ + 1, _ => none

def parseItems : Nat → List Token → Option (List Tree × List Token)
  | 0, _ => none
  | n + 1, ts =>
    (parseValue n ts).bind fun r =>
      match r.2 with
      | .punct ',' :: ts => (parseItems n ts).map fun r' => (r.1 :: r'.1, r'.2)
      | .punct ']' :: ts => some ([r.1], ts)
      | _ => none

def parseEntries : Nat → List Token → Option (List (String × Tree) × List Token)
  | n + 1, .str k :: .punct ':' :: ts =>
    (parseValue n ts).bind fun r =>
      match r.2 with
      | .punct ',' :: ts => (parseEntries n ts).map fun r' => ((k, r.1) :: r'.1, r'.2)
      | .punct '\x7d' :: ts => some ([(k, r.1)], ts)
      | _ => none
  | _, _ => none

end

/-- `json.loads`. Every two calls of the parser read a token, which the fuel allows for. -/
def loads (cs : List Char) : Option Tree :=
  (tokens cs).bind fun ts =>
    match parseValue (2 * ts.length + 1) ts with
    | some (t, []) => some t
    | _ => none

theorem lexRun_append (m : Mode) (xs ys : List Char) :
    lexRun m (xs ++ ys) =
      (lexRun m xs).bind fun r => (lexRun r.2 ys).map fun r' => (r.1 ++ r'.1, r'.2) := by
  induction xs generalizing m with
  | nil => simp [lexRun]
  | cons c xs ih =>
    rw [List.cons_append, lexRun, lexRun]
    cases lexStep m c with
    | none => rfl
    | some r =>
      simp only [Option.bind_some, ih]
      cases lexRun r.2 xs with
      | none => rfl
      | some r' =>
        simp only [Option.bind_some, Option.map_some]
        cases lexRun r'.2 ys <;> simp

theorem not_str_flush (a : List Char) (s : String) : Token.str s ∉ flush a := by
  intro hs
  rw [flush] at hs
  split at hs
  · cases hs
  · cases List.mem_singleton.1 hs

theorem lexStep_plain (h : lexStep (.plain a) c = some r) :
    (c = '"' ∧ r = (flush a, .quoted [])) ∨
      outChar c = true ∧ c ≠ '"' ∧ (∃ a', r.2 = .plain a') ∧ ∀ s, Token.str s ∉ r.1 := by
  have hflush := not_str_flush a
  rw [lexStep] at h
  split at h
  next hquote =>
    cases h
    exact Or.inl ⟨hquote, rfl⟩
  next hquote =>
    right
    split at h
    next hblank =>
      cases h
      exact ⟨by rw [outChar, hblank]; rfl, hquote, ⟨_, rfl⟩, hflush⟩
    split at h
    next hpunct =>
      cases h
      refine ⟨by rw [outChar, hpunct, Bool.or_true]; rfl, hquote, ⟨_, rfl⟩, ?_⟩
      intro s hs
      cases List.mem_append.1 hs with
      | inl hs => exact hflush s hs
      | inr hs => cases List.mem_singleton.1 hs
    split at h
    next hatom =>
      cases h
      exact ⟨by rw [outChar, hatom, Bool.or_true], hquote, ⟨_, rfl⟩, fun s hs => by cases hs⟩
    · cases h

theorem not_outChar_quote : outChar '"' = false := by decide

theorem not_outChar_backslash : outChar '\\' = false := by decide

theorem lexStep_quoted (hc : outChar c = true) (h : lexStep (.quoted raw) c = some r) :
    r = ([], .quoted (c :: raw)) := by
  have hquote : c ≠ '"' := by
    intro heq
    rw [heq, not_outChar_quote] at hc
    cases hc
  have hslash : c ≠ '\\' := by
    intro heq
    rw [heq, not_outChar_backslash] at hc
    cases hc
  rw [lexStep, if_neg hquote, if_neg hslash] at h
  split at h
  · cases h
  · cases h
    rfl

theorem unescape_of_plain (h : ∀ c ∈ cs, c ≠ '\\') : unescape cs = some cs := by
  induction cs with
  | nil => rw [unescape]
  | cons c cs ih =>
    have hc := h c List.mem_cons_self
    have hcs := ih fun d hd => h d (List.mem_cons_of_mem _ hd)
    rw [unescape]
    · rw [hcs]
      rfl
    all_goals
      intros
      exact absurd ‹c = '\\'› hc

theorem lexRun_cons (h : lexRun m (c :: cs) = some r) :
    ∃ r₁ r₂, lexStep m c = some r₁ ∧ lexRun r₁.2 cs = some r₂ ∧ r = (r₁.1 ++ r₂.1, r₂.2) := by
  rw [lexRun] at h
  obtain ⟨r₁, h₁, h⟩ := Option.bind_eq_some_iff.1 h
  obtain ⟨r₂, h₂, rfl⟩ := Option.map_eq_some_iff.1 h
  exact ⟨r₁, r₂, h₁, h₂, rfl⟩

theorem lexRun_swapped (cs : List Char) :
    (∀ a raw r r', lexRun (.plain a) cs = some r → lexRun (.quoted raw) cs = some r' →
      ∀ s, Token.str s ∈ r.1 → ∀ c ∈ s.toList, outChar c = true) ∧
    ∀ a raw r r', (∀ c ∈ raw, outChar c = true) → lexRun (.quoted raw) cs = some r →
      lexRun (.plain a) cs = some r' →
      ∀ s, Token.str s ∈ r.1 → ∀ c ∈ s.toList, outChar c = true := by
  induction cs with
  | nil =>
    apply And.intro
    · intro a raw r r' h h' s hs
      cases h
      cases hs
    · intro a raw r r' hraw h h' s hs
      cases h
      cases hs
  | cons c cs ih =>
    apply And.intro
    · intro a raw r r' h h' s hs
      obtain ⟨r₁, r₂, h₁, h₂, rfl⟩ := lexRun_cons h
      obtain ⟨r₁', r₂', h₁', h₂', rfl⟩ := lexRun_cons h'
      cases lexStep_plain h₁ with
      | inl hquote =>
        obtain ⟨rfl, rfl⟩ := hquote
        rw [lexStep, if_pos rfl] at h₁'
        obtain ⟨text, _, rfl⟩ := Option.map_eq_some_iff.1 h₁'
        cases List.mem_append.1 hs with
        | inl hs => exact absurd hs (not_str_flush a s)
        | inr hs => exact ih.2 [] [] r₂ r₂' (fun c hc => by cases hc) h₂ h₂' s hs
      | inr hout =>
        obtain ⟨hc, _, ⟨a', ha'⟩, hnone⟩ := hout
        rw [lexStep_quoted hc h₁'] at h₂'
        rw [ha'] at h₂
        cases List.mem_append.1 hs with
        | inl hs => exact absurd hs (hnone s)
        | inr hs => exact ih.1 a' (c :: raw) r₂ r₂' h₂ h₂' s hs
    · intro a raw r r' hraw h h' s hs
      obtain ⟨r₁, r₂, h₁, h₂, rfl⟩ := lexRun_cons h
      obtain ⟨r₁', r₂', h₁', h₂', rfl⟩ := lexRun_cons h'
      cases lexStep_plain h₁' with
      | inl hquote =>
        obtain ⟨rfl, rfl⟩ := hquote
        have hread : unescape raw.reverse = some raw.reverse := by
          apply unescape_of_plain
          intro c hc heq
          have hout := hraw c (List.mem_reverse.1 hc)
          rw [heq, not_outChar_backslash] at hout
          cases hout
        rw [lexStep, if_pos rfl, hread, Option.map_some, Option.some.injEq] at h₁
        subst h₁
        cases List.mem_append.1 hs with
        | inl hs =>
          cases List.mem_singleton.1 hs
          intro c hc
          rw [String.toList_ofList, List.mem_reverse] at hc
          exact hraw c hc
        | inr hs => exact ih.1 [] [] r₂ r₂' h₂ h₂' s hs
      | inr hout =>
        obtain ⟨hc, _, ⟨a', ha'⟩, _⟩ := hout
        rw [lexStep_quoted hc h₁] at h₂ hs
        rw [ha'] at h₂'
        refine ih.2 a' (c :: raw) r₂ r₂' ?_ h₂ h₂' s hs
        intro d hd
        cases List.mem_cons.1 hd with
        | inl heq => exact heq ▸ hc
        | inr hd => exact hraw d hd

theorem suffix_cons (h : ts <:+ us) (t : Token) : ts <:+ t :: us :=
  h.trans (List.suffix_cons t us)

theorem atomValue_not_obj (h : atomValue t = some v) (es : List (String × Tree)) : v ≠ .obj es := by
  intro heq
  subst heq
  rw [atomValue] at h
  split at h
  · cases h
  split at h
  · cases h
  split at h
  · cases h
  split at h
  · cases h
  · cases h

theorem parse_suffix (n : Nat) :
    (∀ ts r, parseValue n ts = some r →
        r.2 <:+ ts ∧ ∀ es, r.1 = .obj es → ∀ e ∈ es, Token.str e.1 ∈ ts) ∧
      (∀ ts r, parseItems n ts = some r → r.2 <:+ ts) ∧
      ∀ ts r, parseEntries n ts = some r → r.2 <:+ ts ∧ ∀ e ∈ r.1, Token.str e.1 ∈ ts := by
  induction n with
  | zero =>
    refine ⟨fun ts r h => ?_, fun ts r h => ?_, fun ts r h => ?_⟩
    · cases h
    · cases h
    · cases h
  | succ n ih =>
    obtain ⟨hvalue, hitems, hentries⟩ := ih
    refine ⟨fun ts r h => ?_, fun ts r h => ?_, fun ts r h => ?_⟩
    · rw [parseValue.eq_def] at h
      split at h
      · contradiction
      next hn =>
        cases h
        exact ⟨List.suffix_cons _ _, fun es hes => by cases hes⟩
      next t us hn =>
        obtain ⟨v, hv, rfl⟩ := Option.map_eq_some_iff.1 h
        exact ⟨List.suffix_cons _ _, fun es hes => absurd hes (atomValue_not_obj hv es)⟩
      next hn =>
        split at h
        · cases h
          exact ⟨suffix_cons (List.suffix_cons _ _) _, fun es hes => by cases hes⟩
        · obtain ⟨r', hr', rfl⟩ := Option.map_eq_some_iff.1 h
          cases hn
          exact ⟨suffix_cons (hitems _ r' hr') _, fun es hes => by cases hes⟩
      next hn =>
        split at h
        · cases h
          refine ⟨suffix_cons (List.suffix_cons _ _) _, fun es hes e he => ?_⟩
          cases hes
          cases he
        · obtain ⟨r', hr', rfl⟩ := Option.map_eq_some_iff.1 h
          cases hn
          obtain ⟨hsuffix, hkeys⟩ := hentries _ r' hr'
          refine ⟨suffix_cons hsuffix _, fun es hes e he => ?_⟩
          cases hes
          exact List.mem_cons_of_mem _ (hkeys e he)
      · cases h
    · rw [parseItems] at h
      obtain ⟨r₁, h₁, h⟩ := Option.bind_eq_some_iff.1 h
      have hfirst := (hvalue ts r₁ h₁).1
      split at h
      next us hrest =>
        rw [hrest] at hfirst
        obtain ⟨r₂, h₂, rfl⟩ := Option.map_eq_some_iff.1 h
        exact ((hitems us r₂ h₂).trans (List.suffix_cons _ _)).trans hfirst
      next us hrest =>
        rw [hrest] at hfirst
        cases h
        exact (List.suffix_cons _ _).trans hfirst
      · cases h
    · rw [parseEntries.eq_def] at h
      split at h
      next k us hn =>
        cases hn
        obtain ⟨r₁, h₁, h⟩ := Option.bind_eq_some_iff.1 h
        have hfirst := (hvalue us r₁ h₁).1
        split at h
        next vs hrest =>
          rw [hrest] at hfirst
          obtain ⟨r₂, h₂, rfl⟩ := Option.map_eq_some_iff.1 h
          obtain ⟨hsuffix, hkeys⟩ := hentries vs r₂ h₂
          have hvs : vs <:+ us := (List.suffix_cons _ _).trans hfirst
          refine ⟨suffix_cons (suffix_cons (hsuffix.trans hvs) _) _, ?_⟩
          intro e he
          cases List.mem_cons.1 he with
          | inl heq =>
            rw [heq]
            exact List.mem_cons_self
          | inr he =>
            exact List.mem_cons_of_mem _ (List.mem_cons_of_mem _ (hvs.subset (hkeys e he)))
        next vs hrest =>
          rw [hrest] at hfirst
          cases h
          refine ⟨suffix_cons (suffix_cons ((List.suffix_cons _ _).trans hfirst) _) _, ?_⟩
          intro e he
          rw [List.mem_singleton.1 he]
          exact List.mem_cons_self
        · cases h
      · cases h

theorem keys_of_loads (h : loads cs = some (.obj es)) :
    ∃ ts, tokens cs = some ts ∧ ∀ e ∈ es, Token.str e.1 ∈ ts := by
  obtain ⟨ts, hts, h⟩ := Option.bind_eq_some_iff.1 h
  refine ⟨ts, hts, ?_⟩
  split at h
  next t hparse =>
    cases h
    exact ((parse_suffix _).1 ts _ hparse).2 es rfl
  · cases h

theorem keys_of_inside (h : loads cs = some (.obj es)) (hin : lexRun (.quoted raw) cs = some r)
    (he : e ∈ es) : ∀ c ∈ e.1.toList, outChar c = true := by
  obtain ⟨ts, hts, hkeys⟩ := keys_of_loads h
  obtain ⟨r', hr', hts⟩ := Option.bind_eq_some_iff.1 hts
  split at hts
  next atom hmode =>
    cases hts
    cases List.mem_append.1 (hkeys e he) with
    | inl hs => exact (lexRun_swapped cs).1 [] raw r' r hr' hin e.1 hs
    | inr hs => exact absurd hs (not_str_flush atom e.1)
  · cases hts

theorem quoted_of_lexStep (hout : outChar c = false) (hquote : c ≠ '"')
    (hescape : ¬ (c = 'u' ∨ (escapes.any fun p => p.1 == c) = true))
    (h : lexStep m c = some r) : ∃ raw raw', m = .quoted raw ∧ r.2 = .quoted raw' := by
  cases m with
  | plain a =>
    cases lexStep_plain h with
    | inl hq => exact absurd hq.1 hquote
    | inr hq =>
      rw [hq.1] at hout
      cases hout
  | quoted raw =>
    rw [lexStep, if_neg hquote] at h
    split at h
    next hslash =>
      subst hslash
      exact absurd (Or.inr (by decide)) hescape
    split at h
    · cases h
    · cases h
      exact ⟨raw, _, rfl, rfl⟩
  | escaped raw =>
    rw [lexStep, if_neg hescape] at h
    cases h

theorem loads_of_open (h : lexRun (.plain []) cs = some r) (hr : r.2 = .quoted raw) :
    loads cs = none := by
  rw [loads, tokens, h, Option.bind_some, hr]
  rfl

theorem blankChar_of_isSpace (hspace : isSpace c = true) (hout : outChar c = true) :
    blankChar c = true := by
  have hletters : ∀ d ∈ "+-.eEtrufalsnNIiy".toList, (!isSpace d) = true :=
    List.all_eq_true.1 (by decide)
  have hpuncts : ∀ d ∈ "\x7b\x7d[]:,".toList, (!isSpace d) = true :=
    List.all_eq_true.1 (by decide)
  simp only [Bool.not_eq_true'] at hletters hpuncts
  have hdigit : c.isDigit = true → isSpace c = false := by
    intro hd
    rw [Char.isDigit, Bool.and_eq_true, decide_eq_true_eq, decide_eq_true_eq] at hd
    have hlow : 48 ≤ c.toNat := hd.1
    have hhigh : c.toNat ≤ 57 := hd.2
    simp only [isSpace]
    simp
    omega
  by_contra hblank
  rw [outChar, Bool.eq_false_of_not_eq_true hblank, Bool.false_or, Bool.or_eq_true] at hout
  have hnot : isSpace c = false := by
    cases hout with
    | inl hpunct =>
      apply hpuncts
      simpa [punctChar, or_assoc] using hpunct
    | inr hatom =>
      rw [atomChar, Bool.or_eq_true] at hatom
      cases hatom with
      | inl hd => exact hdigit hd
      | inr hletter => exact hletters c (List.contains_iff_mem.1 hletter)
  rw [hnot] at hspace
  cases hspace

theorem loads_of_blank (h : ∀ c ∈ cs, isSpace c = true) : loads cs = none := by
  have hrun : ∀ r, lexRun (.plain []) cs = some r → r = ([], .plain []) := by
    induction cs with
    | nil =>
      intro r hr
      cases hr
      rfl
    | cons c cs ih =>
      intro r hr
      obtain ⟨r₁, r₂, h₁, h₂, rfl⟩ := lexRun_cons hr
      have hspace := h c List.mem_cons_self
      have hstep : r₁ = ([], .plain []) := by
        cases lexStep_plain h₁ with
        | inl hquote =>
          rw [hquote.1] at hspace
          exact absurd hspace (by decide)
        | inr hout =>
          rw [lexStep, if_neg hout.2.1, if_pos (blankChar_of_isSpace hspace hout.1)] at h₁
          cases h₁
          rfl
      rw [hstep] at h₂ ⊢
      rw [ih (fun d hd => h d (List.mem_cons_of_mem _ hd)) r₂ h₂]
      rfl
  rw [loads, tokens]
  cases hr : lexRun (.plain []) cs with
  | none => rfl
  | some r =>
    rw [hrun r hr]
    rfl

def Token.spell : Token → List Char
  | .punct c => [c]
  | .str s => '"' :: s.toList ++ ['"']
  | .atom t => t

def Token.closed : Token → Bool
  | .punct c => punctChar c
  | .str s => s.toList.all fun c => c != '"' && c != '\\' && decide (32 ≤ c.toNat)
  | .atom _ => false

theorem lexRun_quoted (hcs : ∀ c ∈ cs, (c != '"' && c != '\\' && decide (32 ≤ c.toNat)) = true)
    (raw : List Char) : lexRun (.quoted raw) cs = some ([], .quoted (cs.reverse ++ raw)) := by
  induction cs generalizing raw with
  | nil => rfl
  | cons c cs ih =>
    have hc := hcs c List.mem_cons_self
    rw [Bool.and_eq_true, Bool.and_eq_true, bne_iff_ne, bne_iff_ne, decide_eq_true_eq] at hc
    have hstep : lexStep (.quoted raw) c = some ([], .quoted (c :: raw)) := by
      rw [lexStep, if_neg hc.1.1, if_neg hc.1.2, if_neg (Nat.not_lt.2 hc.2)]
    rw [lexRun, hstep, Option.bind_some, ih fun d hd => hcs d (List.mem_cons_of_mem _ hd)]
    simp

theorem lexRun_spell (ht : t.closed = true) :
    lexRun (.plain []) t.spell = some ([t], .plain []) := by
  cases t with
  | punct c =>
    have hquote : c ≠ '"' := by
      intro heq
      rw [heq] at ht
      cases ht
    have hblank : blankChar c = false := by
      rw [Token.closed, punctChar] at ht
      simp only [Bool.or_eq_true, beq_iff_eq] at ht
      obtain ((((rfl | rfl) | rfl) | rfl) | rfl) | rfl := ht <;> rfl
    rw [Token.closed] at ht
    simp [Token.spell, lexRun, lexStep, hquote, hblank, ht, flush]
  | str s =>
    have hs : ∀ c ∈ s.toList, (c != '"' && c != '\\' && decide (32 ≤ c.toNat)) = true :=
      List.all_eq_true.1 ht
    have hread : unescape s.toList = some s.toList := by
      apply unescape_of_plain
      intro c hc heq
      have hplain := hs c hc
      rw [heq] at hplain
      cases hplain
    have hopen : lexStep (.plain []) '"' = some ([], .quoted []) := rfl
    have hclose : lexStep (.quoted s.toList.reverse) '"' = some ([.str s], .plain []) := by
      rw [lexStep, if_pos rfl, List.reverse_reverse, hread, Option.map_some, String.ofList_toList]
    rw [Token.spell, List.cons_append, lexRun, hopen, Option.bind_some, lexRun_append,
      lexRun_quoted hs, Option.bind_some, List.append_nil, lexRun, hclose]
    rfl
  | atom t => cases ht

theorem tokens_flatMap_spell (hts : ∀ t ∈ ts, t.closed = true) :
    tokens (ts.flatMap Token.spell) = some ts := by
  have hrun : lexRun (.plain []) (ts.flatMap Token.spell) = some (ts, .plain []) := by
    induction ts with
    | nil => rfl
    | cons t ts ih =>
      rw [List.flatMap_cons, lexRun_append, lexRun_spell (hts t List.mem_cons_self),
        Option.bind_some, ih fun u hu => hts u (List.mem_cons_of_mem _ hu)]
      rfl
  rw [tokens, hrun, Option.bind_some]
  simp [flush]

end Prismal.Lib.Json
