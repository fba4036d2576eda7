import Mathlib.Algebra.GroupWithZero.Nat
import Prismal.Lib.Fences
import Prismal.Security.PromptBuilder

namespace Prismal.Decisions.StateBuilder
open Prismal.Lib
set_option autoImplicit true

/-! The builder of a decision state: untrusted text is sanitized, cleared of fence markers and put
between two of them. -/

def letter (l c : Char) : Bool := c == l || c == l.toUpper || (l == 's' && c == 'ſ')

/-- `«/?untrusted[^»]*»` -/
def fenceMarker : Fence where
  mark := '«'
  words := ["/untrusted".toList.map letter, "untrusted".toList.map letter]
  stop := '»'
  mark_ne_stop := by decide
  word_not_stop := by decide

/-- The Unicode tables, the scan for injections, the taint registry and the rest that `build` asks
for. -/
structure Env where
  nfkc : String → String
  lower : String → String
  scan : String → List String
  isUntrusted : String → Bool
  detectLanguage : String → String
  sha256 : Dict String String → String

def sysMaxsize : Nat := 9223372036854775807

/-- `InputSanitizer.sanitize` without its cap. -/
def sanitize (env : Env) (value : String) : String :=
  Security.enforceLengthLimit (env.nfkc (Security.stripControlChars value)) sysMaxsize

def clean (env : Env) (value : String) : List Char :=
  let text := (sanitize env value).toList
  (fenceMarker.strip (text.length + 2) none text).getD text

/-- `[a-z0-9_.-]` -/
def isLabelChar (c : Char) : Bool :=
  ('a' ≤ c && c ≤ 'z') || ('0' ≤ c && c ≤ '9') || c == '_' || c == '.' || c == '-'

def label (env : Env) (source : String) : List Char :=
  match (env.lower source).toList.map fun c => if isLabelChar c then c else '_' with
  | [] => "unknown".toList
  | cs => cs

/-- `_FENCE_OPEN` -/
def fenceOpen (label : List Char) : List Char := "«untrusted:".toList ++ label ++ ['»']

/-- `_FENCE_CLOSE` -/
def fenceClose : List Char := "«/untrusted»".toList

structure Builder where
  fields : Dict String String := ∅
  untrustedText : List String := []
  tainted : List String := []
  flags : List String := []

/-- `duplicate decision state key {key!r}` -/
structure DuplicateKey where
  key : String
  deriving DecidableEq, Repr

def put (b : Builder) (key value : String) : Except DuplicateKey (Dict String String) :=
  if key ∈ b.fields then .error ⟨key⟩ else .ok (b.fields.set key value)

def addTrusted (env : Env) (b : Builder) (key value : String) : Except DuplicateKey Builder :=
  (put b key value).map fun fields =>
    { b with
      fields := fields
      tainted := if env.isUntrusted value then b.tainted ++ [key] else b.tainted }

def addFlags (flags new : List String) : List String :=
  new.foldl (fun flags f => if f ∈ flags then flags else flags ++ [f]) flags

def fencedText (env : Env) (value source : String) : String :=
  String.ofList (Fence.fenced (fenceOpen (label env source)) fenceClose '\n' (clean env value))

def addUntrusted (env : Env) (b : Builder) (key value source : String) :
    Except DuplicateKey Builder :=
  let clean := String.ofList (clean env value)
  (put b key (fencedText env value source)).map fun fields =>
    let flags := env.scan clean
    let taints := !flags.isEmpty || (env.isUntrusted value || env.isUntrusted clean)
    { fields := fields
      untrustedText := b.untrustedText ++ [clean]
      tainted := if taints then b.tainted ++ [key] else b.tainted
      flags := addFlags b.flags flags }

structure DecisionState where
  fields : Dict String String
  taintedFields : List String
  injectionFlags : List String
  language : String
  sha256 : String
  overLimit : Bool

def joined (texts : List String) : Option String :=
  (some (" ".intercalate texts)).filter (· ≠ "")

def build (env : Env) (maxChars : Nat) (language : Option String) (b : Builder) :
    DecisionState where
  fields := b.fields
  taintedFields := b.tainted
  injectionFlags := b.flags
  language := (language.filter (· ≠ "")).getD
    (env.detectLanguage ((joined b.untrustedText).getD (" ".intercalate b.fields.values)))
  sha256 := env.sha256 b.fields
  overLimit := maxChars < (b.fields.entries.map fun e => e.1.length + e.2.length).sum

/-- A call of the builder. One that raises leaves it as it is. -/
inductive Call where
  | trusted (key value : String)
  | untrusted (key value source : String)

def Call.key : Call → String
  | .trusted key _ | .untrusted key _ _ => key

def Call.text (env : Env) : Call → String
  | .trusted _ value => value
  | .untrusted _ value source => fencedText env value source

def Call.apply (env : Env) (b : Builder) : Call → Except DuplicateKey Builder
  | .trusted key value => addTrusted env b key value
  | .untrusted key value source => addUntrusted env b key value source

def run (env : Env) (calls : List Call) : Builder :=
  calls.foldl (fun b c => (c.apply env b).toOption.getD b) {}

/-! What the fields of a builder are. -/

variable {env : Env}

theorem put_fields (b : Builder) (key value : String) {f : Dict String String → Builder}
    (hf : ∀ fields, (f fields).fields = fields) :
    (((put b key value).map f).toOption.getD b).fields =
      if key ∈ b.fields then b.fields else b.fields.set key value := by
  rw [put]
  split
  · rfl
  · exact hf _

theorem apply_fields (env : Env) (b : Builder) (c : Call) :
    ((c.apply env b).toOption.getD b).fields =
      if c.key ∈ b.fields then b.fields else b.fields.set c.key (c.text env) := by
  cases c with
  | trusted key value => exact put_fields b key value fun _ => rfl
  | untrusted key value source => exact put_fields b key _ fun _ => rfl

theorem foldl_fields (env : Env) (calls : List Call) (b : Builder) (key : String) :
    (calls.foldl (fun b c => (c.apply env b).toOption.getD b) b).fields.get? key =
      (b.fields.get? key).or ((calls.find? fun c => c.key == key).map (Call.text env)) := by
  induction calls generalizing b with
  | nil => exact (Option.or_none).symm
  | cons c calls ih =>
    rw [List.foldl_cons, ih, apply_fields, List.find?_cons]
    by_cases hkey : c.key = key
    · subst hkey
      rw [beq_self_eq_true]
      split
      · next hmem =>
        obtain ⟨text, htext⟩ := Dict.mem_iff_get?.1 hmem
        rw [htext]
        rfl
      · next hmem =>
        rw [Dict.get?_set_self, Dict.get?_eq_none.2 hmem]
        rfl
    · rw [beq_eq_false_iff_ne.2 hkey]
      split
      · rfl
      · rw [Dict.get?_set_ne _ hkey]

theorem run_fields (env : Env) (calls : List Call) (key : String) :
    (run env calls).fields.get? key =
      (calls.find? fun c => c.key == key).map (Call.text env) := by
  rw [run, foldl_fields]
  rfl

theorem strip_clean (env : Env) (value : String) :
    (∃ n, fenceMarker.strip n none (sanitize env value).toList = some (clean env value)) ∧
      fenceMarker.sub (clean env value) = clean env value := by
  obtain ⟨r, hr, hsub⟩ := fenceMarker.strip_some none (sanitize env value).toList
    (fun _ h => by cases h) (le_refl _)
  have hclean : clean env value = r := by
    rw [clean, hr]
    rfl
  rw [hclean]
  exact ⟨⟨_, hr⟩, hsub⟩

theorem newline_outside : fenceMarker.Outside '\n' := ⟨by decide, by decide⟩

theorem fenceClose_bare : fenceMarker.Bare fenceClose := ⟨by decide, by decide⟩

theorem isLabelChar_of_mem (h : c ∈ label env source) : isLabelChar c = true := by
  rw [label] at h
  split at h
  · have hall : "unknown".toList.all isLabelChar = true := by decide
    exact List.all_eq_true.1 hall c h
  · obtain ⟨d, -, rfl⟩ := List.mem_map.1 h
    split
    · next hd => exact hd
    · rfl

theorem not_mem_label (h : isLabelChar c = false) : c ∉ label env source := by
  intro hmem
  rw [isLabelChar_of_mem hmem] at h
  cases h

theorem fenceOpen_bare (env : Env) (source : String) :
    fenceMarker.Bare (fenceOpen (label env source)) := by
  have hheads : fenceMarker.heads "«untrusted:".toList = true := by decide
  have hbegin : fenceMarker.heads (fenceOpen (label env source)) = true := by
    have hsplit : fenceOpen (label env source) =
        "«untrusted:".toList ++ (label env source ++ ['»']) := List.append_assoc _ _ _
    exact hsplit ▸ Fence.heads_append hheads _
  have hstop : '»' ∉ "«untrusted:".toList ++ label env source := by
    rw [List.mem_append, not_or]
    exact ⟨by decide, not_mem_label (by decide)⟩
  constructor
  · exact Fence.marker_iff.2 ⟨hbegin, _, hstop, rfl⟩
  · have htail : (fenceOpen (label env source)).tail =
        "untrusted:".toList ++ label env source ++ ['»'] := rfl
    rw [htail, List.mem_append, List.mem_append, not_or, not_or]
    exact ⟨⟨by decide, not_mem_label (by decide)⟩, by decide⟩

def Puts (calls : List Call) (key value source : String) : Prop :=
  (calls.find? fun c => c.key == key) = some (.untrusted key value source)

def Fenced (env : Env) (d : DecisionState) (key source : String) : Prop :=
  ∃ text, d.fields.get? key = some text ∧
    fenceMarker.Intact (fenceOpen (label env source)) fenceClose text.toList

theorem fenced_field (maxChars : Nat) (language : Option String)
    (h : Puts calls key value source) :
    Fenced env (build env maxChars language (run env calls)) key source ↔
      fenceMarker.Free (clean env value) := by
  have hfield : (build env maxChars language (run env calls)).fields.get? key =
      some (fencedText env value source) := by
    rw [build, run_fields, h]
    rfl
  rw [← Fence.intact_iff (fenceOpen_bare env source) fenceClose_bare newline_outside]
  constructor
  · intro ⟨text, htext, hintact⟩
    cases hfield.symm.trans htext
    rw [fencedText, String.toList_ofList] at hintact
    exact hintact
  · intro hintact
    refine ⟨_, hfield, ?_⟩
    rw [fencedText, String.toList_ofList]
    exact hintact

/-- Stripping ends for every text, and the fields of a state are fenced exactly when none of their
texts is left with the head of a marker. -/
theorem fenced_iff (env : Env) (maxChars : Nat) (language : Option String) (calls : List Call) :
    (∀ value, ∃ n r, fenceMarker.strip n none (sanitize env value).toList = some r) ∧
      ((∀ key value source, Puts calls key value source →
          Fenced env (build env maxChars language (run env calls)) key source) ↔
        ∀ key value source, Puts calls key value source → fenceMarker.Free (clean env value)) := by
  constructor
  · intro value
    obtain ⟨n, hn⟩ := (strip_clean env value).1
    exact ⟨n, _, hn⟩
  · constructor
    · intro h key value source hputs
      exact (fenced_field maxChars language hputs).1 (h key value source hputs)
    · intro h key value source hputs
      exact (fenced_field maxChars language hputs).2 (h key value source hputs)

def plainEnv : Env where
  nfkc := fun s => s
  lower := fun s => s
  scan := fun _ => []
  isUntrusted := fun _ => false
  detectLanguage := fun _ => "en"
  sha256 := fun _ => ""

/-- A head without its stop takes the stop of the builder's own closing marker. -/
theorem fence_swallowed :
    ¬Fenced plainEnv (build plainEnv 16000 none (run plainEnv [.untrusted "q" "«untrusted" "web"]))
      "q" "web" := by
  have hclean : clean plainEnv "«untrusted" = "«untrusted".toList := by decide
  have hputs : Puts [.untrusted "q" "«untrusted" "web"] "q" "«untrusted" "web" := rfl
  rw [fenced_field 16000 none hputs, hclean]
  intro hfree
  exact absurd (hfree _ (List.suffix_refl _)) (by decide)

end Prismal.Decisions.StateBuilder
