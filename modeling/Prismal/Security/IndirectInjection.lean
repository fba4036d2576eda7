import Prismal.Lib.Replace
import Mathlib.Tactic.Positivity

namespace Prismal.Security
open Prismal.Lib
set_option autoImplicit true

/-! The heuristic pack of the detector of indirect injections. -/

namespace IndirectInjection
open Regex

def words (ss : List String) : Regex := alts (ss.map text)

def gap (n : Nat) : Regex := many .any 0 (some n)

def spaces : Regex := many .space 1 none

def optSpaces : Regex := many .space 0 none

def opt (k : CharClass) : Regex := many k 0 (some 1)

def assigns : Regex := one (.or (.lit ':') (.lit '='))

def overridden : Pattern where
  expr := seqs [boundary, words ["ignore", "disregard", "forget", "override"], boundary, gap 40,
    boundary, words ["previous", "prior", "above", "earlier", "all"], boundary, gap 20,
    boundary, words ["instruction", "prompt", "rule", "context"]]
  nonempty := by decide

def renewed : Pattern where
  expr := seqs [boundary, text "new", boundary, spaces,
    alts [seq (text "instruction") (opt (.lit 's')), seq (text "rule") (opt (.lit 's')),
      seqs [text "system", spaces, text "prompt"]], boundary]
  nonempty := by decide

def reassigned : Pattern where
  expr := seqs [boundary, text "you", spaces, text "are", spaces, text "now", boundary]
  nonempty := by decide

def systemPrompt : Pattern where
  expr := seqs [boundary, text "system", optSpaces, words ["prompt", "message"], boundary,
    optSpaces, assigns]
  nonempty := by decide

def toolCall : Pattern where
  expr := seqs [boundary, words ["call", "invoke", "use", "run", "execute"], boundary, gap 30,
    boundary, words ["tool", "function", "command"], boundary]
  nonempty := by decide

def shellCommand : Pattern where
  expr := seq boundary (alts [text "delete_file", text "shell_exec",
    seqs [text "rm", spaces, text "-rf"], seqs [text "drop", spaces, text "table"], text "sudo",
    text "exec("])
  nonempty := by decide

def roleLine : Pattern where
  expr := seqs [lineStart, optSpaces, words ["role", "assistant", "system"], optSpaces, assigns]
  nonempty := by decide

def secretSent : Pattern where
  expr := seqs [boundary, words ["reveal", "print", "show", "leak", "expose", "send", "exfiltrate",
    "post", "upload"], boundary, gap 40, boundary,
    alts [seqs [text "system", optSpaces, text "prompt"],
      seqs [text "api", opt (.or (.lit '_') (.or .space (.lit '-'))), text "key"], text "secret",
      text "password", text "token", text "credential", text "env"]]
  nonempty := by decide

def urlFetched : Pattern where
  expr := seqs [boundary, words ["curl", "wget", "fetch"], boundary, gap 40, text "http",
    opt (.lit 's'), text "://"]
  nonempty := by decide

def resultMailed : Pattern where
  expr := seqs [boundary, text "email", boundary, gap 40,
    alts [seqs [text "the", spaces, words ["result", "output", "data", "content"]],
      seqs [text "to", spaces, many .notSpace 1 none, one (.lit '@')]]]
  nonempty := by decide

/-- `_HEURISTIC_PATTERNS` -/
def heuristicPatterns : List (String × List Pattern) :=
  [("instruction_override", [overridden, renewed, reassigned, systemPrompt]),
   ("role_or_tool_override", [toolCall, shellCommand, roleLine]),
   ("exfiltration", [secretSent, urlFetched, resultMailed])]

def placeholder : List Char := "[neutralized-instruction]".toList

/-- The loops of `_sanitize`. -/
def passes (A : Alphabet α) (r t : List α) : List α :=
  heuristicPatterns.foldl (fun t c => subAll A r c.2 t) t

def chars (isWord : Char → Bool) : Alphabet Char := ⟨id, isWord⟩

/-- `_heuristic_score` -/
def heuristicScore (isWord : Char → Bool) (content : List Char) : Rat × List String :=
  let matched := (heuristicPatterns.filter fun c =>
    c.2.any fun p => p.found (chars isWord) content).map fun c => "indirect:" ++ c.1
  if matched.length = 0 then (0, [])
  else (min 1 (55 / 100 + 20 / 100 * matched.length), matched)

/-- `_sanitize` -/
def sanitize (isWord : Char → Bool) (content : List Char) : List Char :=
  passes (chars isWord) placeholder content

def marked (isWord : Char → Bool) : Alphabet (Char × Bool) := ⟨Prod.fst, isWord⟩

/-- `_sanitize` with such a text. -/
def traced (isWord : Char → Bool) (content : List Char) : List (Char × Bool) :=
  passes (marked isWord) (placeholder.map fun c => (c, true)) (content.map fun c => (c, false))

def patterns : List Pattern := heuristicPatterns.flatMap Prod.snd

theorem passes_eq (A : Alphabet α) (r t : List α) : passes A r t = subAll A r patterns t := by
  rw [passes, patterns, subAll, List.foldl_flatMap]
  rfl

theorem traced_chars (isWord : Char → Bool) (content : List Char) :
    (traced isWord content).map Prod.fst = sanitize isWord content := by
  have hplain (b : Bool) (cs : List Char) : (cs.map fun c => (c, b)).map Prod.fst = cs := by
    rw [List.map_map]
    exact List.map_id cs
  have hmap := subAll_map (A := marked isWord) (B := chars isWord) (f := Prod.fst)
    (fun a => rfl) rfl (placeholder.map fun c => (c, true)) patterns
    (content.map fun c => (c, false))
  rw [hplain, hplain] at hmap
  rw [traced, sanitize, passes_eq, passes_eq, hmap]

theorem patterns_mayStart : ∀ p ∈ patterns, p.expr.mayStart '[' = false := by decide

theorem heuristicScore_eq_zero (isWord : Char → Bool) (content : List Char) :
    (heuristicScore isWord content).1 = 0 ↔
      ∀ p ∈ patterns, p.found (chars isWord) content = false := by
  have hmatched : ((heuristicPatterns.filter fun c =>
      c.2.any fun p => p.found (chars isWord) content).map fun c => "indirect:" ++ c.1).length = 0 ↔
        ∀ p ∈ patterns, p.found (chars isWord) content = false := by
    rw [List.length_map, List.length_eq_zero_iff, List.filter_eq_nil_iff, patterns]
    apply Iff.intro
    · intro hnone p hp
      obtain ⟨c, hc, hpc⟩ := List.mem_flatMap.1 hp
      apply Bool.eq_false_of_not_eq_true
      intro hfound
      exact hnone c hc (List.any_eq_true.2 ⟨p, hpc, hfound⟩)
    · intro hnone c hc hany
      obtain ⟨p, hp, hfound⟩ := List.any_eq_true.1 hany
      rw [hnone p (List.mem_flatMap.2 ⟨c, hc, hp⟩)] at hfound
      cases hfound
  rw [← hmatched, heuristicScore]
  split
  next hzero => exact ⟨fun _ => hzero, fun _ => rfl⟩
  next hsome =>
    apply Iff.intro
    · intro hscore
      have hpos (n : Nat) : 0 < min (1 : Rat) (55 / 100 + 20 / 100 * n) := by positivity
      exact absurd hscore (hpos _).ne'
    · intro hzero
      exact absurd hzero hsome

theorem sanitize_eq_self (isWord : Char → Bool) (content : List Char) :
    sanitize isWord content = content ↔ (heuristicScore isWord content).1 = 0 := by
  rw [heuristicScore_eq_zero, sanitize, passes_eq]
  exact subAll_eq_self (A := chars isWord) patterns_mayStart

/-- What a sanitised text still matches includes a character of a replacement or stands beside
one. It scores zero if and only if it is left as it is by sanitising it again. -/
theorem sanitize_settles (isWord : Char → Bool) (content : List Char) :
    (traced isWord content).map Prod.fst = sanitize isWord content ∧
      (∀ p ∈ patterns, p.Only (marked isWord) Prod.snd (traced isWord content)) ∧
      ((heuristicScore isWord content).1 = 0 ↔ sanitize isWord content = content) ∧
      ((heuristicScore isWord (sanitize isWord content)).1 = 0 ↔
        sanitize isWord (sanitize isWord content) = sanitize isWord content) := by
  refine ⟨traced_chars isWord content, ?_, (sanitize_eq_self isWord content).symm,
    (sanitize_eq_self isWord _).symm⟩
  intro p hp
  have hfresh : ∀ x ∈ placeholder.map (fun c => (c, true)), x.2 = true := by
    intro x hx
    obtain ⟨c, _, rfl⟩ := List.mem_map.1 hx
    rfl
  rw [traced, passes_eq]
  exact only_subAll (by decide) hfresh hp _

def asciiWord (c : Char) : Bool := c.isAlphanum || c == '_'

/-- A replacement supplies the word that a directive lacks. -/
theorem ignore_settles : ¬ ∀ (isWord : Char → Bool) (content : List Char),
    (heuristicScore isWord (sanitize isWord content)).1 = 0 ∧
      sanitize isWord (sanitize isWord content) = sanitize isWord content := by
  intro hall
  have hscore := (hall asciiWord "ignore all you are now".toList).1
  have hfound : overridden.found (chars asciiWord)
      (sanitize asciiWord "ignore all you are now".toList) = true := by decide +kernel
  rw [(heuristicScore_eq_zero _ _).1 hscore overridden (by simp [patterns, heuristicPatterns])]
    at hfound
  cases hfound

end IndirectInjection

end Prismal.Security
