import Prismal.Utils.TokenEstimate

namespace Prismal.Agents
open Prismal.Utils
set_option autoImplicit true

/-! How much of a tool result the model sees: an excerpt, or a cut at a fixed length. -/

def firstChars (n : Nat) (text : String) : String := String.ofList (text.toList.take n)

def lastChars (n : Nat) (text : String) : String :=
  String.ofList (text.toList.drop (text.toList.length - n))

/-- `_marker` -/
def truncationMarker (originalTokens omitted : Nat) (artifactId : String) : String :=
  "\n[truncated: " ++ toString originalTokens ++ " tokens ≈ " ++ toString omitted ++
    " omitted; full output artifact=" ++ artifactId ++ "; use read_artifact to fetch]\n"

structure BudgetedOutput where
  content : String
  truncated : Bool
  originalTokens : Nat
  artifact : Option String
  deriving DecidableEq, Repr

/-- `enabled` is the master switch and the switch of the budget together. -/
structure ToolOutputBudget where
  enabled : Bool
  maxTokensDefault : Int
  maxTokensByTool : List (String × Int) := []

namespace ToolOutputBudget

def maxTokensFor (b : ToolOutputBudget) (tool : String) : Int :=
  (b.maxTokensByTool.lookup tool).getD b.maxTokensDefault

def excerptWith (text : String) (maxChars original : Nat) (artifactId : String) :
    Nat → String → String
  | 0, _ => truncationMarker original original artifactId
  | tries + 1, marker =>
    if maxChars ≤ marker.length then truncationMarker original original artifactId
    else
      let avail := maxChars - marker.length
      let headLen := avail * 3 / 5
      let head := firstChars headLen text
      let tail := lastChars (avail - headLen) text
      let omitted := original - estimateTokens head - estimateTokens tail
      let newMarker := truncationMarker original omitted artifactId
      if newMarker.length ≤ marker.length then head ++ newMarker ++ tail
      else excerptWith text maxChars original artifactId tries newMarker

/-- `_excerpt` -/
def excerpt (text : String) (budget original : Nat) (artifactId : String) : String :=
  excerptWith text (budget * 4) original artifactId 3 (truncationMarker original original artifactId)

/-- `apply` on a text; `put` parks the whole of it, or refuses. -/
def apply (b : ToolOutputBudget) (put : String → Option String) (tool text : String) :
    BudgetedOutput :=
  let original := estimateTokens text
  if !b.enabled then ⟨text, false, original, none⟩
  else
    let budget := (b.maxTokensFor tool).toNat
    if original ≤ budget then ⟨text, false, original, none⟩
    else
      let ref := put text
      ⟨excerpt text budget original (ref.getD "none"), true, original, ref⟩

def fullMarker (text artifactId : String) : String :=
  truncationMarker (estimateTokens text) (estimateTokens text) artifactId

def Excerpt (text content artifactId : String) : Prop :=
  ∃ head middle tail omitted, text = head ++ middle ++ tail ∧
    content = head ++ truncationMarker (estimateTokens text) omitted artifactId ++ tail

theorem excerptWith_cases (text : String) (maxChars original : Nat) (artifactId : String)
    (tries : Nat) (marker : String) :
    excerptWith text maxChars original artifactId tries marker =
        truncationMarker original original artifactId ∨
      ∃ headLen tailLen omitted,
        headLen + (truncationMarker original omitted artifactId).length + tailLen ≤ maxChars ∧
        excerptWith text maxChars original artifactId tries marker =
          firstChars headLen text ++ truncationMarker original omitted artifactId ++
            lastChars tailLen text := by
  induction tries generalizing marker with
  | zero => exact .inl rfl
  | succ tries ih =>
    rw [excerptWith]
    split
    · exact .inl rfl
    · next hroom =>
      dsimp only
      split
      · next hshort =>
        right
        refine ⟨_, _, _, ?_, rfl⟩
        omega
      · exact ih _

theorem firstChars_lastChars (h : headLen + tailLen ≤ text.length) :
    ∃ middle, text = firstChars headLen text ++ middle ++ lastChars tailLen text := by
  apply Exists.intro (String.ofList ((text.toList.take (text.toList.length - tailLen)).drop headLen))
  apply String.toList_injective
  rw [← String.length_toList] at h
  have hhead : text.toList.take headLen =
      (text.toList.take (text.toList.length - tailLen)).take headLen := by
    rw [List.take_take, Nat.min_eq_left (by omega)]
  rw [firstChars, lastChars, String.toList_append, String.toList_append, String.toList_ofList,
    String.toList_ofList, String.toList_ofList, hhead, List.take_append_drop,
    List.take_append_drop]

theorem length_firstChars (n : Nat) (text : String) : (firstChars n text).length ≤ n := by
  rw [firstChars, ← String.length_toList, String.toList_ofList]
  exact List.length_take_le n _

theorem length_lastChars (n : Nat) (text : String) : (lastChars n text).length ≤ n := by
  rw [lastChars, ← String.length_toList, String.toList_ofList, List.length_drop]
  omega

theorem excerpt_spec (text : String) (budget : Nat) (artifactId : String)
    (h : budget < estimateTokens text) :
    Excerpt text (excerpt text budget (estimateTokens text) artifactId) artifactId ∧
    (estimateTokens (fullMarker text artifactId) ≤ budget →
      estimateTokens (excerpt text budget (estimateTokens text) artifactId) ≤ budget) ∧
    (budget < estimateTokens (fullMarker text artifactId) →
      excerpt text budget (estimateTokens text) artifactId = fullMarker text artifactId) := by
  have halone : Excerpt text (fullMarker text artifactId) artifactId :=
    ⟨"", text, "", estimateTokens text, by rw [String.empty_append, String.append_empty],
      by rw [String.empty_append, String.append_empty]; rfl⟩
  have hlong : budget * 4 < text.length := by
    rw [estimateTokens] at h
    omega
  apply And.intro _ (And.intro _ _)
  · cases excerptWith_cases text (budget * 4) (estimateTokens text) artifactId 3
      (truncationMarker (estimateTokens text) (estimateTokens text) artifactId) with
    | inl hmarker =>
      rw [excerpt, hmarker]
      exact halone
    | inr hparts =>
      obtain ⟨headLen, tailLen, omitted, hle, hparts⟩ := hparts
      obtain ⟨middle, htext⟩ := firstChars_lastChars
        (show headLen + tailLen ≤ text.length by omega)
      rw [excerpt, hparts]
      exact ⟨_, middle, _, omitted, htext, rfl⟩
  · intro hfits
    cases excerptWith_cases text (budget * 4) (estimateTokens text) artifactId 3
      (truncationMarker (estimateTokens text) (estimateTokens text) artifactId) with
    | inl hmarker =>
      rw [excerpt, hmarker]
      exact hfits
    | inr hparts =>
      obtain ⟨headLen, tailLen, omitted, hle, hparts⟩ := hparts
      have hhead := length_firstChars headLen text
      have htail := length_lastChars tailLen text
      rw [excerpt, hparts, estimateTokens, String.length_append, String.length_append]
      omega
  · intro htight
    rw [excerpt, excerptWith]
    apply if_pos
    rw [fullMarker, estimateTokens] at htight
    omega

/-- `apply` makes a text no longer but where the marker alone exceeds the budget; what it cuts is
an excerpt, and a reference stands for the whole text. -/
theorem apply_excerpts (b : ToolOutputBudget) (put : String → Option String) (tool text : String) :
    let out := b.apply put tool text
    let budget := (b.maxTokensFor tool).toNat
    let marker := fullMarker text (out.artifact.getD "none")
    (estimateTokens out.content ≤ estimateTokens text ∨
      out.truncated = true ∧ budget < estimateTokens marker ∧ out.content = marker) ∧
    (out.truncated = true → estimateTokens marker ≤ budget →
      estimateTokens out.content ≤ budget) ∧
    (out.content = text ∨
      out.truncated = true ∧ Excerpt text out.content (out.artifact.getD "none")) ∧
    (∀ ref, out.artifact = some ref → put text = some ref) := by
  dsimp only
  rw [apply]
  split
  · exact ⟨.inl (Nat.le_refl _), fun h => (by cases h), .inl rfl, fun _ h => (by cases h)⟩
  · dsimp only
    split
    · exact ⟨.inl (Nat.le_refl _), fun h => (by cases h), .inl rfl, fun _ h => (by cases h)⟩
    · next hover =>
      obtain ⟨hexcerpt, hfits, htight⟩ := excerpt_spec text (b.maxTokensFor tool).toNat
        ((put text).getD "none") (by omega)
      apply And.intro _ (And.intro (fun _ => hfits) (And.intro (.inr ⟨rfl, hexcerpt⟩) _))
      · by_cases hmarker : estimateTokens (fullMarker text ((put text).getD "none")) ≤
            (b.maxTokensFor tool).toNat
        · left
          have hle := hfits hmarker
          dsimp only
          omega
        · right
          exact ⟨rfl, by dsimp only; omega, htight (by omega)⟩
      · intro ref href
        exact href

/-- A budget of nothing puts a marker in the place of a shorter text. -/
theorem marker_longer :
    let out := (ToolOutputBudget.mk true 0 []).apply (fun _ => none) "search" "hello"
    estimateTokens "hello" = 2 ∧ out.truncated = true ∧ 2 < estimateTokens out.content := by
  decide

end ToolOutputBudget

end Prismal.Agents
