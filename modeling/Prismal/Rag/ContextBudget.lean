import Prismal.Rag.Fusion
import Prismal.Utils.TokenEstimate

namespace Prismal.Rag
open Prismal.Lib Prismal.Utils
set_option autoImplicit true

/-! What of the retrieved chunks is kept: merging by chunk id, ranking by score, and filling a
budget of tokens. -/

/-- One pass of the loop of `_merge_and_rerank`. -/
def keepBest (best : Dict String RetrievedChunk) (chunk : RetrievedChunk) :
    Dict String RetrievedChunk :=
  match best.get? chunk.chunkId with
  | none => best.set chunk.chunkId chunk
  | some existing =>
    if existing.relevanceScore < chunk.relevanceScore then best.set chunk.chunkId chunk else best

/-- `_merge_and_rerank` -/
def mergeAndRerank (chunks : List RetrievedChunk) : List RetrievedChunk :=
  sortBy (fun c => -c.relevanceScore) (chunks.foldl keepBest ∅).values

/-- `ScoreReranker.rerank` -/
def rerank (chunks : List RetrievedChunk) (topK : Int) : List RetrievedChunk :=
  (mergeAndRerank chunks).take (max topK 0).toNat

def RetrievedChunk.cost (c : RetrievedChunk) : Nat := estimateTokens c.content

/-- One pass of the loop of `fit_to_budget`, over what is kept and used. -/
def fitOne (budget : Int) (s : List RetrievedChunk × Nat) (c : RetrievedChunk) :
    List RetrievedChunk × Nat :=
  if (s.2 + c.cost : Nat) ≤ budget then (s.1 ++ [c], s.2 + c.cost) else s

def fitToBudget (chunks : List RetrievedChunk) (budget : Int) : List RetrievedChunk :=
  if 0 < budget then (chunks.foldl (fitOne budget) ([], 0)).1 else []

/-- The settings of the context budget; the number of tokens is checked when it is read. -/
structure BudgetSettings where
  tokenEfficiencyEnabled : Bool
  ragContextBudgetEnabled : Bool
  ragContextBudgetTokens : Nat

def BudgetSettings.active (cfg : BudgetSettings) : Bool :=
  cfg.tokenEfficiencyEnabled && cfg.ragContextBudgetEnabled

/-- `budget_context` with the score-based reranker and no compressor. -/
def budgetContext (cfg : BudgetSettings) (chunks : List RetrievedChunk) : List RetrievedChunk :=
  if cfg.active then fitToBudget (rerank chunks chunks.length) cfg.ragContextBudgetTokens
  else chunks

structure RemoteItem where
  source : Option String := none
  chunkId : Option String := none
  relevanceScore : Option Rat := none
  content : Option String := none

/-- A node by its name, with what the request to it comes back with. -/
structure RemoteNode (ε : Type) where
  name : String
  answer : Except ε (List RemoteItem)

/-- The chunk of an item: `_query_remote_node`. -/
def remoteChunk (name : String) (item : RemoteItem) : RetrievedChunk where
  source := item.source.getD name
  chunkId := item.chunkId.getD ""
  relevanceScore := item.relevanceScore.getD 0
  content := item.content.getD ""

def RemoteNode.chunks (node : RemoteNode ε) : List RetrievedChunk :=
  match node.answer with
  | .ok items => items.map (remoteChunk node.name)
  | .error _ => []

def localChunks : Except ε (List RetrievedChunk) → List RetrievedChunk
  | .ok chunks => chunks
  | .error _ => []

def allChunks (here : Except ε (List RetrievedChunk)) (nodes : List (RemoteNode ε)) :
    List RetrievedChunk :=
  localChunks here ++ nodes.flatMap RemoteNode.chunks

/-- `FederatedRAGEngine.search` -/
def federatedSearch (here : Except ε (List RetrievedChunk)) (nodes : List (RemoteNode ε)) :
    List RetrievedChunk :=
  mergeAndRerank (allChunks here nodes)

/-! ### Merging -/

def better : Option RetrievedChunk → RetrievedChunk → RetrievedChunk
  | none, c => c
  | some e, c => if e.relevanceScore < c.relevanceScore then c else e

def best (cs : List RetrievedChunk) : Option RetrievedChunk :=
  cs.foldl (fun o c => some (better o c)) none

/-- `d` stands in the list with no `c` before it. -/
def Before (cs : List RetrievedChunk) (d c : RetrievedChunk) : Prop :=
  ∃ pre post, cs = pre ++ d :: post ∧ c ∉ pre

/-- A chunk with the same id, of whatever source, has a higher score, or the same and comes
first. -/
def Outdone (cs : List RetrievedChunk) (c : RetrievedChunk) : Prop :=
  ∃ d ∈ cs, d ≠ c ∧ d.chunkId = c.chunkId ∧
    (c.relevanceScore < d.relevanceScore ∨ c.relevanceScore = d.relevanceScore ∧ Before cs d c)

def Duplicated (cs : List RetrievedChunk) (c : RetrievedChunk) : Prop :=
  ∃ d ∈ cs, d ≠ c ∧ d.source = c.source ∧ d.chunkId = c.chunkId ∧
    c.relevanceScore ≤ d.relevanceScore

theorem best_concat (cs : List RetrievedChunk) (c : RetrievedChunk) :
    best (cs ++ [c]) = some (better (best cs) c) := by
  rw [best, List.foldl_concat]
  rfl

theorem keepBest_get? (d : Dict String RetrievedChunk) (c : RetrievedChunk) :
    (keepBest d c).get? k =
      if c.chunkId = k then some (better (d.get? k) c) else d.get? k := by
  by_cases hid : c.chunkId = k
  · subst hid
    rw [if_pos rfl, keepBest]
    cases hget : d.get? c.chunkId with
    | none =>
      simp only [Dict.get?_set_self]
      rfl
    | some e =>
      simp only [better]
      by_cases hlt : e.relevanceScore < c.relevanceScore
      · rw [if_pos hlt, if_pos hlt, Dict.get?_set_self]
      · rw [if_neg hlt, if_neg hlt, hget]
  · rw [if_neg hid, keepBest]
    cases hget : d.get? c.chunkId with
    | none => exact Dict.get?_set_ne d hid
    | some e =>
      simp only []
      by_cases hlt : e.relevanceScore < c.relevanceScore
      · rw [if_pos hlt, Dict.get?_set_ne d hid]
      · rw [if_neg hlt]

theorem foldl_keepBest_get? (cs : List RetrievedChunk) (k : String) :
    (cs.foldl keepBest ∅).get? k = best (cs.filter fun c => decide (c.chunkId = k)) := by
  induction cs using List.reverseRecOn with
  | nil => rfl
  | append_singleton cs c ih =>
    rw [List.foldl_concat, keepBest_get?, ih, List.filter_append, List.filter_singleton]
    by_cases hid : c.chunkId = k
    · rw [if_pos hid, decide_eq_true hid, cond_true, best_concat]
    · rw [if_neg hid, decide_eq_false hid, cond_false, List.append_nil]

theorem best_spec (h : best cs = some r) : ∃ pre post, cs = pre ++ r :: post ∧
    (∀ a ∈ pre, a.relevanceScore < r.relevanceScore) ∧
      ∀ a ∈ post, a.relevanceScore ≤ r.relevanceScore := by
  induction cs using List.reverseRecOn generalizing r with
  | nil => cases h
  | append_singleton cs c ih =>
    rw [best_concat] at h
    have hr := Option.some.inj h
    cases hbest : best cs with
    | none =>
      have hnil : cs = [] := by
        cases cs using List.reverseRecOn with
        | nil => rfl
        | append_singleton cs d =>
          rw [best_concat] at hbest
          cases hbest
      rw [hbest] at hr
      cases hr
      rw [hnil]
      exact ⟨[], [], rfl, fun a ha => absurd ha List.not_mem_nil,
        fun a ha => absurd ha List.not_mem_nil⟩
    | some e =>
      rw [hbest, better] at hr
      obtain ⟨pre, post, hcs, hpre, hpost⟩ := ih hbest
      by_cases hlt : e.relevanceScore < c.relevanceScore
      · rw [if_pos hlt] at hr
        cases hr
        refine ⟨cs, [], rfl, fun a ha => ?_, fun a ha => absurd ha List.not_mem_nil⟩
        rw [hcs] at ha
        rcases List.mem_append.1 ha with ha | ha
        · exact lt_trans (hpre a ha) hlt
        · rcases List.mem_cons.1 ha with rfl | ha
          · exact hlt
          · exact lt_of_le_of_lt (hpost a ha) hlt
      · rw [if_neg hlt] at hr
        cases hr
        refine ⟨pre, post ++ [c], by rw [hcs, List.append_assoc, List.cons_append], hpre, ?_⟩
        exact List.forall_mem_append.2
          ⟨hpost, List.forall_mem_singleton.2 (not_lt.1 hlt)⟩

theorem mem_of_best (h : best cs = some r) : r ∈ cs := by
  obtain ⟨pre, post, rfl, _, _⟩ := best_spec h
  exact List.mem_append_right _ List.mem_cons_self

theorem exists_best (h : c ∈ cs) : ∃ r, best cs = some r := by
  cases cs using List.reverseRecOn with
  | nil => cases h
  | append_singleton cs d => exact ⟨_, best_concat cs d⟩

abbrev sameId (cs : List RetrievedChunk) (c : RetrievedChunk) : List RetrievedChunk :=
  cs.filter fun d => decide (d.chunkId = c.chunkId)

theorem mem_mergeAndRerank : c ∈ mergeAndRerank cs ↔ best (sameId cs c) = some c := by
  rw [mergeAndRerank, (perm_sortBy _ _).mem_iff, Dict.mem_values]
  apply Iff.intro
  · rintro ⟨k, hk⟩
    rw [foldl_keepBest_get?] at hk
    have hid : c.chunkId = k := of_decide_eq_true (List.mem_filter.1 (mem_of_best hk)).2
    rw [← hid] at hk
    exact hk
  · intro h
    exact ⟨c.chunkId, (foldl_keepBest_get? cs c.chunkId).trans h⟩

theorem mem_of_mem_mergeAndRerank (h : c ∈ mergeAndRerank cs) : c ∈ cs :=
  (List.mem_filter.1 (mem_of_best (mem_mergeAndRerank.1 h))).1

theorem before_of_best (h : best (sameId cs c) = some r)
    (hscore : c.relevanceScore = r.relevanceScore) : Before cs r c := by
  obtain ⟨pre, post, hsplit, hpre, _⟩ := best_spec h
  obtain ⟨l₁, l₂, hcs, hl₁, hl₂⟩ := List.filter_eq_append_iff.1 hsplit
  obtain ⟨m₁, m₂, hl₂', hm₁, _, _⟩ := List.filter_eq_cons_iff.1 hl₂
  refine ⟨l₁ ++ m₁, m₂, by rw [hcs, hl₂', List.append_assoc], fun hc => ?_⟩
  rcases List.mem_append.1 hc with hc | hc
  · have hmem : c ∈ pre := by
      rw [← hl₁]
      exact List.mem_filter.2 ⟨hc, decide_eq_true rfl⟩
    exact absurd hscore (ne_of_lt (hpre c hmem))
  · exact hm₁ c hc (decide_eq_true rfl)

theorem not_before_of_best (h : best (sameId cs c) = some c) (hd : d.chunkId = c.chunkId)
    (hne : d ≠ c) (hscore : c.relevanceScore = d.relevanceScore) : ¬ Before cs d c := by
  rintro ⟨p₁, p₂, hcs, hc⟩
  obtain ⟨pre, post, hsplit, hpre, _⟩ := best_spec h
  have hd' : d ∉ pre := fun hm => ne_of_lt (hpre d hm) hscore.symm
  have hsplit' : p₁.filter (fun d => decide (d.chunkId = c.chunkId)) ++
      d :: p₂.filter (fun d => decide (d.chunkId = c.chunkId)) = pre ++ c :: post := by
    rw [← hsplit, sameId, hcs, List.filter_append,
      List.filter_cons_of_pos (p := fun d : RetrievedChunk => decide (d.chunkId = c.chunkId))
        (decide_eq_true hd)]
  rcases List.append_eq_append_iff.1 hsplit' with ⟨as, h₁, h₂⟩ | ⟨as, h₁, h₂⟩
  · cases as with
    | nil => exact hne (List.head_eq_of_cons_eq h₂)
    | cons a as =>
      apply hd'
      rw [h₁, List.head_eq_of_cons_eq h₂]
      exact List.mem_append_right _ List.mem_cons_self
  · cases as with
    | nil => exact hne (List.head_eq_of_cons_eq h₂).symm
    | cons a as =>
      apply hc
      have hmem : c ∈ p₁.filter fun d => decide (d.chunkId = c.chunkId) := by
        rw [h₁, List.head_eq_of_cons_eq h₂]
        exact List.mem_append_right _ List.mem_cons_self
      exact (List.mem_filter.1 hmem).1

theorem mem_mergeAndRerank_iff (hc : c ∈ cs) : c ∈ mergeAndRerank cs ↔ ¬ Outdone cs c := by
  rw [mem_mergeAndRerank]
  have hclass : c ∈ sameId cs c := List.mem_filter.2 ⟨hc, decide_eq_true rfl⟩
  obtain ⟨r, hr⟩ := exists_best hclass
  obtain ⟨pre, post, hsplit, hpre, hpost⟩ := best_spec hr
  have hle : ∀ d ∈ sameId cs c, d.relevanceScore ≤ r.relevanceScore := by
    intro d hd
    rw [hsplit] at hd
    rcases List.mem_append.1 hd with hd | hd
    · exact le_of_lt (hpre d hd)
    · rcases List.mem_cons.1 hd with rfl | hd
      · exact le_refl _
      · exact hpost d hd
  apply Iff.intro
  · rintro hbest ⟨d, hd, hne, hid, hscore⟩
    cases hr.symm.trans hbest
    rcases hscore with hlt | ⟨heq, hbefore⟩
    · exact absurd hlt (not_lt.2 (hle d (List.mem_filter.2 ⟨hd, decide_eq_true hid⟩)))
    · exact not_before_of_best hr hid hne heq hbefore
  · intro hnot
    by_contra hother
    have hne : r ≠ c := fun he => hother (he ▸ hr)
    apply hnot
    obtain ⟨hmem, hid⟩ := List.mem_filter.1 (mem_of_best hr)
    refine ⟨r, hmem, hne, of_decide_eq_true hid, ?_⟩
    rcases lt_or_eq_of_le (hle c hclass) with hlt | heq
    · exact Or.inl hlt
    · exact Or.inr ⟨heq, before_of_best hr heq⟩

/-! ### Filling the budget -/

def tokens (cs : List RetrievedChunk) : Nat := (cs.map RetrievedChunk.cost).sum

def fitFrom (budget used : Nat) : List RetrievedChunk → List RetrievedChunk
  | [] => []
  | c :: cs =>
    if used + c.cost ≤ budget then c :: fitFrom budget (used + c.cost) cs
    else fitFrom budget used cs

theorem foldl_fitOne (budget : Nat) (cs kept : List RetrievedChunk) (used : Nat) :
    (cs.foldl (fitOne budget) (kept, used)).1 = kept ++ fitFrom budget used cs := by
  induction cs generalizing kept used with
  | nil => exact (List.append_nil kept).symm
  | cons c cs ih =>
    rw [List.foldl_cons, fitOne, fitFrom]
    simp only [Int.ofNat_le]
    by_cases hfits : used + c.cost ≤ budget
    · rw [if_pos hfits, if_pos hfits, ih, List.append_assoc]
      rfl
    · rw [if_neg hfits, if_neg hfits, ih]

theorem fitToBudget_eq (cs : List RetrievedChunk) (budget : Nat) :
    fitToBudget cs budget = if budget = 0 then [] else fitFrom budget 0 cs := by
  by_cases hzero : budget = 0
  · rw [fitToBudget, if_neg (by omega), if_pos hzero]
  · rw [fitToBudget, if_pos (by omega), if_neg hzero, foldl_fitOne, List.nil_append]

theorem fitFrom_sublist (budget used : Nat) (cs : List RetrievedChunk) :
    (fitFrom budget used cs).Sublist cs := by
  induction cs generalizing used with
  | nil => exact List.Sublist.refl []
  | cons c cs ih =>
    rw [fitFrom]
    by_cases hfits : used + c.cost ≤ budget
    · rw [if_pos hfits]
      exact (ih _).cons_cons c
    · rw [if_neg hfits]
      exact (ih _).cons c

theorem tokens_cons (c : RetrievedChunk) (cs : List RetrievedChunk) :
    tokens (c :: cs) = c.cost + tokens cs := by
  rw [tokens, List.map_cons, List.sum_cons]
  rfl

theorem tokens_fitFrom (h : used ≤ budget) (cs : List RetrievedChunk) :
    used + tokens (fitFrom budget used cs) ≤ budget := by
  induction cs generalizing used with
  | nil => exact h
  | cons c cs ih =>
    rw [fitFrom]
    by_cases hfits : used + c.cost ≤ budget
    · rw [if_pos hfits, tokens_cons, ← Nat.add_assoc]
      exact ih hfits
    · rw [if_neg hfits]
      exact ih h

def Crowded (budget : Nat) (kept : List RetrievedChunk) (c : RetrievedChunk) : Prop :=
  ∃ n, (∀ d ∈ kept.take n, c.relevanceScore ≤ d.relevanceScore) ∧
    budget < tokens (kept.take n) + c.cost

theorem crowded_of_fitFrom (hsorted : cs.Pairwise fun c d => d.relevanceScore ≤ c.relevanceScore)
    (hc : c ∈ cs) (hnot : c ∉ fitFrom budget used cs) :
    ∃ n, (∀ d ∈ (fitFrom budget used cs).take n, c.relevanceScore ≤ d.relevanceScore) ∧
      budget < used + tokens ((fitFrom budget used cs).take n) + c.cost := by
  induction cs generalizing used with
  | nil => cases hc
  | cons a cs ih =>
    obtain ⟨ha, hrest⟩ := List.pairwise_cons.1 hsorted
    rw [fitFrom] at hnot ⊢
    by_cases hfits : used + a.cost ≤ budget
    · rw [if_pos hfits] at hnot ⊢
      rw [List.mem_cons, not_or] at hnot
      obtain ⟨hne, hnot⟩ := hnot
      have hmem := (List.mem_cons.1 hc).resolve_left hne
      obtain ⟨n, hranked, hover⟩ := ih hrest hmem hnot
      refine ⟨n + 1, ?_, ?_⟩
      · rw [List.take_succ_cons]
        exact List.forall_mem_cons.2 ⟨ha c hmem, hranked⟩
      · rw [List.take_succ_cons, tokens_cons]
        omega
    · rw [if_neg hfits] at hnot ⊢
      rcases List.mem_cons.1 hc with rfl | hmem
      · refine ⟨0, fun d hd => absurd hd List.not_mem_nil, ?_⟩
        rw [List.take_zero, tokens, List.map_nil, List.sum_nil]
        omega
      · exact ih hrest hmem hnot

/-! ### What may be dropped -/

structure WithinBudget (budget : Nat) (chunks kept : List RetrievedChunk) : Prop where
  retrieved : kept.Subperm chunks
  ordered : kept.Pairwise fun c d => d.relevanceScore ≤ c.relevanceScore
  tokens_le : tokens kept ≤ budget
  missing : ∀ c ∈ chunks, c ∉ kept → Duplicated chunks c ∨ Crowded budget kept c

def LosesNone (chunks merged : List RetrievedChunk) : Prop :=
  ∀ c ∈ chunks, c ∉ merged → Duplicated chunks c

def SourcesApart (chunks : List RetrievedChunk) : Prop :=
  ∀ c ∈ chunks, Outdone chunks c → Duplicated chunks c

theorem losesNone_iff (chunks : List RetrievedChunk) :
    LosesNone chunks (mergeAndRerank chunks) ↔ SourcesApart chunks := by
  apply forall_congr'
  intro c
  apply forall_congr'
  intro hc
  rw [mem_mergeAndRerank_iff hc, not_not]

theorem mergeAndRerank_sorted (chunks : List RetrievedChunk) :
    (mergeAndRerank chunks).Pairwise fun c d => d.relevanceScore ≤ c.relevanceScore := by
  apply (pairwise_sortBy _ _).imp
  intro c d h
  exact neg_le_neg_iff.1 h

theorem mergeAndRerank_nodup (chunks : List RetrievedChunk) : (mergeAndRerank chunks).Nodup := by
  apply (perm_sortBy _ _).nodup_iff.2
  have hids : (chunks.foldl keepBest ∅).values.map RetrievedChunk.chunkId =
      (chunks.foldl keepBest ∅).keys := by
    rw [Dict.values, Dict.keys, List.map_map]
    apply List.map_congr_left
    intro e he
    have hget := Dict.get?_eq_some.2 he
    rw [foldl_keepBest_get?] at hget
    exact of_decide_eq_true (List.mem_filter.1 (mem_of_best hget)).2
  apply List.Nodup.of_map RetrievedChunk.chunkId
  rw [hids]
  exact (chunks.foldl keepBest ∅).nodup

theorem mergeAndRerank_subperm (chunks : List RetrievedChunk) :
    (mergeAndRerank chunks).Subperm chunks :=
  List.subperm_of_subset (mergeAndRerank_nodup chunks) fun _ h => mem_of_mem_mergeAndRerank h

theorem rerank_all (chunks : List RetrievedChunk) :
    rerank chunks chunks.length = mergeAndRerank chunks := by
  have hlen := (mergeAndRerank_subperm chunks).length_le
  rw [rerank]
  apply List.take_of_length_le
  omega

theorem budgetContext_eq {cfg : BudgetSettings} (h : cfg.active = true)
    (chunks : List RetrievedChunk) :
    budgetContext cfg chunks = if cfg.ragContextBudgetTokens = 0 then []
      else fitFrom cfg.ragContextBudgetTokens 0 (mergeAndRerank chunks) := by
  rw [budgetContext, if_pos h, rerank_all, fitToBudget_eq]

theorem withinBudget (chunks : List RetrievedChunk) (budget : Nat) (h : SourcesApart chunks)
    (hempty : ∀ c ∈ chunks, c.cost = 0 → Duplicated chunks c) :
    WithinBudget budget chunks
      (if budget = 0 then [] else fitFrom budget 0 (mergeAndRerank chunks)) := by
  by_cases hzero : budget = 0
  · rw [if_pos hzero]
    exact {
      retrieved := List.nil_subperm
      ordered := .nil
      tokens_le := Nat.zero_le _
      missing := by
        intro c hc _
        by_cases hcost : c.cost = 0
        · exact Or.inl (hempty c hc hcost)
        · refine Or.inr ⟨0, fun d hd => absurd hd List.not_mem_nil, ?_⟩
          rw [List.take_zero, tokens, List.map_nil, List.sum_nil]
          omega }
  · rw [if_neg hzero]
    have hsub := fitFrom_sublist budget 0 (mergeAndRerank chunks)
    exact {
      retrieved := hsub.subperm.trans (mergeAndRerank_subperm chunks)
      ordered := (mergeAndRerank_sorted chunks).sublist hsub
      tokens_le := by
        have hle := tokens_fitFrom (Nat.zero_le budget) (mergeAndRerank chunks)
        omega
      missing := by
        intro c hc hnot
        by_cases hmerged : c ∈ mergeAndRerank chunks
        · obtain ⟨n, hranked, hover⟩ :=
            crowded_of_fitFrom (mergeAndRerank_sorted chunks) hmerged hnot
          exact Or.inr ⟨n, hranked, by omega⟩
        · exact Or.inl ((losesNone_iff chunks).2 h c hc hmerged) }

theorem tokens_take_le (cs : List RetrievedChunk) (n : Nat) : tokens (cs.take n) ≤ tokens cs := by
  induction cs generalizing n with
  | nil => rw [List.take_nil]
  | cons c cs ih =>
    cases n with
    | zero => exact Nat.zero_le _
    | succ n =>
      rw [List.take_succ_cons, tokens_cons, tokens_cons]
      exact Nat.add_le_add_left (ih n) _

theorem not_crowded (h : tokens kept + c.cost ≤ budget) : ¬ Crowded budget kept c := by
  rintro ⟨n, _, hover⟩
  have hle := tokens_take_le kept n
  omega

theorem apart_of_withinBudget {chunks : List RetrievedChunk}
    (h : ∀ budget, WithinBudget budget chunks
      (if budget = 0 then [] else fitFrom budget 0 (mergeAndRerank chunks))) :
    SourcesApart chunks ∧ ∀ c ∈ chunks, c.cost = 0 → Duplicated chunks c := by
  apply And.intro
  · intro c hc hout
    have hlarge := h (tokens (mergeAndRerank chunks) + c.cost + 1)
    rw [if_neg (Nat.succ_ne_zero _)] at hlarge
    have hsub := fitFrom_sublist (tokens (mergeAndRerank chunks) + c.cost + 1) 0
      (mergeAndRerank chunks)
    have hnot : c ∉ fitFrom (tokens (mergeAndRerank chunks) + c.cost + 1) 0
        (mergeAndRerank chunks) := fun hm =>
      (mem_mergeAndRerank_iff hc).1 (hsub.subset hm) hout
    apply (hlarge.missing c hc hnot).resolve_right
    apply not_crowded
    have hle : tokens (fitFrom (tokens (mergeAndRerank chunks) + c.cost + 1) 0
        (mergeAndRerank chunks)) ≤ tokens (mergeAndRerank chunks) :=
      (hsub.map RetrievedChunk.cost).sum_le_sum fun _ _ => Nat.zero_le _
    omega
  · intro c hc hcost
    have hnone := h 0
    rw [if_pos rfl] at hnone
    apply (hnone.missing c hc List.not_mem_nil).resolve_right
    apply not_crowded
    rw [hcost]
    exact Nat.le_refl 0

/-- In every budget only what must be dropped is dropped, exactly when chunks of different sources
do not outdo each other by their ids, and empty ones, which no budget of zero keeps, are
duplicates; and a federated search loses nothing else exactly when its sources are apart. -/
theorem budgetContext_keeps_iff (chunks : List RetrievedChunk)
    (here : Except ε (List RetrievedChunk)) (nodes : List (RemoteNode ε)) :
    ((∀ cfg : BudgetSettings, cfg.active = true →
        WithinBudget cfg.ragContextBudgetTokens chunks (budgetContext cfg chunks)) ↔
      SourcesApart chunks ∧ ∀ c ∈ chunks, c.cost = 0 → Duplicated chunks c) ∧
    (LosesNone (allChunks here nodes) (federatedSearch here nodes) ↔
      SourcesApart (allChunks here nodes)) := by
  apply And.intro
  · apply Iff.intro
    · intro h
      apply apart_of_withinBudget
      intro budget
      have hactive := h ⟨true, true, budget⟩ rfl
      rw [budgetContext_eq rfl] at hactive
      exact hactive
    · intro h cfg hactive
      rw [budgetContext_eq hactive]
      exact withinBudget chunks _ h.1 h.2
  · exact losesNone_iff _

def numberedAlike : List RetrievedChunk :=
  [⟨"a.md", "0", 1, "alpha"⟩, ⟨"b.md", "0", 2, "beta"⟩]

theorem budgetContext_replaces :
    ¬ WithinBudget 100 numberedAlike (budgetContext ⟨true, true, 100⟩ numberedAlike) ∧
      ¬ LosesNone numberedAlike
        (federatedSearch (.ok numberedAlike) ([] : List (RemoteNode Empty))) := by
  have hc : (⟨"a.md", "0", 1, "alpha"⟩ : RetrievedChunk) ∈ numberedAlike := List.mem_cons_self
  have hout : Outdone numberedAlike ⟨"a.md", "0", 1, "alpha"⟩ :=
    ⟨⟨"b.md", "0", 2, "beta"⟩, List.mem_cons_of_mem _ (List.mem_singleton_self _), by decide, rfl,
      Or.inl (by norm_num)⟩
  have hmerged := mt (mem_mergeAndRerank_iff hc).1 (not_not.2 hout)
  have hdup : ¬ Duplicated numberedAlike ⟨"a.md", "0", 1, "alpha"⟩ := by
    rintro ⟨d, hd, hne, hsource, _⟩
    rcases List.mem_cons.1 hd with rfl | hd
    · exact hne rfl
    · cases List.mem_singleton.1 hd
      exact absurd hsource (by decide)
  apply And.intro
  · intro h
    rw [budgetContext_eq rfl, if_neg (by decide)] at h
    have hsub := fitFrom_sublist 100 0 (mergeAndRerank numberedAlike)
    rcases h.missing _ hc fun hm => hmerged (hsub.subset hm) with hd | hcrowded
    · exact hdup hd
    · apply not_crowded _ hcrowded
      obtain ⟨l, hperm, hsublist⟩ := h.retrieved
      have hle : tokens l ≤ tokens numberedAlike :=
        (hsublist.map RetrievedChunk.cost).sum_le_sum fun _ _ => Nat.zero_le _
      have heq : tokens l = tokens (fitFrom 100 0 (mergeAndRerank numberedAlike)) :=
        (hperm.map RetrievedChunk.cost).sum_eq
      rw [← heq]
      exact le_trans (Nat.add_le_add_right hle _) (by decide)
  · intro h
    exact hdup (h _ hc hmerged)

end Prismal.Rag
