import Mathlib.Algebra.Order.BigOperators.Group.List
import Mathlib.Algebra.Order.Field.Rat
import Mathlib.Tactic.NormNum
import Prismal.Lib.Dict
import Prismal.Lib.SortBy

namespace Prismal.Rag
open Prismal.Lib
set_option autoImplicit true

/-! Reciprocal rank fusion of the results of several queries. Scores are exact. -/

structure Document where
  pageContent : String
  source : Option String := none
  chunkId : Option String := none
  deriving DecidableEq, Repr

structure RetrievedChunk where
  source : String
  chunkId : String
  relevanceScore : Rat
  content : String
  deriving DecidableEq, Repr

abbrev Key := String × String

def RetrievedChunk.key (c : RetrievedChunk) : Key := (c.source, c.chunkId)

abbrev Hit := Document × Rat

def chunkOf (hit : Hit) (i : Nat) : RetrievedChunk where
  source := hit.1.source.getD "unknown"
  chunkId := hit.1.chunkId.getD (toString i)
  relevanceScore := hit.2
  content := hit.1.pageContent

def chunksOf (raw : List Hit) : List RetrievedChunk := raw.zipIdx.map fun o => chunkOf o.1 o.2

/-- `scores` and `representative`. -/
structure Tally where
  scores : Dict Key Rat := ∅
  representative : Dict Key RetrievedChunk := ∅

def Tally.add (k : Nat) (t : Tally) (entry : RetrievedChunk × Nat) : Tally where
  scores := t.scores.set entry.1.key
    ((t.scores.get? entry.1.key).getD 0 + 1 / ((k + entry.2 : Nat) : Rat))
  representative := t.representative.set entry.1.key
    ((t.representative.get? entry.1.key).getD entry.1)

/-- The two loops of `reciprocal_rank_fusion`. -/
def tally (k : Nat) (rankedLists : List (List RetrievedChunk)) : Tally :=
  rankedLists.foldl (fun t ranked => (ranked.zipIdx 1).foldl (Tally.add k) t) {}

def reciprocalRankFusion (k : Nat) (rankedLists : List (List RetrievedChunk)) :
    List RetrievedChunk :=
  let t := tally k rankedLists
  sortBy (fun c => -((t.scores.get? c.key).getD 0)) (t.scores.keys.filterMap t.representative.get?)

/-- `_run_parallel_searches`, of queries with what the store returns for each. -/
def runParallelSearches (results : List (String × List Hit)) : Dict String (List RetrievedChunk) :=
  Dict.collect (results.map fun r => (r.1, chunksOf r.2))

/-- The fused list of `RAGFusionEngine.search`. -/
def fusionSearch (k : Nat) (results : List (String × List Hit)) : List RetrievedChunk :=
  let perQueryResults := runParallelSearches results
  reciprocalRankFusion k (results.map fun r => (perQueryResults.get? r.1).getD [])

/-! ### What the loops add up -/

def weight (k : Nat) (entry : RetrievedChunk × Nat) : Rat := 1 / ((k + entry.2 : Nat) : Rat)

def ranked (rankedLists : List (List RetrievedChunk)) : List (RetrievedChunk × Nat) :=
  rankedLists.flatMap fun l => l.zipIdx 1

theorem tally_eq (k : Nat) (rankedLists : List (List RetrievedChunk)) :
    tally k rankedLists =
      { scores := Dict.gather (fun e => e.1.key) (fun o e => o.getD 0 + weight k e)
          (ranked rankedLists)
        representative := Dict.gather (fun e => e.1.key) (fun o e => o.getD e.1)
          (ranked rankedLists) } := by
  have hfold : tally k rankedLists = (ranked rankedLists).foldl (Tally.add k) {} :=
    List.foldl_flatMap.symm
  rw [hfold]
  induction ranked rankedLists using List.reverseRecOn with
  | nil => rfl
  | append_singleton es e ih =>
    rw [List.foldl_concat, ih, Dict.gather_concat, Dict.gather_concat]
    rfl

def total (k : Nat) (p : RetrievedChunk × Nat → Bool) (es : List (RetrievedChunk × Nat)) : Rat :=
  ((es.filter p).map (weight k)).sum

theorem foldl_weight (k : Nat) (es : List (RetrievedChunk × Nat)) :
    (es.foldl (fun o e => some (o.getD 0 + weight k e)) none).getD 0 = (es.map (weight k)).sum := by
  induction es using List.reverseRecOn with
  | nil => rfl
  | append_singleton es e ih =>
    rw [List.foldl_concat, Option.getD_some, ih, List.map_append, List.sum_append,
      List.map_singleton, List.sum_singleton]

theorem foldl_first (es : List (RetrievedChunk × Nat)) :
    es.foldl (fun o e => some (o.getD e.1)) none = es.head?.map Prod.fst := by
  induction es using List.reverseRecOn with
  | nil => rfl
  | append_singleton es e ih =>
    rw [List.foldl_concat, ih]
    cases es <;> rfl

theorem scores_get? (k : Nat) (lists : List (List RetrievedChunk)) (key : Key) :
    ((tally k lists).scores.get? key).getD 0 =
      total k (fun e => decide (e.1.key = key)) (ranked lists) := by
  rw [tally_eq, Dict.get?_gather, foldl_weight]
  rfl

theorem mem_scores {lists : List (List RetrievedChunk)} :
    key ∈ (tally k lists).scores.keys ↔ ∃ e ∈ ranked lists, e.1.key = key := by
  rw [tally_eq]
  exact Dict.mem_gather.trans List.mem_map

theorem representative_get? (k : Nat) (lists : List (List RetrievedChunk)) (key : Key) :
    (tally k lists).representative.get? key =
      ((ranked lists).find? fun e => decide (e.1.key = key)).map Prod.fst := by
  rw [tally_eq, Dict.get?_gather, foldl_first, List.head?_filter]

theorem map_filterMap_inverse {f : α → Option β} {g : β → α} {l : List α}
    (h : ∀ a ∈ l, ∃ b, f a = some b ∧ g b = a) : (l.filterMap f).map g = l := by
  induction l with
  | nil => rfl
  | cons a l ih =>
    obtain ⟨hhead, htail⟩ := List.forall_mem_cons.1 h
    obtain ⟨b, hb, hg⟩ := hhead
    rw [List.filterMap_cons_some hb, List.map_cons, hg, ih htail]

theorem representative_of_mem {lists : List (List RetrievedChunk)}
    (h : ∃ e ∈ ranked lists, e.1.key = key) :
    ∃ e ∈ ranked lists, (tally k lists).representative.get? key = some e.1 ∧ e.1.key = key := by
  obtain ⟨e, he, hkey⟩ := h
  have hsome : ((ranked lists).find? fun e => decide (e.1.key = key)).isSome = true :=
    List.find?_isSome.2 ⟨e, he, decide_eq_true hkey⟩
  obtain ⟨first, hfirst⟩ := Option.isSome_iff_exists.1 hsome
  refine ⟨first, List.mem_of_find?_eq_some hfirst, ?_, ?_⟩
  · rw [representative_get?, hfirst]
    rfl
  · have hfound := List.find?_some hfirst
    exact of_decide_eq_true hfound

def unsorted (k : Nat) (lists : List (List RetrievedChunk)) : List RetrievedChunk :=
  (tally k lists).scores.keys.filterMap (tally k lists).representative.get?

theorem map_key_unsorted (k : Nat) (lists : List (List RetrievedChunk)) :
    (unsorted k lists).map RetrievedChunk.key = (tally k lists).scores.keys := by
  apply map_filterMap_inverse
  intro key hkey
  obtain ⟨e, _, hget, hk⟩ := representative_of_mem (k := k) (mem_scores.1 hkey)
  exact ⟨e.1, hget, hk⟩

theorem mem_fused {lists : List (List RetrievedChunk)} :
    c ∈ reciprocalRankFusion k lists ↔ c ∈ unsorted k lists :=
  (perm_sortBy _ _).mem_iff

theorem exists_of_mem_fused {lists : List (List RetrievedChunk)}
    (h : c ∈ reciprocalRankFusion k lists) : ∃ e ∈ ranked lists, e.1 = c := by
  obtain ⟨key, hkey, hget⟩ := List.mem_filterMap.1 (mem_fused.1 h)
  obtain ⟨e, he, hget', _⟩ := representative_of_mem (k := k) (mem_scores.1 hkey)
  cases hget.symm.trans hget'
  exact ⟨e, he, rfl⟩

theorem exists_fused {lists : List (List RetrievedChunk)} (h : e ∈ ranked lists) :
    ∃ c ∈ reciprocalRankFusion k lists, c.key = e.1.key := by
  have hkey : e.1.key ∈ (unsorted k lists).map RetrievedChunk.key := by
    rw [map_key_unsorted]
    exact mem_scores.2 ⟨e, h, rfl⟩
  obtain ⟨c, hc, hck⟩ := List.mem_map.1 hkey
  exact ⟨c, mem_fused.2 hc, hck⟩

theorem nodup_keys_fused (k : Nat) (lists : List (List RetrievedChunk)) :
    ((reciprocalRankFusion k lists).map RetrievedChunk.key).Nodup := by
  apply ((perm_sortBy _ _).map RetrievedChunk.key).nodup_iff.2
  exact (map_key_unsorted k lists).symm ▸ (tally k lists).scores.nodup

theorem fused_sorted (k : Nat) (lists : List (List RetrievedChunk)) :
    (reciprocalRankFusion k lists).Pairwise fun c d =>
      total k (fun e => decide (e.1.key = d.key)) (ranked lists) ≤
        total k (fun e => decide (e.1.key = c.key)) (ranked lists) := by
  apply (pairwise_sortBy _ _).imp
  intro c d h
  rw [← scores_get?, ← scores_get?]
  exact neg_le_neg_iff.1 h

/-! ### The documents behind the entries -/

abbrev Occurrence := Hit × Nat

def Occurrence.doc (o : Occurrence) : Document := o.1.1

def Occurrence.chunk (o : Occurrence) : RetrievedChunk := chunkOf o.1 o.2

def occurrences (results : List (String × List Hit)) : List Occurrence :=
  results.flatMap fun r => r.2.zipIdx

/-- The sum, over the lists that contain the document, of `1 / (k + rank)`. -/
def documentTotal (k : Nat) (results : List (String × List Hit)) (d : Document) : Rat :=
  (((occurrences results).filter fun o => decide (o.doc = d)).map fun o =>
    1 / ((k + (o.2 + 1) : Nat) : Rat)).sum

def Identified (results : List (String × List Hit)) : Prop :=
  ∀ o ∈ occurrences results, ∀ o' ∈ occurrences results, o.chunk.key = o'.chunk.key ↔ o.doc = o'.doc

/-- What a fused list is to be: no entry stands for two documents, and the entries are one for each
retrieved document, ordered by the sums of the documents. -/
structure Faithful (k : Nat) (results : List (String × List Hit)) (fused : List RetrievedChunk) :
    Prop where
  apart : ∀ o ∈ occurrences results, ∀ o' ∈ occurrences results,
    o.chunk.key = o'.chunk.key → o.doc = o'.doc
  once : ∃ docOf : RetrievedChunk → Document,
    (∀ c ∈ fused, ∃ o ∈ occurrences results, o.doc = docOf c ∧ o.chunk = c) ∧
      (fused.map docOf).Nodup ∧
      (∀ o ∈ occurrences results, o.doc ∈ fused.map docOf) ∧
      fused.Pairwise fun c d => documentTotal k results (docOf d) ≤ documentTotal k results (docOf c)

theorem zipIdx_map_zipIdx (f : α × Nat → β) (l : List α) (n : Nat) :
    ((l.zipIdx n).map f).zipIdx (n + 1) = (l.zipIdx n).map fun o => (f o, o.2 + 1) := by
  induction l generalizing n with
  | nil => rfl
  | cons a l ih =>
    rw [List.zipIdx_cons, List.map_cons, List.zipIdx_cons, ih, List.map_cons]

theorem fusionSearch_eq {results : List (String × List Hit)} (h : (results.map Prod.fst).Nodup) :
    fusionSearch k results = reciprocalRankFusion k (results.map fun r => chunksOf r.2) := by
  have hkeys : ((results.map fun r => (r.1, chunksOf r.2)).map Prod.fst).Nodup := by
    rw [List.map_map]
    exact h
  rw [fusionSearch]
  congr 1
  apply List.map_congr_left
  intro r hr
  show ((runParallelSearches results).get? r.1).getD [] = _
  rw [runParallelSearches, Dict.get?_collect hkeys (List.mem_map_of_mem hr)]
  rfl

theorem ranked_eq (results : List (String × List Hit)) :
    ranked (results.map fun r => chunksOf r.2) =
      (occurrences results).map fun o => (o.chunk, o.2 + 1) := by
  rw [ranked, occurrences, List.flatMap_map, List.map_flatMap]
  congr 1
  funext r
  exact zipIdx_map_zipIdx (fun o => chunkOf o.1 o.2) r.2 0

theorem mem_ranked {results : List (String × List Hit)} :
    e ∈ ranked (results.map fun r => chunksOf r.2) ↔
      ∃ o ∈ occurrences results, (o.chunk, o.2 + 1) = e := by
  rw [ranked_eq, List.mem_map]

theorem total_eq_documentTotal {results : List (String × List Hit)} (h : Identified results)
    (ho : o ∈ occurrences results) :
    total k (fun e => decide (e.1.key = o.chunk.key))
        (ranked (results.map fun r => chunksOf r.2)) =
      documentTotal k results o.doc := by
  have hfilter : (occurrences results).filter
        ((fun e : RetrievedChunk × Nat => decide (e.1.key = o.chunk.key)) ∘
          fun o => (o.chunk, o.2 + 1)) =
      (occurrences results).filter fun o' => decide (o'.doc = o.doc) := by
    apply List.filter_congr
    intro o' ho'
    exact decide_eq_decide.2 (h o' ho' o ho)
  rw [total, documentTotal, ranked_eq, List.filter_map, List.map_map, hfilter]
  rfl

theorem identified_of_faithful {results : List (String × List Hit)}
    (h : Faithful k results (reciprocalRankFusion k (results.map fun r => chunksOf r.2))) :
    Identified results := by
  intro o ho o' ho'
  refine ⟨h.apart o ho o' ho', fun hdoc => ?_⟩
  obtain ⟨docOf, hentry, hnodup, _, _⟩ := h.once
  -- the entry of the key of an occurrence stands for its document
  have hdocOf : ∀ o ∈ occurrences results, ∀ c ∈
      reciprocalRankFusion k (results.map fun r => chunksOf r.2),
      c.key = o.chunk.key → docOf c = o.doc := by
    intro o ho c hc hkey
    obtain ⟨o₁, ho₁, hdoc₁, hchunk₁⟩ := hentry c hc
    rw [← hdoc₁]
    apply h.apart o₁ ho₁ o ho
    rw [hchunk₁, hkey]
  obtain ⟨c, hc, hck⟩ := exists_fused (k := k) (mem_ranked.2 ⟨o, ho, rfl⟩)
  obtain ⟨c', hc', hck'⟩ := exists_fused (k := k) (mem_ranked.2 ⟨o', ho', rfl⟩)
  have heq : c = c' := by
    apply List.inj_on_of_nodup_map hnodup hc hc'
    rw [hdocOf o ho c hc hck, hdocOf o' ho' c' hc' hck', hdoc]
  rw [← hck, heq, hck']

theorem faithful_of_identified {results : List (String × List Hit)} (h : Identified results) :
    Faithful k results (reciprocalRankFusion k (results.map fun r => chunksOf r.2)) := by
  have hsource : ∀ c : RetrievedChunk, ∃ d : Document,
      c ∈ reciprocalRankFusion k (results.map fun r => chunksOf r.2) →
        ∃ o ∈ occurrences results, o.doc = d ∧ o.chunk = c := by
    intro c
    by_cases hc : c ∈ reciprocalRankFusion k (results.map fun r => chunksOf r.2)
    · obtain ⟨e, he, rfl⟩ := exists_of_mem_fused hc
      obtain ⟨o, ho, rfl⟩ := mem_ranked.1 he
      exact ⟨o.doc, fun _ => ⟨o, ho, rfl, rfl⟩⟩
    · exact ⟨⟨"", none, none⟩, fun h => absurd h hc⟩
  choose docOf hdocOf using hsource
  have hkeys := nodup_keys_fused k (results.map fun r => chunksOf r.2)
  refine ⟨fun o ho o' ho' => (h o ho o' ho').1, docOf, hdocOf, ?_, ?_, ?_⟩
  · apply List.Nodup.map_on _ hkeys.of_map
    intro c hc d hd hdoc
    obtain ⟨o, ho, hco, rfl⟩ := hdocOf c hc
    obtain ⟨o', ho', hco', rfl⟩ := hdocOf d hd
    apply List.inj_on_of_nodup_map hkeys hc hd
    apply (h o ho o' ho').2
    rw [hco, hco', hdoc]
  · intro o ho
    obtain ⟨c, hc, hck⟩ := exists_fused (k := k) (mem_ranked.2 ⟨o, ho, rfl⟩)
    obtain ⟨o', ho', hco', rfl⟩ := hdocOf c hc
    rw [← (h o' ho' o ho).1 hck, hco']
    exact List.mem_map_of_mem hc
  · apply List.Pairwise.imp_of_mem _ (fused_sorted k _)
    intro c d hc hd hle
    obtain ⟨o, ho, hco, rfl⟩ := hdocOf c hc
    obtain ⟨o', ho', hco', rfl⟩ := hdocOf d hd
    rw [total_eq_documentTotal h ho, total_eq_documentTotal h ho', hco, hco'] at hle
    exact hle

/-- The fusion loses and conflates nothing exactly when the keys of the chunks, with what stands in
for missing metadata, tell the documents apart. -/
theorem fusionSearch_faithful_iff (k : Nat) (results : List (String × List Hit))
    (h : (results.map Prod.fst).Nodup) :
    Faithful k results (fusionSearch k results) ↔ Identified results := by
  rw [fusionSearch_eq h]
  exact ⟨identified_of_faithful, faithful_of_identified⟩

def anonymous : List (String × List Hit) :=
  [("q", [(⟨"first text", some "a.md", none⟩, 1)]),
    ("r", [(⟨"second text", some "a.md", none⟩, 1)])]

theorem fusionSearch_conflates : (anonymous.map Prod.fst).Nodup ∧
    ¬ Faithful 60 anonymous (fusionSearch 60 anonymous) := by
  have hnodup : (anonymous.map Prod.fst).Nodup := by decide
  refine ⟨hnodup, ?_⟩
  intro h
  have hsame := h.apart ((⟨"first text", some "a.md", none⟩, 1), 0) (by decide +kernel)
    ((⟨"second text", some "a.md", none⟩, 1), 0) (by decide +kernel) rfl
  exact absurd hsame (by decide)

def identifiedResults : List (String × List Hit) :=
  [("q", [(⟨"first text", some "a.md", some "0"⟩, 1)]),
    ("r", [(⟨"second text", some "a.md", some "1"⟩, 1)])]

theorem fusionSearch_faithful_iff_two :
    Faithful 60 identifiedResults (fusionSearch 60 identifiedResults) ↔
      Identified identifiedResults :=
  fusionSearch_faithful_iff 60 identifiedResults (by decide)

end Prismal.Rag
