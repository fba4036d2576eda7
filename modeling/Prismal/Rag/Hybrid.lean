import Mathlib.Tactic.Linarith
import Mathlib.Tactic.Ring
import Prismal.Lib.Lists
import Prismal.Rag.Fusion

namespace Prismal.Rag
open Prismal.Lib
set_option autoImplicit true

/-! Hybrid search: the hits of the vector store joined with the scores of a BM25 index through the
textual ids of the index. -/

/-- `f"{source}:{chunk_id}"` -/
def docIdOf (key : Key) : String := key.1 ++ ":" ++ key.2

/-- A document of the index with its score for the query. The index itself only holds the id that
is made of the two parts. -/
structure IndexedDocument where
  source : String
  chunkId : String
  text : String
  score : Rat

def IndexedDocument.key (x : IndexedDocument) : Key := (x.source, x.chunkId)

def IndexedDocument.docId (x : IndexedDocument) : String := docIdOf x.key

/-- `rsplit(":", 1)` of a text that has a colon. -/
def splitLast (cs : List Char) : List Char × List Char :=
  ((cs.reverse.dropWhile (· ≠ ':')).tail.reverse, (cs.reverse.takeWhile (· ≠ ':')).reverse)

/-- `_doc_id_to_key` -/
def docIdToKey (docId : String) : Key :=
  if ':' ∈ docId.toList then
    (String.ofList (splitLast docId.toList).1, String.ofList (splitLast docId.toList).2)
  else (docId, "0")

/-- `_bm25_scores` -/
def bm25Scores (index : List IndexedDocument) : Dict String Rat :=
  Dict.collect (index.map fun x => (x.docId, x.score))

def normalised (scores : Dict String Rat) (score : Rat) : Rat :=
  let top := scores.values.max?.getD 0
  if 0 < top then score / top else 0

def normBm25 (scores : Dict String Rat) : Dict String Rat :=
  Dict.collect (scores.entries.map fun e => (e.1, normalised scores e.2))

/-- `_chunk_from_doc_id` -/
def chunkFromDocId (index : List IndexedDocument) (docId : String) (score : Rat) :
    RetrievedChunk where
  source := (docIdToKey docId).1
  chunkId := (docIdToKey docId).2
  relevanceScore := score
  content := ((index.find? fun x => decide (x.docId = docId)).map IndexedDocument.text).getD ""

/-- `fused` and `chunk_by_key`. -/
structure Fusing where
  fused : Dict Key Rat
  chunkByKey : Dict Key RetrievedChunk

section
variable (alpha : Rat) (semantic : List RetrievedChunk) (index : List IndexedDocument)

def semScoresByKey : Dict Key Rat :=
  Dict.collect (semantic.map fun c => (c.key, c.relevanceScore))

def fuseSemantic (norm : Dict String Rat) : Fusing where
  fused := Dict.collect ((semScoresByKey semantic).entries.map fun e =>
    (e.1, alpha * e.2 + (1 - alpha) * (norm.get? (docIdOf e.1)).getD 0))
  chunkByKey := Dict.collect (semantic.map fun c => (c.key, c))

def fuseIndexed (s : Fusing) (e : String × Rat) : Fusing :=
  let key := docIdToKey e.1
  if key ∈ s.fused then s
  else
    { fused := s.fused.set key
        (alpha * ((semScoresByKey semantic).get? key).getD 0 + (1 - alpha) * e.2)
      chunkByKey :=
        if key ∈ s.chunkByKey then s.chunkByKey
        else s.chunkByKey.set key (chunkFromDocId index e.1 e.2) }

def fuse (norm : Dict String Rat) : Fusing :=
  norm.entries.foldl (fuseIndexed alpha semantic index) (fuseSemantic alpha semantic norm)

def Fusing.chunk (s : Fusing) (key : Key) : Option RetrievedChunk :=
  (s.chunkByKey.get? key).map fun c => { c with relevanceScore := (s.fused.get? key).getD 0 }

/-- `search` without a context budget; without scores the hits are returned as they are. -/
def hybridSearch (k : Nat) : List RetrievedChunk :=
  let scores := bm25Scores index
  if scores.entries = [] then semantic.take k
  else
    let s := fuse alpha semantic index (normBm25 scores)
    ((sortBy (fun key => -((s.fused.get? key).getD 0)) s.fused.keys).take k).filterMap s.chunk

end

/-! ### The fused list in one piece -/

def normOf (index : List IndexedDocument) (x : IndexedDocument) : Rat :=
  normalised (bm25Scores index) x.score

def bm25Of (index : List IndexedDocument) (docId : String) : Rat :=
  ((index.find? fun x => decide (x.docId = docId)).map (normOf index)).getD 0

abbrev Joined := Key × RetrievedChunk × Rat

def Joined.chunk (j : Joined) : RetrievedChunk := { j.2.1 with relevanceScore := j.2.2 }

def joinSemantic (alpha : Rat) (semantic : List RetrievedChunk) (index : List IndexedDocument) :
    List Joined :=
  semantic.map fun c =>
    (c.key, c, alpha * c.relevanceScore + (1 - alpha) * bm25Of index (docIdOf c.key))

def joinIndexed (alpha : Rat) (semantic : List RetrievedChunk) (index xs : List IndexedDocument) :
    List Joined :=
  (xs.filter fun x => decide (docIdToKey x.docId ∉ semantic.map RetrievedChunk.key)).map fun x =>
    (docIdToKey x.docId, ⟨(docIdToKey x.docId).1, (docIdToKey x.docId).2, normOf index x, x.text⟩,
      (1 - alpha) * normOf index x)

def joined (alpha : Rat) (semantic : List RetrievedChunk) (index : List IndexedDocument) :
    List Joined :=
  joinSemantic alpha semantic index ++ joinIndexed alpha semantic index index

def Fusing.Holds (s : Fusing) (js : List Joined) : Prop :=
  s.fused.entries = js.map (fun j => (j.1, j.2.2)) ∧
    s.chunkByKey.entries = js.map fun j => (j.1, j.2.1)

theorem splitLast_eq {cs : List Char} (h : ':' ∉ t) : splitLast (cs ++ ':' :: t) = (cs, t) := by
  have hrev : (cs ++ ':' :: t).reverse = t.reverse ++ ':' :: cs.reverse := by
    rw [List.reverse_append, List.reverse_cons, List.append_assoc, List.singleton_append]
  have hall : ∀ c ∈ t.reverse, decide (c ≠ ':') = true := fun c hc =>
    decide_eq_true fun he => h (he ▸ List.mem_reverse.1 hc)
  rw [splitLast, hrev, List.dropWhile_append_of_pos hall, List.takeWhile_append_of_pos hall,
    List.dropWhile_cons_of_neg (by simp), List.takeWhile_cons_of_neg (by simp), List.tail_cons,
    List.reverse_reverse, List.append_nil, List.reverse_reverse]

theorem docIdOf_toList (key : Key) :
    (docIdOf key).toList = key.1.toList ++ ':' :: key.2.toList := by
  rw [docIdOf, String.toList_append, String.toList_append, List.append_assoc]
  rfl

theorem mem_docIdOf (key : Key) : ':' ∈ (docIdOf key).toList := by
  rw [docIdOf_toList]
  exact List.mem_append_right _ List.mem_cons_self

theorem docIdToKey_docIdOf {key : Key} (h : ':' ∉ key.2.toList) :
    docIdToKey (docIdOf key) = key := by
  rw [docIdToKey, if_pos (mem_docIdOf key), docIdOf_toList, splitLast_eq h, String.ofList_toList,
    String.ofList_toList]

theorem docIdToKey_spec (h : ':' ∈ docId.toList) :
    docIdOf (docIdToKey docId) = docId ∧ ':' ∉ (docIdToKey docId).2.toList := by
  obtain ⟨as, bs, hsplit, has⟩ := List.eq_append_cons_of_mem (List.mem_reverse.2 h)
  have hlist : docId.toList = bs.reverse ++ ':' :: as.reverse := by
    have hrev := congrArg List.reverse hsplit
    simpa only [List.reverse_reverse, List.reverse_append, List.reverse_cons, List.append_assoc,
      List.singleton_append] using hrev
  have has' : ':' ∉ as.reverse := fun hm => has (List.mem_reverse.1 hm)
  have hkey : docIdToKey docId = (String.ofList bs.reverse, String.ofList as.reverse) := by
    rw [docIdToKey, if_pos h, hlist, splitLast_eq has']
  rw [hkey]
  apply And.intro
  · apply String.toList_injective
    rw [docIdOf_toList, String.toList_ofList, String.toList_ofList, hlist]
  · rw [String.toList_ofList]
    exact has'

theorem docIdOf_docIdToKey (x : IndexedDocument) : docIdOf (docIdToKey x.docId) = x.docId :=
  (docIdToKey_spec (mem_docIdOf x.key)).1

theorem docIdToKey_eq_iff (x : IndexedDocument) :
    docIdToKey x.docId = x.key ↔ ':' ∉ x.chunkId.toList := by
  apply Iff.intro
  · intro h
    have hspec := (docIdToKey_spec (mem_docIdOf x.key)).2
    rw [← IndexedDocument.docId, h] at hspec
    exact hspec
  · intro h
    exact docIdToKey_docIdOf h

section
variable {alpha : Rat} {semantic : List RetrievedChunk} {index : List IndexedDocument}

theorem bm25Scores_entries (h : (index.map IndexedDocument.docId).Nodup) :
    (bm25Scores index).entries = index.map fun x => (x.docId, x.score) := by
  apply Dict.entries_collect
  rw [List.map_map]
  exact h

theorem normBm25_entries (h : (index.map IndexedDocument.docId).Nodup) :
    (normBm25 (bm25Scores index)).entries = index.map fun x => (x.docId, normOf index x) := by
  have heq : (bm25Scores index).entries.map (fun e => (e.1, normalised (bm25Scores index) e.2)) =
      index.map fun x => (x.docId, normOf index x) := by
    rw [bm25Scores_entries h, List.map_map]
    rfl
  rw [normBm25, heq]
  apply Dict.entries_collect
  rw [List.map_map]
  exact h

theorem find?_docId (h : (index.map IndexedDocument.docId).Nodup) (hx : x ∈ index) :
    index.find? (fun y => decide (y.docId = x.docId)) = some x := by
  have hsome : (index.find? fun y => decide (y.docId = x.docId)).isSome = true :=
    List.find?_isSome.2 ⟨x, hx, decide_eq_true rfl⟩
  obtain ⟨y, hy⟩ := Option.isSome_iff_exists.1 hsome
  have hid : y.docId = x.docId := by
    have hfound := List.find?_some hy
    exact of_decide_eq_true hfound
  rw [hy, List.inj_on_of_nodup_map h (List.mem_of_find?_eq_some hy) hx hid]

theorem normBm25_get? (h : (index.map IndexedDocument.docId).Nodup) (docId : String) :
    ((normBm25 (bm25Scores index)).get? docId).getD 0 = bm25Of index docId := by
  cases hfind : index.find? fun x => decide (x.docId = docId) with
  | some x =>
    have hid : x.docId = docId := by
      have hfound := List.find?_some hfind
      exact of_decide_eq_true hfound
    have hmem : (docId, normOf index x) ∈ (normBm25 (bm25Scores index)).entries := by
      rw [normBm25_entries h, ← hid]
      exact List.mem_map_of_mem (List.mem_of_find?_eq_some hfind)
    rw [bm25Of, hfind, Dict.get?_eq_some.2 hmem]
    rfl
  | none =>
    have hnot : docId ∉ normBm25 (bm25Scores index) := by
      intro hm
      have hkeys : docId ∈ (normBm25 (bm25Scores index)).entries.map Prod.fst := hm
      rw [normBm25_entries h, List.map_map] at hkeys
      obtain ⟨x, hx, hid⟩ := List.mem_map.1 hkeys
      have hno := List.find?_eq_none.1 hfind x hx
      exact hno (decide_eq_true hid)
    rw [bm25Of, hfind, Dict.get?_eq_none.2 hnot]
    rfl

theorem semScoresByKey_entries (h : (semantic.map RetrievedChunk.key).Nodup) :
    (semScoresByKey semantic).entries = semantic.map fun c => (c.key, c.relevanceScore) := by
  apply Dict.entries_collect
  rw [List.map_map]
  exact h

theorem fuseSemantic_holds (hs : (semantic.map RetrievedChunk.key).Nodup)
    (hi : (index.map IndexedDocument.docId).Nodup) :
    (fuseSemantic alpha semantic (normBm25 (bm25Scores index))).Holds
      (joinSemantic alpha semantic index) := by
  apply And.intro
  · have heq : ((semScoresByKey semantic).entries.map fun e => (e.1, alpha * e.2 +
          (1 - alpha) * ((normBm25 (bm25Scores index)).get? (docIdOf e.1)).getD 0)) =
        (joinSemantic alpha semantic index).map fun j => (j.1, j.2.2) := by
      rw [semScoresByKey_entries hs, joinSemantic, List.map_map, List.map_map]
      apply List.map_congr_left
      intro c _
      simp only [Function.comp_apply, normBm25_get? hi]
    rw [fuseSemantic, heq]
    apply Dict.entries_collect
    rw [joinSemantic, List.map_map, List.map_map]
    exact hs
  · have heq : (semantic.map fun c => (c.key, c)) =
        (joinSemantic alpha semantic index).map fun j => (j.1, j.2.1) := by
      rw [joinSemantic, List.map_map]
      rfl
    rw [fuseSemantic, ← heq]
    apply Dict.entries_collect
    rw [List.map_map]
    exact hs

theorem Fusing.Holds.keys {s : Fusing} (h : s.Holds js) : s.fused.keys = js.map Prod.fst := by
  rw [Dict.keys, h.1, List.map_map]
  rfl

theorem Fusing.Holds.chunkKeys {s : Fusing} (h : s.Holds js) :
    s.chunkByKey.keys = js.map Prod.fst := by
  rw [Dict.keys, h.2, List.map_map]
  rfl

theorem docIdToKey_injective (h : (index.map IndexedDocument.docId).Nodup) (hx : x ∈ index)
    (hy : y ∈ index) (heq : docIdToKey x.docId = docIdToKey y.docId) : x = y := by
  apply List.inj_on_of_nodup_map h hx hy
  rw [← docIdOf_docIdToKey x, heq, docIdOf_docIdToKey]

theorem keys_joinSemantic (alpha : Rat) (semantic : List RetrievedChunk)
    (index : List IndexedDocument) :
    (joinSemantic alpha semantic index).map Prod.fst = semantic.map RetrievedChunk.key := by
  rw [joinSemantic, List.map_map]
  rfl

theorem mem_keys_joinIndexed
    (h : key ∈ (joinIndexed alpha semantic index xs).map Prod.fst) :
    ∃ x ∈ xs, docIdToKey x.docId = key := by
  rw [joinIndexed, List.map_map] at h
  obtain ⟨x, hx, heq⟩ := List.mem_map.1 h
  exact ⟨x, (List.mem_filter.1 hx).1, heq⟩

theorem joinIndexed_concat_of_mem (h : docIdToKey x.docId ∈ semantic.map RetrievedChunk.key) :
    joinIndexed alpha semantic index (xs ++ [x]) = joinIndexed alpha semantic index xs := by
  rw [joinIndexed, List.filter_append, List.filter_singleton, decide_eq_false (not_not.2 h),
    cond_false, List.append_nil]
  rfl

theorem joinIndexed_concat_of_not_mem (h : docIdToKey x.docId ∉ semantic.map RetrievedChunk.key) :
    joinIndexed alpha semantic index (xs ++ [x]) = joinIndexed alpha semantic index xs ++
      [(docIdToKey x.docId,
        ⟨(docIdToKey x.docId).1, (docIdToKey x.docId).2, normOf index x, x.text⟩,
        (1 - alpha) * normOf index x)] := by
  rw [joinIndexed, List.filter_append, List.filter_singleton, decide_eq_true h, cond_true,
    List.map_append]
  rfl

theorem fuseIndexed_old {s : Fusing} (h : docIdToKey docId ∈ s.fused) :
    fuseIndexed alpha semantic index s (docId, score) = s := if_pos h

theorem Fusing.Holds.fuseIndexed_new {s : Fusing} (h : s.Holds js)
    (hs : (semantic.map RetrievedChunk.key).Nodup) (hi : (index.map IndexedDocument.docId).Nodup)
    (hx : x ∈ index) (hkey : docIdToKey x.docId ∉ semantic.map RetrievedChunk.key)
    (hnew : docIdToKey x.docId ∉ js.map Prod.fst) :
    (fuseIndexed alpha semantic index s (x.docId, normOf index x)).Holds (js ++
      [(docIdToKey x.docId,
        ⟨(docIdToKey x.docId).1, (docIdToKey x.docId).2, normOf index x, x.text⟩,
        (1 - alpha) * normOf index x)]) := by
  have hfused : docIdToKey x.docId ∉ s.fused := by
    rw [Dict.mem_iff_keys, h.keys]
    exact hnew
  have hchunks : docIdToKey x.docId ∉ s.chunkByKey := by
    rw [Dict.mem_iff_keys, h.chunkKeys]
    exact hnew
  have hsem : (semScoresByKey semantic).get? (docIdToKey x.docId) = none := by
    rw [Dict.get?_eq_none, Dict.mem_iff_keys, Dict.keys, semScoresByKey_entries hs, List.map_map]
    exact hkey
  have hstep : fuseIndexed alpha semantic index s (x.docId, normOf index x) =
      { fused := s.fused.set (docIdToKey x.docId) ((1 - alpha) * normOf index x)
        chunkByKey := s.chunkByKey.set (docIdToKey x.docId)
          ⟨(docIdToKey x.docId).1, (docIdToKey x.docId).2, normOf index x, x.text⟩ } := by
    simp only [fuseIndexed, if_neg hfused, if_neg hchunks, hsem, Option.getD_none, mul_zero,
      zero_add, chunkFromDocId, find?_docId hi hx, Option.map_some, Option.getD_some]
  rw [hstep]
  apply And.intro
  · rw [Dict.entries_set_new hfused, h.1, List.map_append, List.map_singleton]
  · rw [Dict.entries_set_new hchunks, h.2, List.map_append, List.map_singleton]

theorem foldl_fuseIndexed (hs : (semantic.map RetrievedChunk.key).Nodup)
    (hi : (index.map IndexedDocument.docId).Nodup) {xs : List IndexedDocument}
    (hxs : xs <+: index) :
    ((xs.map fun x => (x.docId, normOf index x)).foldl (fuseIndexed alpha semantic index)
      (fuseSemantic alpha semantic (normBm25 (bm25Scores index)))).Holds
        (joinSemantic alpha semantic index ++ joinIndexed alpha semantic index xs) := by
  induction xs using List.reverseRecOn with
  | nil =>
    rw [joinIndexed, List.filter_nil, List.map_nil, List.map_nil, List.append_nil]
    exact fuseSemantic_holds hs hi
  | append_singleton xs x ih =>
    have hpre : xs <+: index := (List.prefix_append xs [x]).trans hxs
    have hx : x ∈ index := hxs.subset (List.mem_append_right _ (List.mem_singleton_self x))
    have hold := ih hpre
    rw [List.map_append, List.map_singleton, List.foldl_concat]
    by_cases hkey : docIdToKey x.docId ∈ semantic.map RetrievedChunk.key
    · have hmem : docIdToKey x.docId ∈ ((xs.map fun x => (x.docId, normOf index x)).foldl
          (fuseIndexed alpha semantic index)
          (fuseSemantic alpha semantic (normBm25 (bm25Scores index)))).fused := by
        rw [Dict.mem_iff_keys, hold.keys, List.map_append, keys_joinSemantic]
        exact List.mem_append_left _ hkey
      rw [joinIndexed_concat_of_mem hkey, fuseIndexed_old hmem]
      exact hold
    · have hnew : docIdToKey x.docId ∉ (joinSemantic alpha semantic index ++
          joinIndexed alpha semantic index xs).map Prod.fst := by
        rw [List.map_append, keys_joinSemantic]
        intro hm
        rcases List.mem_append.1 hm with hm | hm
        · exact hkey hm
        · obtain ⟨y, hy, heq⟩ := mem_keys_joinIndexed hm
          have hyx := docIdToKey_injective hi (hpre.subset hy) hx heq
          have hnodup := hi.sublist (hxs.sublist.map IndexedDocument.docId)
          rw [List.map_append] at hnodup
          exact (List.nodup_append.1 hnodup).2.2 y.docId (List.mem_map_of_mem hy) x.docId
            (List.mem_singleton_self _) (congrArg _ hyx)
      rw [joinIndexed_concat_of_not_mem hkey, ← List.append_assoc]
      exact hold.fuseIndexed_new hs hi hx hkey hnew

theorem fuse_holds (hs : (semantic.map RetrievedChunk.key).Nodup)
    (hi : (index.map IndexedDocument.docId).Nodup) :
    (fuse alpha semantic index (normBm25 (bm25Scores index))).Holds
      (joined alpha semantic index) := by
  rw [fuse, normBm25_entries hi]
  exact foldl_fuseIndexed hs hi (List.prefix_refl index)

theorem Fusing.Holds.get? {s : Fusing} (h : s.Holds js) (hj : j ∈ js) :
    s.fused.get? j.1 = some j.2.2 ∧ s.chunk j.1 = some j.chunk := by
  have hfused : s.fused.get? j.1 = some j.2.2 := by
    rw [Dict.get?_eq_some, h.1]
    exact List.mem_map_of_mem (f := fun j => (j.1, j.2.2)) hj
  have hchunk : s.chunkByKey.get? j.1 = some j.2.1 := by
    rw [Dict.get?_eq_some, h.2]
    exact List.mem_map_of_mem (f := fun j => (j.1, j.2.1)) hj
  refine ⟨hfused, ?_⟩
  rw [Fusing.chunk, hchunk, hfused]
  rfl

theorem hybridSearch_eq (hs : (semantic.map RetrievedChunk.key).Nodup)
    (hi : (index.map IndexedDocument.docId).Nodup) (hne : index ≠ []) (k : Nat) :
    hybridSearch alpha semantic index k =
      (sortBy (fun c => -c.relevanceScore) ((joined alpha semantic index).map Joined.chunk)).take
        k := by
  have hholds : (fuse alpha semantic index (normBm25 (bm25Scores index))).Holds
      (joined alpha semantic index) := fuse_holds hs hi
  have hscores : (bm25Scores index).entries ≠ [] := by
    rw [bm25Scores_entries hi]
    exact fun h => hne (List.map_eq_nil_iff.1 h)
  have hkeys : sortBy (fun key => -(((fuse alpha semantic index
        (normBm25 (bm25Scores index))).fused.get? key).getD 0))
        ((joined alpha semantic index).map Prod.fst) =
      (sortBy (fun j => -j.2.2) (joined alpha semantic index)).map Prod.fst := by
    apply sortBy_map
    intro j hj
    rw [(hholds.get? hj).1, Option.getD_some]
  have hchunks : sortBy (fun c => -c.relevanceScore) ((joined alpha semantic index).map Joined.chunk) =
      (sortBy (fun j => -j.2.2) (joined alpha semantic index)).map Joined.chunk :=
    sortBy_map fun j _ => rfl
  simp only [hybridSearch, if_neg hscores, hholds.keys, hkeys, hchunks]
  rw [← List.map_take, ← List.map_take, List.filterMap_map]
  apply List.filterMap_eq_map_iff_forall_eq_some.2
  intro j hj
  exact (hholds.get? ((perm_sortBy _ _).mem_iff.1 (List.mem_of_mem_take hj))).2

end

/-! ### What a search is to return -/

def ownBm25 (index : List IndexedDocument) (key : Key) : Rat :=
  ((index.find? fun x => decide (x.key = key)).map (normOf index)).getD 0

def expected (alpha : Rat) (semantic : List RetrievedChunk) (index : List IndexedDocument) :
    List RetrievedChunk :=
  (semantic.map fun c =>
    { c with relevanceScore := alpha * c.relevanceScore + (1 - alpha) * ownBm25 index c.key }) ++
  (index.filter fun x => decide (x.key ∉ semantic.map RetrievedChunk.key)).map fun x =>
    ⟨x.source, x.chunkId, alpha * 0 + (1 - alpha) * normOf index x, x.text⟩

/-- A list of all that is expected, the highest scores first and cut to `k`. -/
def Ranks (expected : List RetrievedChunk) (k : Nat) (result : List RetrievedChunk) : Prop :=
  ∃ full : List RetrievedChunk, full.Perm expected ∧
    (full.Pairwise fun c d => d.relevanceScore ≤ c.relevanceScore) ∧ result = full.take k

/-- No two documents are confused by their doc ids: a chunk id of the index with a colon belongs to
a hit, as does what it is read back to, and a hit that shares a doc id with another document of the
index gains nothing from it. -/
def Unambiguous (alpha : Rat) (semantic : List RetrievedChunk) (index : List IndexedDocument) :
    Prop :=
  ∀ x ∈ index,
    (':' ∈ x.chunkId.toList → x.key ∈ semantic.map RetrievedChunk.key ∧
      docIdToKey x.docId ∈ semantic.map RetrievedChunk.key) ∧
    ∀ c ∈ semantic, docIdOf c.key = x.docId → c.key = x.key ∨ (1 - alpha) * normOf index x = 0

section
variable {alpha : Rat} {semantic : List RetrievedChunk} {index : List IndexedDocument}

theorem ranks_iff {full expected : List RetrievedChunk}
    (h : full.Pairwise fun c d => d.relevanceScore ≤ c.relevanceScore) :
    (∀ k, Ranks expected k (full.take k)) ↔ full.Perm expected := by
  apply Iff.intro
  · intro hall
    obtain ⟨other, hperm, _, htake⟩ := hall (full.length + expected.length)
    rw [List.take_of_length_le (Nat.le_add_right _ _),
      List.take_of_length_le (hperm.length_eq ▸ Nat.le_add_left _ _)] at htake
    rw [htake]
    exact hperm
  · intro hperm k
    exact ⟨full, hperm, h, rfl⟩

theorem ownBm25_of_mem (hi : (index.map IndexedDocument.docId).Nodup) (hx : x ∈ index) :
    ownBm25 index x.key = normOf index x := by
  have hsome : (index.find? fun y => decide (y.key = x.key)).isSome = true :=
    List.find?_isSome.2 ⟨x, hx, decide_eq_true rfl⟩
  obtain ⟨y, hy⟩ := Option.isSome_iff_exists.1 hsome
  have hkey : y.key = x.key := by
    have hfound := List.find?_some hy
    exact of_decide_eq_true hfound
  have hyx : y = x := List.inj_on_of_nodup_map hi (List.mem_of_find?_eq_some hy) hx
    (congrArg docIdOf hkey)
  rw [ownBm25, hy, hyx]
  rfl

theorem ownBm25_of_not_mem (h : ∀ x ∈ index, x.key ≠ key) : ownBm25 index key = 0 := by
  have hnone : (index.find? fun x => decide (x.key = key)) = none :=
    List.find?_eq_none.2 fun x hx hk => h x hx (of_decide_eq_true hk)
  rw [ownBm25, hnone]
  rfl

theorem bm25Of_of_mem (hi : (index.map IndexedDocument.docId).Nodup) (hx : x ∈ index) :
    bm25Of index x.docId = normOf index x := by
  rw [bm25Of, find?_docId hi hx]
  rfl

theorem bm25Of_of_not_mem (h : ∀ x ∈ index, x.docId ≠ docId) : bm25Of index docId = 0 := by
  have hnone : (index.find? fun x => decide (x.docId = docId)) = none :=
    List.find?_eq_none.2 fun x hx hk => h x hx (of_decide_eq_true hk)
  rw [bm25Of, hnone]
  rfl

theorem Unambiguous.bm25 (h : Unambiguous alpha semantic index)
    (hi : (index.map IndexedDocument.docId).Nodup) (hc : c ∈ semantic) :
    (1 - alpha) * bm25Of index (docIdOf c.key) = (1 - alpha) * ownBm25 index c.key := by
  by_cases hx : ∃ x ∈ index, x.docId = docIdOf c.key
  · obtain ⟨x, hx, hid⟩ := hx
    rcases (h x hx).2 c hc hid.symm with hkey | hzero
    · rw [hkey, ownBm25_of_mem hi hx, ← bm25Of_of_mem hi hx]
      rfl
    · rw [← hid, bm25Of_of_mem hi hx, hzero]
      by_cases hown : ∃ y ∈ index, y.key = c.key
      · obtain ⟨y, hy, hkey⟩ := hown
        have hyx : y = x := by
          apply List.inj_on_of_nodup_map hi hy hx
          rw [hid, IndexedDocument.docId, hkey]
        rw [← hkey, ownBm25_of_mem hi hy, hyx, hzero]
      · rw [ownBm25_of_not_mem fun y hy hkey => hown ⟨y, hy, hkey⟩, mul_zero]
  · rw [bm25Of_of_not_mem fun x hx' hid => hx ⟨x, hx', hid⟩,
      ownBm25_of_not_mem fun y hy hkey => hx ⟨y, hy, congrArg docIdOf hkey⟩]

theorem joined_of_unambiguous (h : Unambiguous alpha semantic index)
    (hi : (index.map IndexedDocument.docId).Nodup) :
    (joined alpha semantic index).map Joined.chunk = expected alpha semantic index := by
  have hfilter : (index.filter fun x =>
        decide (docIdToKey x.docId ∉ semantic.map RetrievedChunk.key)) =
      index.filter fun x => decide (x.key ∉ semantic.map RetrievedChunk.key) := by
    apply List.filter_congr
    intro x hx
    apply decide_eq_decide.2
    by_cases hcolon : ':' ∈ x.chunkId.toList
    · obtain ⟨hkey, hparsed⟩ := (h x hx).1 hcolon
      exact iff_of_false (not_not.2 hparsed) (not_not.2 hkey)
    · rw [(docIdToKey_eq_iff x).2 hcolon]
  rw [joined, List.map_append, joinSemantic, joinIndexed, List.map_map, List.map_map, expected,
    hfilter]
  congr 1
  · apply List.map_congr_left
    intro c hc
    simp only [Function.comp_apply, Joined.chunk, h.bm25 hi hc]
  · apply List.map_congr_left
    intro x hx
    obtain ⟨hx, hnew⟩ := List.mem_filter.1 hx
    have hplain : ':' ∉ x.chunkId.toList := fun hcolon =>
      of_decide_eq_true hnew ((h x hx).1 hcolon).1
    simp only [Function.comp_apply, Joined.chunk, (docIdToKey_eq_iff x).2 hplain,
      IndexedDocument.key, mul_zero, zero_add]

theorem mem_joined_chunks : e ∈ (joined alpha semantic index).map Joined.chunk ↔
    (∃ c ∈ semantic, e = { c with
      relevanceScore := alpha * c.relevanceScore + (1 - alpha) * bm25Of index (docIdOf c.key) }) ∨
    ∃ x ∈ index, docIdToKey x.docId ∉ semantic.map RetrievedChunk.key ∧
      e = ⟨(docIdToKey x.docId).1, (docIdToKey x.docId).2, (1 - alpha) * normOf index x, x.text⟩ := by
  rw [joined, List.map_append, List.mem_append, joinSemantic, joinIndexed, List.map_map,
    List.map_map, List.mem_map, List.mem_map]
  apply or_congr
  · apply exists_congr
    intro c
    exact and_congr_right fun _ => eq_comm
  · apply exists_congr
    intro x
    rw [List.mem_filter, and_assoc, decide_eq_true_iff]
    exact and_congr_right fun _ => and_congr_right fun _ => eq_comm

theorem mem_expected : e ∈ expected alpha semantic index ↔
    (∃ c ∈ semantic, e = { c with
      relevanceScore := alpha * c.relevanceScore + (1 - alpha) * ownBm25 index c.key }) ∨
    ∃ x ∈ index, x.key ∉ semantic.map RetrievedChunk.key ∧
      e = ⟨x.source, x.chunkId, alpha * 0 + (1 - alpha) * normOf index x, x.text⟩ := by
  rw [expected, List.mem_append, List.mem_map, List.mem_map]
  apply or_congr
  · apply exists_congr
    intro c
    exact and_congr_right fun _ => eq_comm
  · apply exists_congr
    intro x
    rw [List.mem_filter, and_assoc, decide_eq_true_iff]
    exact and_congr_right fun _ => and_congr_right fun _ => eq_comm

theorem eq_of_docIdOf (hi : (index.map IndexedDocument.docId).Nodup) (hx : x ∈ index)
    (hy : y ∈ index) (h : docIdOf y.key = x.docId) : y = x := List.inj_on_of_nodup_map hi hy hx h

section
variable (hi : (index.map IndexedDocument.docId).Nodup)
  (hperm : ((joined alpha semantic index).map Joined.chunk).Perm (expected alpha semantic index))
include hi hperm

theorem parsed_mem_of_perm (hx : x ∈ index) (hcolon : ':' ∈ x.chunkId.toList) :
    docIdToKey x.docId ∈ semantic.map RetrievedChunk.key := by
  by_contra hnew
  have hne : docIdToKey x.docId ≠ x.key := fun h => (docIdToKey_eq_iff x).1 h hcolon
  have hentry := hperm.mem_iff.1 (mem_joined_chunks.2 (Or.inr ⟨x, hx, hnew, rfl⟩))
  rcases mem_expected.1 hentry with ⟨c, hc, heq⟩ | ⟨y, hy, _, heq⟩
  · apply hnew
    have hkey : docIdToKey x.docId = c.key := congrArg RetrievedChunk.key heq
    rw [hkey]
    exact List.mem_map_of_mem hc
  · have hkey : docIdToKey x.docId = y.key := congrArg RetrievedChunk.key heq
    have hyx : y = x := by
      apply eq_of_docIdOf hi hx hy
      rw [← hkey, docIdOf_docIdToKey]
    exact hne (hkey.trans (congrArg _ hyx))

theorem key_mem_of_perm (hx : x ∈ index) (hcolon : ':' ∈ x.chunkId.toList) :
    x.key ∈ semantic.map RetrievedChunk.key := by
  by_contra hnew
  have hne : docIdToKey x.docId ≠ x.key := fun h => (docIdToKey_eq_iff x).1 h hcolon
  have hentry := hperm.mem_iff.2 (mem_expected.2 (Or.inr ⟨x, hx, hnew, rfl⟩))
  rcases mem_joined_chunks.1 hentry with ⟨c, hc, heq⟩ | ⟨y, hy, _, heq⟩
  · apply hnew
    have hkey : x.key = c.key := congrArg RetrievedChunk.key heq
    rw [hkey]
    exact List.mem_map_of_mem hc
  · have hkey : x.key = docIdToKey y.docId := congrArg RetrievedChunk.key heq
    have hyx : y = x := by
      apply eq_of_docIdOf hi hx hy
      rw [IndexedDocument.docId, hkey, docIdOf_docIdToKey]
      rfl
    rw [hyx] at hkey
    exact hne hkey.symm

theorem zero_of_perm (hs : (semantic.map RetrievedChunk.key).Nodup) (hx : x ∈ index)
    (hc : c ∈ semantic) (hid : docIdOf c.key = x.docId) (hne : c.key ≠ x.key) :
    (1 - alpha) * normOf index x = 0 := by
  have hentry := hperm.mem_iff.1 (mem_joined_chunks.2 (Or.inl ⟨c, hc, rfl⟩))
  have hown : ownBm25 index c.key = 0 := by
    apply ownBm25_of_not_mem
    intro y hy hkey
    have hyx : y = x := by
      apply eq_of_docIdOf hi hx hy
      rw [hkey, hid]
    exact hne (hyx ▸ hkey).symm
  rcases mem_expected.1 hentry with ⟨d, hd, heq⟩ | ⟨y, hy, hnew, heq⟩
  · have hkey := congrArg RetrievedChunk.key heq
    change c.key = d.key at hkey
    have hcd := List.inj_on_of_nodup_map hs hc hd hkey
    have hscore := congrArg RetrievedChunk.relevanceScore heq
    rw [← hcd] at hscore
    simp only [hown, hid, bm25Of_of_mem hi hx] at hscore
    linarith
  · apply absurd _ hnew
    have hkey : c.key = y.key := congrArg RetrievedChunk.key heq
    rw [← hkey]
    exact List.mem_map_of_mem hc

end

theorem perm_expected_iff (hs : (semantic.map RetrievedChunk.key).Nodup)
    (hi : (index.map IndexedDocument.docId).Nodup) :
    ((joined alpha semantic index).map Joined.chunk).Perm (expected alpha semantic index) ↔
      Unambiguous alpha semantic index := by
  apply Iff.intro
  · intro hperm x hx
    apply And.intro
    · intro hcolon
      exact ⟨key_mem_of_perm hi hperm hx hcolon, parsed_mem_of_perm hi hperm hx hcolon⟩
    · intro c hc hid
      by_cases hkey : c.key = x.key
      · exact Or.inl hkey
      · exact Or.inr (zero_of_perm hi hperm hs hx hc hid hkey)
  · intro h
    rw [joined_of_unambiguous h hi]

end

/-- A search that has scores of the index returns each document once, with its own scores and text,
in order and cut to `k`, exactly when no two documents are confused by their doc ids. -/
theorem hybridSearch_ranks_iff (alpha : Rat) (semantic : List RetrievedChunk)
    (index : List IndexedDocument) (hs : (semantic.map RetrievedChunk.key).Nodup)
    (hi : (index.map IndexedDocument.docId).Nodup) (hne : index ≠ []) :
    (∀ k, Ranks (expected alpha semantic index) k (hybridSearch alpha semantic index k)) ↔
      Unambiguous alpha semantic index := by
  have hsorted : (sortBy (fun c => -c.relevanceScore)
      ((joined alpha semantic index).map Joined.chunk)).Pairwise
        fun c d => d.relevanceScore ≤ c.relevanceScore := by
    apply (pairwise_sortBy _ _).imp
    intro c d h
    exact neg_le_neg_iff.1 h
  have hall : (∀ k, Ranks (expected alpha semantic index) k
        (hybridSearch alpha semantic index k)) ↔
      ∀ k, Ranks (expected alpha semantic index) k ((sortBy (fun c => -c.relevanceScore)
        ((joined alpha semantic index).map Joined.chunk)).take k) := by
    apply forall_congr'
    intro k
    rw [hybridSearch_eq hs hi hne]
  rw [hall, ranks_iff hsorted, ← perm_expected_iff hs hi]
  exact ⟨fun h => (perm_sortBy _ _).symm.trans h, fun h => (perm_sortBy _ _).trans h⟩

def colonHit : List RetrievedChunk := [⟨"a", "b:c", 1, "text"⟩]

def colonIndex : List IndexedDocument := [⟨"a", "b:c", "text", 1⟩]

/-- A chunk id with a colon: the document is a hit and comes back a second time, under another
name. -/
theorem hybridSearch_twice :
    (colonHit.map RetrievedChunk.key).Nodup ∧ (colonIndex.map IndexedDocument.docId).Nodup ∧
      ¬ ∀ k, Ranks (expected (1 / 2) colonHit colonIndex) k
        (hybridSearch (1 / 2) colonHit colonIndex k) := by
  have hs : (colonHit.map RetrievedChunk.key).Nodup := by decide
  have hi : (colonIndex.map IndexedDocument.docId).Nodup := by decide
  refine ⟨hs, hi, fun h => ?_⟩
  obtain ⟨full, hperm, _, hresult⟩ := h 2
  have hone : full.length ≤ 1 := by
    rw [hperm.length_eq]
    decide +kernel
  have htwo : ((joined (1 / 2) colonHit colonIndex).map Joined.chunk).length = 2 := by
    decide +kernel
  have hlen := congrArg List.length hresult
  rw [hybridSearch_eq hs hi (List.cons_ne_nil _ _), List.length_take, List.length_take,
    (perm_sortBy _ _).length_eq, htwo] at hlen
  omega

/-- Two passages of one file, one of them a hit. -/
theorem hybridSearch_ranks_iff_two :
    (∀ k, Ranks (expected (1 / 2) [⟨"a.md", "0", 1, "first"⟩]
        [⟨"a.md", "0", "first", 1⟩, ⟨"a.md", "1", "second", 2⟩]) k
      (hybridSearch (1 / 2) [⟨"a.md", "0", 1, "first"⟩]
        [⟨"a.md", "0", "first", 1⟩, ⟨"a.md", "1", "second", 2⟩] k)) ↔
      Unambiguous (1 / 2) [⟨"a.md", "0", 1, "first"⟩]
        [⟨"a.md", "0", "first", 1⟩, ⟨"a.md", "1", "second", 2⟩] :=
  hybridSearch_ranks_iff _ _ _ (by decide) (by decide) (by decide)

end Prismal.Rag
