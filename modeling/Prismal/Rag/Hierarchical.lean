import Prismal.Lib.State
import Prismal.Lib.Windows

namespace Prismal.Rag
open Prismal.Lib
set_option autoImplicit true

/-! Hierarchical indexing: a document is cut into parent blocks, and each of these into the child
chunks that are searched. -/

abbrev Text := List Char

inductive ChunkError where
  | badSize (size : Int)
  | badOverlap (overlap : Int)
  deriving DecidableEq, Repr

def ChunkError.message : ChunkError → String
  | .badSize size => s!"size must be positive; got {size}"
  | .badOverlap overlap => s!"overlap must be in [0, size); got {overlap}"

/-- The loop of `_chunk_text`, entered at `i`. -/
def chunkFrom (text : Text) (size stride : Nat) (hstride : 0 < stride) (i : Nat)
    (chunks : List Text) : List Text :=
  if i < text.length then
    let chunk := (text.drop i).take size
    let chunks := if chunk = [] then chunks else chunks ++ [chunk]
    if text.length ≤ i + size then chunks
    else chunkFrom text size stride hstride (i + stride) chunks
  else chunks
termination_by text.length - i

/-- `_chunk_text` -/
def chunkText (text : Text) (size overlap : Int) : Except ChunkError (List Text) :=
  if hsize : size ≤ 0 then .error (.badSize size)
  else if hoverlap : overlap < 0 ∨ size ≤ overlap then .error (.badOverlap overlap)
  else if text = [] then .ok []
  else .ok (chunkFrom text size.toNat (size - overlap).toNat (by omega) 0 [])

theorem chunkText_isOk : (∃ chunks, chunkText text size overlap = .ok chunks) ↔
    0 < size ∧ 0 ≤ overlap ∧ overlap < size := by
  apply Iff.intro
  · rintro ⟨chunks, h⟩
    by_cases hsize : size ≤ 0
    · rw [chunkText, dif_pos hsize] at h
      cases h
    · by_cases hoverlap : overlap < 0 ∨ size ≤ overlap
      · rw [chunkText, dif_neg hsize, dif_pos hoverlap] at h
        cases h
      · omega
  · intro ⟨hsize, hzero, hlt⟩
    by_cases hnil : text = []
    · exact ⟨[], by rw [chunkText, dif_neg (by omega), dif_neg (by omega), if_pos hnil]⟩
    · exact ⟨_, by rw [chunkText, dif_neg (by omega), dif_neg (by omega), if_neg hnil]⟩

theorem chunkFrom_eq {text : Text} (hsize : 0 < size) (hstride : 0 < stride)
    (hle : stride ≤ size) (hi : i < text.length) (chunks : List Text) :
    ∃ rest, chunkFrom text size stride hstride i chunks = chunks ++ rest ∧
      Windows size stride (text.drop i) rest := by
  induction hn : text.length - i using Nat.strongRecOn generalizing i chunks with
  | ind n ih =>
    have hne : (text.drop i).take size ≠ [] := by
      intro hnil
      have hlen := congrArg List.length hnil
      rw [List.length_take, List.length_drop, List.length_nil] at hlen
      omega
    rw [chunkFrom, if_pos hi]
    simp only [if_neg hne]
    by_cases hlast : text.length ≤ i + size
    · rw [if_pos hlast]
      have hshort : (text.drop i).length ≤ size := by
        rw [List.length_drop]
        omega
      rw [List.take_of_length_le hshort] at hne ⊢
      exact ⟨[text.drop i], rfl, .last hne hshort⟩
    · rw [if_neg hlast]
      have hlong : size < (text.drop i).length := by
        rw [List.length_drop]
        omega
      obtain ⟨rest, hrest, hwindows⟩ :=
        ih (text.length - (i + stride)) (by omega) (by omega)
          (chunks ++ [(text.drop i).take size]) rfl
      rw [← List.drop_drop] at hwindows
      exact ⟨_, by rw [hrest, List.append_assoc, List.singleton_append], .next hlong hwindows⟩

theorem chunkText_windows (h : chunkText text size overlap = .ok chunks) :
    chunks = [] ∧ text = [] ∨
      Windows size.toNat (size - overlap).toNat text chunks := by
  obtain ⟨hsize, hzero, hlt⟩ := chunkText_isOk.1 ⟨chunks, h⟩
  rw [chunkText, dif_neg (by omega), dif_neg (by omega)] at h
  by_cases hnil : text = []
  · rw [if_pos hnil] at h
    cases h
    exact Or.inl ⟨rfl, hnil⟩
  · rw [if_neg hnil] at h
    cases h
    have hsize' : 0 < size.toNat := by omega
    have hstride : 0 < (size - overlap).toNat := by omega
    obtain ⟨rest, hrest, hwindows⟩ :=
      chunkFrom_eq hsize' hstride (by omega) (List.length_pos_iff.2 hnil) []
    rw [hrest]
    exact Or.inr hwindows

/-- The chunks of a text: where they stand, how long they are, what they share, and that nothing
is left out. -/
structure Chunked (text : Text) (size overlap : Nat) (chunks : List Text) : Prop where
  placed : ∀ j chunk, chunks[j]? = some chunk →
    chunk = (text.drop (j * (size - overlap))).take size
  bounded : ∀ chunk ∈ chunks, chunk ≠ [] ∧ chunk.length ≤ size
  overlapping : chunks.IsChain fun c d => c.length = size ∧ overlap < d.length ∧
    c.drop (size - overlap) = d.take overlap
  complete : unlapped overlap chunks = text
  covering : ∀ p < text.length, ∃ j chunk, chunks[j]? = some chunk ∧
    j * (size - overlap) ≤ p ∧ p < j * (size - overlap) + chunk.length

theorem chunkText_chunked (h : chunkText text size overlap = .ok chunks) :
    Chunked text size.toNat overlap.toNat chunks := by
  obtain ⟨hsize, hzero, hlt⟩ := chunkText_isOk.1 ⟨chunks, h⟩
  have hstride : (size - overlap).toNat = size.toNat - overlap.toNat := by omega
  have hle : size.toNat - overlap.toNat ≤ size.toNat := Nat.sub_le _ _
  have hover : size.toNat - (size.toNat - overlap.toNat) = overlap.toNat := by omega
  rcases chunkText_windows h with ⟨rfl, rfl⟩ | hwindows
  · exact {
      placed := fun j chunk hj => by cases hj
      bounded := fun chunk hc => by cases hc
      overlapping := .nil
      complete := rfl
      covering := fun p hp => absurd hp (Nat.not_lt_zero p) }
  · rw [hstride] at hwindows
    have hchain := hwindows.isChain (by omega) hle
    have hall := hwindows.unlapped_eq hle
    rw [hover] at hchain hall
    exact {
      placed := fun j chunk hj => hwindows.getElem?_eq hj
      bounded := fun chunk hc =>
        ⟨hwindows.ne_nil (by omega) chunk hc, hwindows.length_le chunk hc⟩
      overlapping := hchain
      complete := hall
      covering := fun p hp => hwindows.covers hle hp }

structure ChildMetadata where
  source : String
  chunkId : String
  parentId : String
  parentContent : Text
  deriving DecidableEq, Repr

structure ChildDocument where
  pageContent : Text
  metadata : ChildMetadata
  deriving DecidableEq, Repr

/-- `HierarchicalRAGEngine` with the bounds that its constructor checks. -/
structure Engine where
  parentSize : Int
  childSize : Int
  childOverlap : Int
  child_lt_parent : childSize < parentSize
  overlap_lt_child : childOverlap < childSize

/-- What `index_document` holds while it runs; `nextId` counts the ids drawn so far. -/
structure Indexing where
  childDocs : List ChildDocument := []
  totalParents : Nat := 0
  nextId : Nat := 0

inductive StoreCall where
  | deleteBySource (source : String)
  | addDocuments (docs : List ChildDocument)
  deriving DecidableEq, Repr

def StoreCall.added : StoreCall → List ChildDocument
  | .deleteBySource _ => []
  | .addDocuments docs => docs

section
variable (e : Engine) (source : String) (uuid : Nat → String)

def indexChild (parentId : String) (parentText : Text) (s : Indexing) (childText : Text) :
    Indexing :=
  { s with
    childDocs := s.childDocs ++ [⟨childText, source, uuid s.nextId, parentId, parentText⟩]
    nextId := s.nextId + 1 }

def indexParent (s : Indexing) (parentText : Text) : Except ChunkError Indexing := do
  let parentId := uuid s.nextId
  let childTexts ← chunkText parentText e.childSize e.childOverlap
  return childTexts.foldl (indexChild source uuid parentId parentText)
    { s with totalParents := s.totalParents + 1, nextId := s.nextId + 1 }

def indexPage (s : Indexing) (page : Text) : Except ChunkError Indexing := do
  let parentTexts ← chunkText page e.parentSize 0
  parentTexts.foldlM (indexParent e source uuid) s

/-- `index_document` of a loaded document: the calls of the store, and the two counts. -/
def indexDocument (docs : List Text) : List StoreCall × Except ChunkError (Nat × Nat) :=
  match docs.foldlM (indexPage e source uuid) {} with
  | .error err => ([.deleteBySource source], .error err)
  | .ok s =>
    (.deleteBySource source :: (if s.childDocs = [] then [] else [.addDocuments s.childDocs]),
      .ok (s.totalParents, s.childDocs.length))

end

/-- A chunk that stands at `start` holds the character at `p`. -/
def Holds (text chunk : Text) (start p : Nat) : Prop :=
  (text.drop start).take chunk.length = chunk ∧ start ≤ p ∧ p < start + chunk.length

theorem Chunked.holds (h : Chunked text size overlap chunks) (hp : p < text.length) :
    ∃ chunk ∈ chunks, ∃ start, Holds text chunk start p := by
  obtain ⟨j, chunk, hj, hle, hlt⟩ := h.covering p hp
  refine ⟨chunk, List.mem_of_getElem? hj, j * (size - overlap), ?_, hle, hlt⟩
  have hchunk := h.placed j chunk hj
  conv_rhs => rw [hchunk]
  rw [hchunk, List.length_take, ← List.take_take, List.take_length]

def Stored (source : String) (parent : Text) (docs : List ChildDocument) : Prop :=
  ∃ parentId, ∀ q < parent.length, ∃ doc ∈ docs, ∃ start,
    doc.metadata.source = source ∧ doc.metadata.parentId = parentId ∧
      doc.metadata.parentContent = parent ∧ Holds parent doc.pageContent start q

def Indexed (source : String) (docs : List ChildDocument) (page : Text) : Prop :=
  ∀ p < page.length, ∃ parent start, Holds page parent start p ∧ Stored source parent docs

theorem Stored.mono (h : Stored source parent docs) (hsub : docs ⊆ docs') :
    Stored source parent docs' := by
  obtain ⟨parentId, h⟩ := h
  refine ⟨parentId, fun q hq => ?_⟩
  obtain ⟨doc, hdoc, hrest⟩ := h q hq
  exact ⟨doc, hsub hdoc, hrest⟩

theorem Indexed.mono (h : Indexed source docs page) (hsub : docs ⊆ docs') :
    Indexed source docs' page := by
  intro p hp
  obtain ⟨parent, start, hholds, hstored⟩ := h p hp
  exact ⟨parent, start, hholds, hstored.mono hsub⟩

theorem foldl_indexChild (source : String) (uuid : Nat → String) (parentId : String)
    (parentText : Text) (childTexts : List Text) (s : Indexing) :
    s.childDocs ⊆ (childTexts.foldl (indexChild source uuid parentId parentText) s).childDocs ∧
      ∀ child ∈ childTexts,
        ∃ doc ∈ (childTexts.foldl (indexChild source uuid parentId parentText) s).childDocs,
          ∃ id, doc = ⟨child, source, id, parentId, parentText⟩ := by
  induction childTexts generalizing s with
  | nil => exact ⟨fun _ h => h, fun _ h => by cases h⟩
  | cons child rest ih =>
    obtain ⟨hsub, hall⟩ := ih (indexChild source uuid parentId parentText s child)
    apply And.intro
    · exact fun d hd => hsub (List.mem_append_left _ hd)
    · intro c hc
      rcases List.mem_cons.1 hc with rfl | hc
      · exact ⟨_, hsub (List.mem_append_right _ (List.mem_singleton_self _)), _, rfl⟩
      · exact hall c hc

theorem indexParent_stored {e : Engine} (h : indexParent e source uuid s parentText = .ok s') :
    s.childDocs ⊆ s'.childDocs ∧ Stored source parentText s'.childDocs := by
  obtain ⟨childTexts, hchunk, hret⟩ := except_bind_ok h
  cases except_pure_ok hret
  obtain ⟨hsub, hall⟩ := foldl_indexChild source uuid (uuid s.nextId) parentText childTexts
    { s with totalParents := s.totalParents + 1, nextId := s.nextId + 1 }
  refine ⟨hsub, uuid s.nextId, fun q hq => ?_⟩
  obtain ⟨child, hchild, start, hholds⟩ := (chunkText_chunked hchunk).holds hq
  obtain ⟨doc, hdoc, id, rfl⟩ := hall child hchild
  exact ⟨_, hdoc, start, rfl, rfl, rfl, hholds⟩

theorem indexPage_indexed {e : Engine} (h : indexPage e source uuid s page = .ok s') :
    s.childDocs ⊆ s'.childDocs ∧ Indexed source s'.childDocs page := by
  obtain ⟨parentTexts, hchunk, hfold⟩ := except_bind_ok h
  obtain ⟨hsub, hall⟩ := foldlM_each (R := fun s s' => s.childDocs ⊆ s'.childDocs)
    (P := fun parent s => Stored source parent s.childDocs) (fun _ => List.Subset.refl _)
    (fun _ _ _ => List.Subset.trans) (fun _ _ _ hsub hs => hs.mono hsub)
    (fun _ _ _ hstep => indexParent_stored hstep) hfold
  refine ⟨hsub, fun p hp => ?_⟩
  obtain ⟨parent, hparent, start, hholds⟩ := (chunkText_chunked hchunk).holds hp
  exact ⟨parent, start, hholds, hall parent hparent⟩

theorem indexDocument_indexed {e : Engine}
    (h : (indexDocument e source uuid docs).2 = .ok counts) : ∀ page ∈ docs,
      Indexed source ((indexDocument e source uuid docs).1.flatMap StoreCall.added) page := by
  intro page hpage
  cases hfold : docs.foldlM (indexPage e source uuid) {} with
  | error err =>
    rw [indexDocument, hfold] at h
    cases h
  | ok s =>
    obtain ⟨_, hall⟩ := foldlM_each (R := fun s s' => s.childDocs ⊆ s'.childDocs)
      (P := fun page s => Indexed source s.childDocs page) (fun _ => List.Subset.refl _)
      (fun _ _ _ => List.Subset.trans) (fun _ _ _ hsub hs => hs.mono hsub)
      (fun _ _ _ hstep => indexPage_indexed hstep) hfold
    refine (hall page hpage).mono ?_
    simp only [indexDocument, hfold]
    intro doc hdoc
    rw [if_neg (List.ne_nil_of_mem hdoc)]
    exact List.mem_flatMap.2 ⟨.addDocuments s.childDocs, by simp, hdoc⟩

end Prismal.Rag
