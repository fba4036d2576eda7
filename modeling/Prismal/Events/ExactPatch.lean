import Prismal.Events.Diff
import Prismal.Events.View

namespace Prismal.Events
open Prismal.Lib
open Py (JsonDict isJson_dict eqEntries_iff lookup_mem)
set_option autoImplicit true

/-! What the patch makes of the old object, compared with the new one as JSON. -/

namespace Py

def jsonNumber : Py → Option Rat
  | .int i => some i
  | .float q _ => some q
  | _ => Option.none

mutual

/-- Equality of JSON values: numbers by value, objects regardless of order; a boolean is no
number. -/
def jsonEq : Py → Py → Bool
  | .none, .none => true
  | .bool b, .bool c => b == c
  | .int i, w => jsonNumber w == some (i : Rat)
  | .float q _, w => jsonNumber w == some q
  | .str s, .str t => s == t
  | .list xs, .list ys => jsonEqItems xs ys
  | .dict es, .dict fs => es.length == fs.length && jsonEqEntries es fs
  | _, _ => false

def jsonEqItems : List Py → List Py → Bool
  | [], [] => true
  | x :: xs, y :: ys => jsonEq x y && jsonEqItems xs ys
  | _, _ => false

def jsonEqEntries : List (Key × Py) → List (Key × Py) → Bool
  | [], _ => true
  | (k, v) :: es, fs =>
    (match Dict.lookup k fs with
      | some w => jsonEq v w
      | Option.none => false) && jsonEqEntries es fs

end

mutual

/-- Two lists that the objects hold at one place are not `==` without being the same JSON. -/
def discerned : Py → Py → Bool
  | .dict es, .dict fs => discernedEntries es fs
  | .list xs, .list ys => !eqItems xs ys || jsonEqItems xs ys
  | _, _ => true

def discernedEntries : List (Key × Py) → List (Key × Py) → Bool
  | [], _ => true
  | (k, v) :: es, fs =>
    (match Dict.lookup k fs with
      | some w => discerned v w
      | Option.none => true) && discernedEntries es fs

end

theorem jsonEqEntries_iff (es fs : List (Key × Py)) : jsonEqEntries es fs = true ↔
    ∀ e ∈ es, ∃ w, Dict.lookup e.1 fs = some w ∧ e.2.jsonEq w = true := by
  induction es with
  | nil => simp [jsonEqEntries]
  | cons e es ih =>
    obtain ⟨k, v⟩ := e
    rw [jsonEqEntries, Bool.and_eq_true, ih, List.forall_mem_cons]
    cases hl : Dict.lookup k fs with
    | none => simp
    | some w => simp

theorem discernedEntries_iff (es fs : List (Key × Py)) : discernedEntries es fs = true ↔
    ∀ e ∈ es, ∀ w, Dict.lookup e.1 fs = some w → e.2.discerned w = true := by
  induction es with
  | nil => simp [discernedEntries]
  | cons e es ih =>
    obtain ⟨k, v⟩ := e
    rw [discernedEntries, Bool.and_eq_true, ih, List.forall_mem_cons]
    cases hl : Dict.lookup k fs with
    | none => simp
    | some w => simp

def SameJson : Option Py → Option Py → Prop := Option.Rel fun v w => v.jsonEq w = true

theorem jsonEq_dict_iff {es fs : List (Key × Py)} (he : JsonDict es) (hf : JsonDict fs) :
    (Py.dict es).jsonEq (.dict fs) = true ↔
      ∀ k, SameJson (Dict.lookup k es) (Dict.lookup k fs) := by
  rw [jsonEq, Bool.and_eq_true, beq_iff_eq, jsonEqEntries_iff]
  exact Dict.lookup_rel_iff he.nodup hf.nodup (R := fun v w => v.jsonEq w = true)

mutual

theorem jsonEq_refl : ∀ v : Py, v.isJson = true → v.jsonEq v = true
  | .none, _ => rfl
  | .bool b, _ => by rw [jsonEq]; exact beq_self_eq_true _
  | .int i, _ => by rw [jsonEq]; exact beq_self_eq_true _
  | .float q r, _ => by rw [jsonEq]; exact beq_self_eq_true _
  | .str s, _ => by rw [jsonEq]; exact beq_self_eq_true s
  | .list xs, h => by
    rw [isJson] at h
    rw [jsonEq]
    exact jsonEqItems_refl xs h
  | .dict es, h => by
    have hd := isJson_dict.1 h
    rw [jsonEq, Bool.and_eq_true, jsonEqEntries_iff]
    refine ⟨beq_self_eq_true _, fun e he => ⟨e.2, ?_, jsonEqEntries_refl es hd.values e he⟩⟩
    exact (Dict.lookup_eq_some hd.nodup).2 he
  | .tuple _, h => by cases h
  | .nonfinite _, h => by cases h
  | .interrupt _ _, h => by cases h
  | .model _ _, h => by cases h
  | .object _, h => by cases h
  | .rogue _, h => by cases h

theorem jsonEqItems_refl : ∀ xs : List Py, isJsonItems xs = true → jsonEqItems xs xs = true
  | [], _ => rfl
  | x :: xs, h => by
    rw [isJsonItems, Bool.and_eq_true] at h
    rw [jsonEqItems, Bool.and_eq_true]
    exact ⟨jsonEq_refl x h.1, jsonEqItems_refl xs h.2⟩

theorem jsonEqEntries_refl : ∀ es : List (Key × Py), (∀ e ∈ es, e.2.isJson = true) →
    ∀ e ∈ es, e.2.jsonEq e.2 = true
  | [], _, e, he => by cases he
  | (k, v) :: es, h, e, he => by
    rcases List.mem_cons.1 he with rfl | he
    · exact jsonEq_refl v (h (k, v) List.mem_cons_self)
    · exact jsonEqEntries_refl es (fun e he => h e (List.mem_cons_of_mem _ he)) e he

end

end Py

open Py (SameJson jsonEq_refl jsonEq_dict_iff)

/-- The patch turns the old value into one that is the new one exactly under a condition. -/
structure Makes (tokens : List String) (ops : List PatchOp) (old new : Option Py) (p : Prop) :
    Prop where
  below : Below tokens ops
  applies : ∃ made, applyPatch tokens.length ops old = some made ∧
    made.isSome = new.isSome ∧ (∀ v, made = some v → v.isJson = true) ∧ (SameJson made new ↔ p)

def Exact (v : Py) : Prop :=
  ∀ w tokens path, v.isJson = true → w.isJson = true → Pointer.parse path = some tokens →
    Makes tokens (diffShared v w path) (some v) (some w) (v.discerned w = true)

theorem sameJson_some (v w : Py) : SameJson (some v) (some w) ↔ v.jsonEq w = true := by
  apply Iff.intro
  · intro h
    cases h with
    | some h => exact h
  · intro h
    exact Option.Rel.some h

theorem makes_single {op : PatchOp} (hp : Pointer.parse op.path = some tokens)
    (ha : op.act old = some new) (hs : SameJson new new) (hj : ∀ v, new = some v → v.isJson = true)
    (h : p) : Makes tokens [op] old new p := by
  apply Makes.mk
  · intro op' hop
    rw [List.mem_singleton.1 hop]
    exact ⟨[], by rw [hp, List.append_nil]⟩
  · refine ⟨new, ?_, rfl, hj, iff_of_true hs h⟩
    rw [applyPatch, PatchOp.applyAt, hp]
    dsimp only
    rw [List.drop_length, alter, ha]
    rfl

theorem exact_leaf {v w : Py} (hd : diffShared v w path =
      if v.eq w && v.typeName == w.typeName then [] else [.replace path w])
    (hstay : (v.eq w && v.typeName == w.typeName) = true →
      (v.jsonEq w = true ↔ v.discerned w = true))
    (hreplace : (v.eq w && v.typeName == w.typeName) = false → v.discerned w = true)
    (hv : v.isJson = true) (hw : w.isJson = true) (hp : Pointer.parse path = some tokens) :
    Makes tokens (diffShared v w path) (some v) (some w) (v.discerned w = true) := by
  rw [hd]
  cases heq : v.eq w && v.typeName == w.typeName with
  | true =>
    refine ⟨fun op hop => ?_, some v, rfl, rfl, fun u hu => ?_, ?_⟩
    · cases hop
    · cases hu
      exact hv
    · rw [sameJson_some]
      exact hstay heq
  | false =>
    have hsame := (sameJson_some w w).2 (jsonEq_refl w hw)
    refine makes_single hp rfl hsame (fun u hu => ?_) (hreplace heq)
    cases hu
    exact hw

def DiscernedAt (es fs : List (Key × Py)) (k : Key) : Prop :=
  ∀ v w, Dict.lookup k es = some v → Dict.lookup k fs = some w → v.discerned w = true

theorem key_makes (hes : JsonDict es) (hfs : JsonDict fs) (ih : ∀ e ∈ es, Exact e.2)
    (hp : Pointer.parse path = some tokens)
    (hk : (Key.str token) ∈ es.map Prod.fst ∨ (Key.str token) ∈ fs.map Prod.fst) :
    Makes (tokens ++ [token])
      (keyOps (differs es) fs (path ++ "/" ++ pointer token) (.str token))
      (Dict.lookup (.str token) es) (Dict.lookup (.str token) fs)
      (DiscernedAt es fs (.str token)) := by
  have hpath : Pointer.parse (path ++ "/" ++ pointer token) = some (tokens ++ [token]) :=
    Pointer.parse_append hp token (Pointer.toList_escape token)
  rw [keyOps, lookup_differs]
  cases hf : Dict.lookup (.str token) fs with
  | none =>
    have hfree : DiscernedAt es fs (.str token) := by
      intro v w _ hw
      rw [hf] at hw
      cases hw
    cases he : Dict.lookup (.str token) es with
    | none =>
      cases hk with
      | inl hk => exact absurd hk (Dict.lookup_eq_none.1 he)
      | inr hk => exact absurd hk (Dict.lookup_eq_none.1 hf)
    | some v => exact makes_single hpath rfl Option.Rel.none (fun v hv => by cases hv) hfree
  | some w =>
    have hw := (JsonDict.lookup hfs hf).2
    cases he : Dict.lookup (.str token) es with
    | none =>
      have hfree : DiscernedAt es fs (.str token) := by
        intro v w hv
        rw [he] at hv
        cases hv
      have hsame := (sameJson_some w w).2 (jsonEq_refl w hw)
      refine makes_single hpath rfl hsame (fun v hv => ?_) hfree
      cases hv
      exact hw
    | some v =>
      have hat : DiscernedAt es fs (.str token) ↔ v.discerned w = true := by
        apply Iff.intro
        · intro h
          exact h v w he hf
        · intro h v' w' hv' hw'
          cases he.symm.trans hv'
          cases hf.symm.trans hw'
          exact h
      rw [hat]
      exact ih _ (lookup_mem he) w _ _ (JsonDict.lookup hes he).2 hw hpath

theorem diffKeys_makes (hes : JsonDict es) (hfs : JsonDict fs) (ih : ∀ e ∈ es, Exact e.2)
    (hp : Pointer.parse path = some tokens) {ks : List Key} (hn : ks.Nodup)
    (hks : ∀ k ∈ ks, k ∈ es.map Prod.fst ∨ k ∈ fs.map Prod.fst) (hrs : JsonDict rs)
    (hsame : ∀ k ∈ ks, Dict.lookup k rs = Dict.lookup k es) :
    Below tokens (diffKeys (differs es) es fs path ks) ∧
      ∃ rs', applyPatch tokens.length (diffKeys (differs es) es fs path ks) (some (.dict rs)) =
          some (some (.dict rs')) ∧ JsonDict rs' ∧
        ∀ k, if k ∈ ks then SameJson (Dict.lookup k rs') (Dict.lookup k fs) ↔ DiscernedAt es fs k
          else Dict.lookup k rs' = Dict.lookup k rs := by
  induction ks generalizing rs with
  | nil =>
    rw [diffKeys]
    refine ⟨fun op hop => ?_, rs, rfl, hrs, fun k => ?_⟩
    · cases hop
    · rw [if_neg List.not_mem_nil]
  | cons k ks ihk =>
    rw [List.nodup_cons] at hn
    have hstr : ∃ token, k = .str token := by
      cases hks k List.mem_cons_self with
      | inl hk =>
        obtain ⟨e, he, rfl⟩ := List.mem_map.1 hk
        exact hes.keys e he
      | inr hk =>
        obtain ⟨e, he, rfl⟩ := List.mem_map.1 hk
        exact hfs.keys e he
    obtain ⟨token, rfl⟩ := hstr
    obtain ⟨hbelow, made, happ, -, hmade, hexact⟩ := key_makes hes hfs ih hp
      (hks _ List.mem_cons_self)
    rw [List.length_append, List.length_singleton, ← hsame _ List.mem_cons_self] at happ
    obtain ⟨rs₁, h₁, hn₁, hl₁⟩ := applyPatch_member hbelow hrs.nodup happ
    have hrs₁ : JsonDict rs₁ := by
      apply jsonDict_of_lookup hn₁
      intro j v hv
      rw [hl₁] at hv
      split at hv
      next hj => exact ⟨⟨token, hj⟩, hmade v hv⟩
      · exact JsonDict.lookup hrs hv
    obtain ⟨hb₂, rs₂, h₂, hrs₂, hl₂⟩ := ihk hn.2 (fun j hj => hks j (List.mem_cons_of_mem _ hj))
      hrs₁ (by
        intro j hj
        have hne : j ≠ .str token := fun he => hn.1 (he ▸ hj)
        rw [hl₁, if_neg hne]
        exact hsame j (List.mem_cons_of_mem _ hj))
    rw [diffKeys_cons, Key.render]
    refine ⟨hbelow.of_member.append hb₂, rs₂, ?_, hrs₂, fun j => ?_⟩
    · rw [applyPatch_append, h₁]
      exact h₂
    · have hj := hl₂ j
      by_cases hjk : j = .str token
      · subst hjk
        rw [if_neg hn.1, hl₁, if_pos rfl] at hj
        rw [if_pos List.mem_cons_self, hj]
        exact hexact
      · rw [hl₁, if_neg hjk] at hj
        simp only [List.mem_cons, hjk, false_or]
        exact hj

theorem exact_dict (hes : JsonDict es) (ih : ∀ e ∈ es, Exact e.2) (hfs : JsonDict fs)
    (hp : Pointer.parse path = some tokens) :
    Makes tokens (diffShared (.dict es) (.dict fs) path) (some (.dict es)) (some (.dict fs))
      ((Py.dict es).discerned (.dict fs) = true) := by
  obtain ⟨hb, rs, happ, hrs, hl⟩ := diffKeys_makes hes hfs ih hp
    (nodup_unionKeys hes.nodup hfs.nodup) (fun k hk => (mem_unionKeys es fs k).1 hk) hes
    (fun k _ => rfl)
  rw [diffShared]
  refine ⟨hb, some (.dict rs), happ, rfl, fun v hv => ?_, ?_⟩
  · cases hv
    exact isJson_dict.2 hrs
  · have hall : (Py.dict es).discerned (.dict fs) = true ↔ ∀ k, DiscernedAt es fs k := by
      rw [Py.discerned, Py.discernedEntries_iff]
      apply Iff.intro
      · intro h k v w hv hw
        exact h (k, v) (lookup_mem hv) w hw
      · intro h e he w hw
        exact h e.1 e.2 w ((Dict.lookup_eq_some hes.nodup).2 he) hw
    rw [sameJson_some, jsonEq_dict_iff hrs hfs, hall]
    apply forall_congr'
    intro k
    have hk := hl k
    split at hk
    · exact hk
    next hnot =>
      -- the key is in neither object
      rw [mem_unionKeys, not_or] at hnot
      rw [hk, Dict.lookup_eq_none.2 hnot.1, Dict.lookup_eq_none.2 hnot.2]
      refine iff_of_true Option.Rel.none fun v w hv => ?_
      rw [Dict.lookup_eq_none.2 hnot.1] at hv
      cases hv

theorem exact_scalar {v : Py}
    (hd : ∀ w path, diffShared v w path =
      if v.eq w && v.typeName == w.typeName then [] else [.replace path w])
    (heq : ∀ w : Py, (v.eq w && v.typeName == w.typeName) = true → v.jsonEq w = true)
    (hfree : ∀ w, v.discerned w = true) : Exact v := by
  intro w tokens path hv hw hp
  refine exact_leaf (hd w path) (fun h => ?_) (fun _ => hfree w) hv hw hp
  exact iff_of_true (heq w h) (hfree w)

theorem jsonEq_bool (b : Bool) (w : Py)
    (h : ((Py.bool b).eq w && (Py.bool b).typeName == w.typeName) = true) :
    (Py.bool b).jsonEq w = true := by
  cases w with
  | bool c => cases b <;> cases c <;> first | rfl | cases h
  | _ => simp [Py.typeName, Py.eq, Py.numberEq, Py.number] at h

theorem jsonEq_int (i : Int) (w : Py)
    (h : ((Py.int i).eq w && (Py.int i).typeName == w.typeName) = true) :
    (Py.int i).jsonEq w = true := by
  cases w with
  | int j =>
    rw [Bool.and_eq_true, Py.eq, Py.numberEq] at h
    rw [Py.jsonEq, Py.jsonNumber, beq_iff_eq, eq_of_beq h.1]
  | _ => simp [Py.typeName, Py.eq, Py.numberEq, Py.number] at h

theorem jsonEq_float (q : Rat) (r : String) (w : Py)
    (h : ((Py.float q r).eq w && (Py.float q r).typeName == w.typeName) = true) :
    (Py.float q r).jsonEq w = true := by
  cases w with
  | float p r' =>
    rw [Bool.and_eq_true, Py.eq, Py.numberEq] at h
    rw [Py.jsonEq, Py.jsonNumber, beq_iff_eq, eq_of_beq h.1]
  | _ => simp [Py.typeName, Py.eq, Py.numberEq, Py.number] at h

theorem jsonEq_none (w : Py) (h : (Py.none.eq w && Py.none.typeName == w.typeName) = true) :
    Py.none.jsonEq w = true := by
  cases w with
  | none => rfl
  | _ => cases h

theorem jsonEq_str (s : String) (w : Py)
    (h : ((Py.str s).eq w && (Py.str s).typeName == w.typeName) = true) :
    (Py.str s).jsonEq w = true := by
  cases w with
  | str t =>
    rw [Bool.and_eq_true] at h
    exact h.1
  | _ => cases h

mutual

theorem exact : ∀ v : Py, Exact v
  | .dict es => by
    intro w tokens path hv hw hp
    have hes := isJson_dict.1 hv
    cases w with
    | dict fs => exact exact_dict hes (exactEntries es) (isJson_dict.1 hw) hp
    | _ => exact exact_leaf (by rw [diffShared]; simp) (fun h => by cases h) (fun _ => rfl) hv hw hp
  | .list xs => by
    intro w tokens path hv hw hp
    cases w with
    | list ys =>
      refine exact_leaf (by rw [diffShared]; simp) (fun h => ?_) (fun h => ?_) hv hw hp
      · rw [Bool.and_eq_true, Py.eq] at h
        rw [Py.jsonEq, Py.discerned, h.1]
        rfl
      · rw [Py.eq, Py.typeName, Py.typeName, beq_self_eq_true, Bool.and_true] at h
        rw [Py.discerned, h]
        rfl
    | _ => exact exact_leaf (by rw [diffShared]; simp) (fun h => by cases h) (fun _ => rfl) hv hw hp
  | .none => exact_scalar (fun w path => by rw [diffShared]; simp) jsonEq_none
    fun w => by cases w <;> rfl
  | .bool b => exact_scalar (fun w path => by rw [diffShared]; simp) (jsonEq_bool b)
    fun w => by cases w <;> rfl
  | .int i => exact_scalar (fun w path => by rw [diffShared]; simp) (jsonEq_int i)
    fun w => by cases w <;> rfl
  | .float q r => exact_scalar (fun w path => by rw [diffShared]; simp) (jsonEq_float q r)
    fun w => by cases w <;> rfl
  | .str s => exact_scalar (fun w path => by rw [diffShared]; simp) (jsonEq_str s)
    fun w => by cases w <;> rfl
  | .tuple _ => fun _ _ _ hv _ _ => by cases hv
  | .nonfinite _ => fun _ _ _ hv _ _ => by cases hv
  | .interrupt _ _ => fun _ _ _ hv _ _ => by cases hv
  | .model _ _ => fun _ _ _ hv _ _ => by cases hv
  | .object _ => fun _ _ _ hv _ _ => by cases hv
  | .rogue _ => fun _ _ _ hv _ _ => by cases hv

theorem exactEntries : ∀ es : List (Key × Py), ∀ e ∈ es, Exact e.2
  | [], e, he => by cases he
  | (k, v) :: es, e, he => by
    rcases List.mem_cons.1 he with rfl | he
    · exact exact v
    · exact exactEntries es e he

end

/-- A JSON object: distinct names over JSON values. -/
structure JsonObject where
  members : Dict String Py
  json : ∀ name v, members.get? name = some v → v.isJson = true

namespace JsonObject

def asPy (o : JsonObject) : Py := Prismal.Events.asPy o.members

theorem isJson_asPy (o : JsonObject) : o.asPy.isJson = true :=
  isJson_dict.2 (jsonDict_asPy o.json)

theorem patch_makes (old new : JsonObject) :
    ∃ doc, applyPatch 0 (jsonPatchDiff old.members new.members) (some old.asPy) = some (some doc) ∧
      (doc.jsonEq new.asPy = true ↔ old.asPy.discerned new.asPy = true) := by
  obtain ⟨-, made, happ, hsome, -, hexact⟩ :=
    exact old.asPy new.asPy [] "" old.isJson_asPy new.isJson_asPy Pointer.parse_empty
  obtain ⟨doc, rfl⟩ := Option.isSome_iff_exists.1 hsome
  rw [sameJson_some] at hexact
  exact ⟨doc, happ, hexact⟩

/-- The patch leads to the new object as JSON if and only if no list that both objects hold at one
place equals the new one for `==` alone. -/
theorem jsonPatchDiff_exact_iff (old new : JsonObject) :
    (∃ doc, applyPatch 0 (jsonPatchDiff old.members new.members) (some old.asPy) =
        some (some doc) ∧ doc.jsonEq new.asPy = true) ↔
      old.asPy.discerned new.asPy = true := by
  obtain ⟨doc, happ, hexact⟩ := patch_makes old new
  rw [← hexact]
  apply Iff.intro
  · intro ⟨doc', happ', heq⟩
    cases happ.symm.trans happ'
    exact heq
  · intro heq
    exact ⟨doc, happ, heq⟩

def single (name : String) (v : Py) (h : v.isJson = true) : JsonObject where
  members := Dict.collect [(name, v)]
  json := by
    intro name' v' hget
    cases List.mem_singleton.1 (Dict.mem_of_get?_collect hget)
    exact h

/-- `[1]` is `[True]` for `==`, so no operation is emitted. -/
theorem booleans_in_lists_lost :
    ¬∃ doc, applyPatch 0 (jsonPatchDiff (single "a" (.list [.int 1]) rfl).members
        (single "a" (.list [.bool true]) rfl).members)
          (some (single "a" (.list [.int 1]) rfl).asPy) = some (some doc) ∧
      doc.jsonEq (single "a" (.list [.bool true]) rfl).asPy = true := by
  rintro ⟨doc, happ, heq⟩
  obtain ⟨doc', happ', hexact⟩ :=
    patch_makes (single "a" (.list [.int 1]) rfl) (single "a" (.list [.bool true]) rfl)
  cases happ.symm.trans happ'
  cases hexact.1 heq

end JsonObject

end Prismal.Events
