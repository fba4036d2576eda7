import Mathlib.Data.List.Sort
import Prismal.Events.Patch

namespace Prismal.Events
open Prismal.Lib
open Py (Same JsonDict isJson_dict eq_dict_iff lookup_mem)
set_option autoImplicit true

/-! The patch between two views, applied to a copy of the old one. -/

def Below (tokens : List String) (ops : List PatchOp) : Prop :=
  ∀ op ∈ ops, ∃ rest, Pointer.parse op.path = some (tokens ++ rest)

theorem Below.append (h : Below tokens xs) (h' : Below tokens ys) : Below tokens (xs ++ ys) := by
  intro op hop
  rcases List.mem_append.1 hop with hop | hop
  · exact h op hop
  · exact h' op hop

theorem Below.of_member (h : Below (tokens ++ [token]) ops) : Below tokens ops := by
  intro op hop
  obtain ⟨rest, hr⟩ := h op hop
  exact ⟨token :: rest, by rw [hr, List.append_assoc, List.singleton_append]⟩

theorem applyPatch_append (depth : Nat) (xs ys : List PatchOp) (doc : Option Py) :
    applyPatch depth (xs ++ ys) doc =
      match applyPatch depth xs doc with
      | none => none
      | some doc' => applyPatch depth ys doc' := by
  induction xs generalizing doc with
  | nil => rfl
  | cons op xs ih =>
    rw [List.cons_append, applyPatch, applyPatch]
    cases op.applyAt depth doc with
    | none => rfl
    | some doc' => exact ih doc'

theorem lookup_filter_ne (es : List (Key × Py)) (k j : Key) :
    Dict.lookup j (es.filter fun e => !decide (e.1 = k)) =
      if j = k then none else Dict.lookup j es := by
  induction es with
  | nil => simp [Dict.lookup]
  | cons e es ih =>
    obtain ⟨i, v⟩ := e
    by_cases h : i = k
    · subst h
      rw [List.filter_cons_of_neg (by simp), ih, Dict.lookup]
      grind
    · rw [List.filter_cons_of_pos (by simp [h]), Dict.lookup, Dict.lookup, ih]
      grind

theorem applyAt_member {op : PatchOp} (hop : Pointer.parse op.path = some (tokens ++ token :: rest))
    (hn : (es.map Prod.fst).Nodup)
    (h : op.applyAt (tokens.length + 1) (Dict.lookup (.str token) es) = some v) :
    ∃ es', op.applyAt tokens.length (some (.dict es)) = some (some (.dict es')) ∧
      (es'.map Prod.fst).Nodup ∧
      ∀ k, Dict.lookup k es' = if k = .str token then v else Dict.lookup k es := by
  have hdrop : (tokens ++ token :: rest).drop (tokens.length + 1) = rest := by
    rw [List.drop_append]
    simp
  rw [PatchOp.applyAt, hop] at h ⊢
  dsimp only at h ⊢
  rw [hdrop] at h
  rw [List.drop_left, alter, h]
  cases v with
  | none => exact ⟨_, rfl, Dict.nodup_filter hn _, fun k => lookup_filter_ne es _ k⟩
  | some w =>
    refine ⟨_, rfl, Dict.nodup_put hn _ _, fun k => ?_⟩
    rw [Dict.lookup_put]
    grind

theorem applyPatch_member (hb : Below (tokens ++ [token]) ops) (hn : (es.map Prod.fst).Nodup)
    (h : applyPatch (tokens.length + 1) ops (Dict.lookup (.str token) es) = some v) :
    ∃ es', applyPatch tokens.length ops (some (.dict es)) = some (some (.dict es')) ∧
      (es'.map Prod.fst).Nodup ∧
      ∀ k, Dict.lookup k es' = if k = .str token then v else Dict.lookup k es := by
  induction ops generalizing es with
  | nil =>
    cases h
    refine ⟨es, rfl, hn, fun k => ?_⟩
    split
    next hk => rw [hk]
    · rfl
  | cons op ops ih =>
    rw [applyPatch] at h ⊢
    obtain ⟨rest, hop⟩ := hb op List.mem_cons_self
    rw [List.append_assoc, List.singleton_append] at hop
    cases hv : op.applyAt (tokens.length + 1) (Dict.lookup (.str token) es) with
    | none =>
      rw [hv] at h
      cases h
    | some v' =>
      rw [hv] at h
      obtain ⟨es₁, h₁, hn₁, hl₁⟩ := applyAt_member hop hn hv
      have hself : Dict.lookup (.str token) es₁ = v' := by rw [hl₁, if_pos rfl]
      obtain ⟨es₂, h₂, hn₂, hl₂⟩ := ih (fun op hop => hb op (List.mem_cons_of_mem _ hop)) hn₁
        (hself ▸ h)
      refine ⟨es₂, by rw [h₁]; exact h₂, hn₂, fun k => ?_⟩
      rw [hl₂, hl₁]
      split <;> rfl

theorem jsonDict_of_lookup (hn : (es.map Prod.fst).Nodup)
    (h : ∀ k v, Dict.lookup k es = some v → (∃ s, k = .str s) ∧ Py.isJson v = true) :
    JsonDict es := by
  refine ⟨hn, fun e he => ?_, fun e he => ?_⟩
  · exact (h e.1 e.2 ((Dict.lookup_eq_some hn).2 he)).1
  · exact (h e.1 e.2 ((Dict.lookup_eq_some hn).2 he)).2

theorem JsonDict.lookup (h : JsonDict es) (hl : Dict.lookup k es = some v) :
    (∃ s, k = .str s) ∧ v.isJson = true :=
  ⟨h.keys _ (lookup_mem hl), h.values _ (lookup_mem hl)⟩

theorem mem_unionKeys (es fs : List (Key × Py)) (k : Key) :
    k ∈ unionKeys es fs ↔ k ∈ es.map Prod.fst ∨ k ∈ fs.map Prod.fst := by
  rw [unionKeys, List.mem_mergeSort, List.mem_append, List.mem_filter]
  by_cases h : k ∈ es.map Prod.fst
  · exact ⟨fun _ => .inl h, fun _ => .inl h⟩
  · simp only [h, false_or, List.contains_eq_mem, decide_false, Bool.not_false, and_true]

theorem nodup_unionKeys (he : (es.map Prod.fst).Nodup) (hf : (fs.map Prod.fst).Nodup) :
    (unionKeys es fs).Nodup := by
  rw [unionKeys, (List.mergeSort_perm _ _).nodup_iff]
  refine List.nodup_append.2 ⟨he, hf.filter _, fun j hj k hk hjk => ?_⟩
  have hnot := (List.mem_filter.1 hk).2
  rw [List.contains_eq_mem, ← hjk, decide_eq_true hj] at hnot
  cases hnot

theorem lookup_differs (es : List (Key × Py)) (k : Key) :
    Dict.lookup k (differs es) = (Dict.lookup k es).map diffShared := by
  induction es with
  | nil => rfl
  | cons e es ih =>
    obtain ⟨j, v⟩ := e
    rw [differs, Dict.lookup, Dict.lookup, ih]
    split <;> rfl

/-- The patch turns a copy of one value into a copy of another. -/
structure Turns (tokens : List String) (ops : List PatchOp) (copy : Option Py)
    (new : Option Py) : Prop where
  below : Below tokens ops
  applies : ∃ copy', applyPatch tokens.length ops copy = some copy' ∧ Same copy' new ∧
    ∀ v, copy' = some v → v.isJson = true

/-- The patch from a value to any other turns every copy of the value into a copy of the other. -/
def Diffs (v : Py) : Prop :=
  ∀ w copy tokens path, v.isJson = true → w.isJson = true → copy.isJson = true →
    copy.eq v = true → Pointer.parse path = some tokens →
    Turns tokens (diffShared v w path) (some copy) (some w)

theorem turns_single {op : PatchOp} (hp : Pointer.parse op.path = some tokens)
    (ha : op.act copy = some new) (hs : Same new w) (hj : ∀ v, new = some v → v.isJson = true) :
    Turns tokens [op] copy w := by
  constructor
  · intro op' hop
    rw [List.mem_singleton.1 hop]
    exact ⟨[], by rw [hp, List.append_nil]⟩
  · refine ⟨new, ?_, hs, hj⟩
    rw [applyPatch, PatchOp.applyAt, hp]
    dsimp only
    rw [List.drop_length, alter, ha]
    rfl

def keyOps (ds : List (Key × (Py → String → List PatchOp))) (fs : List (Key × Py)) (p : String)
    (k : Key) : List PatchOp :=
  match Dict.lookup k ds, Dict.lookup k fs with
  | _, none => [.remove p]
  | none, some w => [.add p w]
  | some d, some w => d w p

theorem diffKeys_cons (ds : List (Key × (Py → String → List PatchOp))) (es fs : List (Key × Py))
    (path : String) (k : Key) (ks : List Key) :
    diffKeys ds es fs path (k :: ks) =
      keyOps ds fs (path ++ "/" ++ pointer k.render) k ++ diffKeys ds es fs path ks := rfl

theorem key_turns (hes : JsonDict es) (hfs : JsonDict fs) (ih : ∀ e ∈ es, Diffs e.2)
    (hp : Pointer.parse path = some tokens)
    (hk : (Key.str token) ∈ es.map Prod.fst ∨ (Key.str token) ∈ fs.map Prod.fst)
    (hrs : JsonDict rs) (hsame : Same (Dict.lookup (.str token) rs) (Dict.lookup (.str token) es)) :
    Turns (tokens ++ [token])
      (keyOps (differs es) fs (path ++ "/" ++ pointer token) (.str token))
      (Dict.lookup (.str token) rs) (Dict.lookup (.str token) fs) := by
  have hpath : Pointer.parse (path ++ "/" ++ pointer token) = some (tokens ++ [token]) :=
    Pointer.parse_append hp token (Pointer.toList_escape token)
  rw [keyOps, lookup_differs]
  cases hf : Dict.lookup (.str token) fs with
  | none =>
    cases he : Dict.lookup (.str token) es with
    | none =>
      rcases hk with hk | hk
      · exact absurd hk (Dict.lookup_eq_none.1 he)
      · exact absurd hk (Dict.lookup_eq_none.1 hf)
    | some v =>
      rw [he] at hsame
      cases hr : Dict.lookup (.str token) rs with
      | none =>
        rw [hr] at hsame
        cases hsame
      | some r => exact turns_single hpath rfl trivial fun v hv => by cases hv
  | some w =>
    have hw := (JsonDict.lookup hfs hf).2
    cases he : Dict.lookup (.str token) es with
    | none =>
      refine turns_single hpath rfl (Py.eq_refl w hw) fun v hv => ?_
      cases hv
      exact hw
    | some v =>
      rw [he] at hsame
      cases hr : Dict.lookup (.str token) rs with
      | none =>
        rw [hr] at hsame
        cases hsame
      | some r =>
        rw [hr] at hsame
        exact ih _ (lookup_mem he) w r _ _ (JsonDict.lookup hes he).2 hw
          (JsonDict.lookup hrs hr).2 hsame hpath

theorem diffKeys_turns (hes : JsonDict es) (hfs : JsonDict fs) (ih : ∀ e ∈ es, Diffs e.2)
    (hp : Pointer.parse path = some tokens) {ks : List Key} (hn : ks.Nodup)
    (hks : ∀ k ∈ ks, k ∈ es.map Prod.fst ∨ k ∈ fs.map Prod.fst) (hrs : JsonDict rs)
    (hsame : ∀ k ∈ ks, Same (Dict.lookup k rs) (Dict.lookup k es)) :
    Below tokens (diffKeys (differs es) es fs path ks) ∧
      ∃ rs', applyPatch tokens.length (diffKeys (differs es) es fs path ks) (some (.dict rs)) =
          some (some (.dict rs')) ∧ JsonDict rs' ∧
        ∀ k, if k ∈ ks then Same (Dict.lookup k rs') (Dict.lookup k fs)
          else Dict.lookup k rs' = Dict.lookup k rs := by
  induction ks generalizing rs with
  | nil =>
    rw [diffKeys]
    refine ⟨fun op hop => ?_, rs, rfl, hrs, fun k => ?_⟩
    · cases hop
    · rw [if_neg List.not_mem_nil]
  | cons k ks ihk =>
    rw [List.nodup_cons] at hn
    have hstr : ∃ token, k = .str token := by
      rcases hks k List.mem_cons_self with hk | hk
      · obtain ⟨e, he, rfl⟩ := List.mem_map.1 hk
        exact hes.keys e he
      · obtain ⟨e, he, rfl⟩ := List.mem_map.1 hk
        exact hfs.keys e he
    obtain ⟨token, rfl⟩ := hstr
    obtain ⟨hbelow, copy', happ, hs', hj'⟩ := key_turns hes hfs ih hp
      (hks _ List.mem_cons_self) hrs (hsame _ List.mem_cons_self)
    rw [List.length_append, List.length_singleton] at happ
    obtain ⟨rs₁, h₁, hn₁, hl₁⟩ := applyPatch_member hbelow hrs.nodup happ
    have hrs₁ : JsonDict rs₁ := by
      apply jsonDict_of_lookup hn₁
      intro j v hv
      rw [hl₁] at hv
      split at hv
      next hj => exact ⟨⟨token, hj⟩, hj' v hv⟩
      · exact JsonDict.lookup hrs hv
    obtain ⟨hb₂, rs₂, h₂, hrs₂, hl₂⟩ := ihk hn.2 (fun j hj => hks j (List.mem_cons_of_mem _ hj))
      hrs₁ (by
        intro j hj
        have hne : j ≠ .str token := fun he => hn.1 (he ▸ hj)
        rw [hl₁, if_neg hne]
        exact hsame j (List.mem_cons_of_mem _ hj))
    rw [diffKeys_cons, Key.render]
    refine ⟨hbelow.of_member.append hb₂, rs₂, ?_, hrs₂, fun j => ?_⟩
    · rw [applyPatch_append, h₁]
      exact h₂
    · have hj := hl₂ j
      by_cases hjk : j = .str token
      · subst hjk
        rw [if_neg hn.1, hl₁, if_pos rfl] at hj
        rw [if_pos List.mem_cons_self, hj]
        exact hs'
      · rw [hl₁, if_neg hjk] at hj
        simp only [List.mem_cons, hjk, false_or]
        exact hj

theorem diffs_dict (hes : JsonDict es) (ih : ∀ e ∈ es, Diffs e.2) (hfs : JsonDict fs)
    (hrs : JsonDict rs) (heq : (Py.dict rs).eq (.dict es) = true)
    (hp : Pointer.parse path = some tokens) :
    Turns tokens (diffShared (.dict es) (.dict fs) path) (some (.dict rs)) (some (.dict fs)) := by
  have hsame := (eq_dict_iff hrs hes).1 heq
  obtain ⟨hb, rs', happ, hrs', hl⟩ := diffKeys_turns hes hfs ih hp
    (nodup_unionKeys hes.nodup hfs.nodup) (fun k hk => (mem_unionKeys es fs k).1 hk) hrs
    (fun k _ => hsame k)
  rw [diffShared]
  refine ⟨hb, some (.dict rs'), happ, (eq_dict_iff hrs' hfs).2 fun k => ?_, fun v hv => ?_⟩
  · have hk := hl k
    split at hk
    · exact hk
    next hnot =>
      -- the key is in neither view
      rw [mem_unionKeys, not_or] at hnot
      rw [hk, Dict.lookup_eq_none.2 hnot.2, ← Dict.lookup_eq_none.2 hnot.1]
      exact hsame k
  · cases hv
    exact isJson_dict.2 hrs'

theorem diffs_leaf {v w : Py} (hd : diffShared v w path =
      if v.eq w && v.typeName == w.typeName then [] else [.replace path w])
    (hw : w.isJson = true) (hc : copy.isJson = true) (heq : copy.eq v = true)
    (hp : Pointer.parse path = some tokens) :
    Turns tokens (diffShared v w path) (some copy) (some w) := by
  rw [hd]
  split
  next h =>
    rw [Bool.and_eq_true] at h
    refine ⟨fun op hop => ?_, some copy, rfl, Py.eq_trans _ _ _ heq h.1, fun u hu => ?_⟩
    · cases hop
    · cases hu
      exact hc
  · refine turns_single hp rfl (Py.eq_refl w hw) fun u hu => ?_
    cases hu
    exact hw

mutual

theorem diffs : ∀ v : Py, Diffs v
  | .dict es => by
    intro w copy tokens path hv hw hc heq hp
    have hes := isJson_dict.1 hv
    cases w with
    | dict fs =>
      cases copy with
      | dict rs =>
        exact diffs_dict hes (diffsEntries es) (isJson_dict.1 hw) (isJson_dict.1 hc) heq hp
      | _ => cases heq
    | _ => exact diffs_leaf (by rw [diffShared]; simp) hw hc heq hp
  | .none => fun w copy tokens path _ hw hc heq hp =>
    diffs_leaf (by rw [diffShared]; simp) hw hc heq hp
  | .bool b => fun w copy tokens path _ hw hc heq hp =>
    diffs_leaf (by rw [diffShared]; simp) hw hc heq hp
  | .int i => fun w copy tokens path _ hw hc heq hp =>
    diffs_leaf (by rw [diffShared]; simp) hw hc heq hp
  | .float q r => fun w copy tokens path _ hw hc heq hp =>
    diffs_leaf (by rw [diffShared]; simp) hw hc heq hp
  | .str s => fun w copy tokens path _ hw hc heq hp =>
    diffs_leaf (by rw [diffShared]; simp) hw hc heq hp
  | .list xs => fun w copy tokens path _ hw hc heq hp =>
    diffs_leaf (by rw [diffShared]; simp) hw hc heq hp
  | .tuple _ => fun _ _ _ _ hv _ _ _ _ => by cases hv
  | .nonfinite _ => fun _ _ _ _ hv _ _ _ _ => by cases hv
  | .interrupt _ _ => fun _ _ _ _ hv _ _ _ _ => by cases hv
  | .model _ _ => fun _ _ _ _ hv _ _ _ _ => by cases hv
  | .object _ => fun _ _ _ _ hv _ _ _ _ => by cases hv
  | .rogue _ => fun _ _ _ _ hv _ _ _ _ => by cases hv

theorem diffsEntries : ∀ es : List (Key × Py), ∀ e ∈ es, Diffs e.2
  | [], e, he => by cases he
  | (k, v) :: es, e, he => by
    rcases List.mem_cons.1 he with rfl | he
    · exact diffs v
    · exact diffsEntries es e he

end

end Prismal.Events
