import Prismal.Lib.State
import Prismal.Events.Patch
import Prismal.Events.Translator

namespace Prismal.Events
open Prismal.Lib
open Py (JsonDict isJson_dict lookup_mem)
set_option autoImplicit true

/-! What the client sees of a state: JSON values under allow-listed keys. -/

namespace Py

mutual

def distinct : Py → Bool
  | .list xs | .tuple xs => distinctItems xs
  | .dict es => decide (es.map Prod.fst).Nodup && distinctEntries es
  | _ => true

def distinctItems : List Py → Bool
  | [] => true
  | x :: xs => distinct x && distinctItems xs

def distinctEntries : List (Key × Py) → Bool
  | [] => true
  | (_, v) :: es => distinct v && distinctEntries es

end

theorem distinctEntries_iff (es : List (Key × Py)) :
    distinctEntries es = true ↔ ∀ e ∈ es, e.2.distinct = true := by
  induction es with
  | nil => simp [distinctEntries]
  | cons e es ih =>
    obtain ⟨k, v⟩ := e
    rw [distinctEntries, Bool.and_eq_true, ih, List.forall_mem_cons]

theorem distinct_dict : (Py.dict es).distinct = true ↔
    (es.map Prod.fst).Nodup ∧ ∀ e ∈ es, e.2.distinct = true := by
  rw [distinct, Bool.and_eq_true, decide_eq_true_eq, distinctEntries_iff]

end Py

theorem jsonEntries_cons {es : List (Key × Py)} (h : jsonEntries ((.str k, v) :: es) = .ok fs) :
    ∃ head rest, jsonValue v = .ok head ∧ jsonEntries es = .ok rest ∧
      fs = (head.toList.map fun w => (Key.str k, w)) ++ rest := by
  rw [jsonEntries] at h
  obtain ⟨head, h₁, h₂⟩ := except_bind_ok h
  obtain ⟨rest, h₃, h₄⟩ := except_bind_ok h₂
  exact ⟨head, rest, h₁, h₃, except_pure_ok h₄⟩

theorem jsonEntries_sublist {es fs : List (Key × Py)} (h : jsonEntries es = .ok fs) :
    (fs.map Prod.fst).Sublist (es.map Prod.fst) := by
  induction es generalizing fs with
  | nil =>
    cases h
    exact List.Sublist.refl _
  | cons e es ih =>
    obtain ⟨k, v⟩ := e
    cases k with
    | str s =>
      obtain ⟨head, rest, -, hr, rfl⟩ := jsonEntries_cons h
      cases head with
      | none => exact (ih hr).cons _
      | some w => exact (ih hr).cons_cons _
    | other r => exact (ih h).cons _

mutual

theorem isJson_jsonValue : ∀ v w : Py, v.distinct = true → jsonValue v = .ok (some w) →
    w.isJson = true
  | .none, w, _, h => by cases h; rfl
  | .bool b, w, _, h => by cases h; rfl
  | .int i, w, _, h => by cases h; rfl
  | .str s, w, _, h => by cases h; rfl
  | .float q r, w, _, h => by cases h; rfl
  | .dict es, w, hd, h => by
    obtain ⟨hn, hv⟩ := Py.distinct_dict.1 hd
    rw [jsonValue] at h
    obtain ⟨fs, h₁, h₂⟩ := except_bind_ok h
    cases except_pure_ok h₂
    rw [Py.isJson, Bool.and_eq_true, decide_eq_true_eq]
    exact ⟨hn.sublist (jsonEntries_sublist h₁), isJson_jsonEntries es fs hv h₁⟩
  | .list xs, w, hd, h => by
    rw [Py.distinct] at hd
    rw [jsonValue] at h
    obtain ⟨ys, h₁, h₂⟩ := except_bind_ok h
    cases except_pure_ok h₂
    exact isJson_jsonItems xs ys hd h₁
  | .tuple xs, w, hd, h => by
    rw [Py.distinct] at hd
    rw [jsonValue] at h
    obtain ⟨ys, h₁, h₂⟩ := except_bind_ok h
    cases except_pure_ok h₂
    exact isJson_jsonItems xs ys hd h₁
  | .rogue _, _, _, h => by cases h
  | .nonfinite _, _, _, h => by cases h
  | .interrupt _ _, _, _, h => by cases h
  | .model _ _, _, _, h => by cases h
  | .object _, _, _, h => by cases h

theorem isJson_jsonItems : ∀ xs ys : List Py, Py.distinctItems xs = true → jsonItems xs = .ok ys →
    Py.isJsonItems ys = true
  | [], ys, _, h => by cases h; rfl
  | x :: xs, ys, hd, h => by
    rw [Py.distinctItems, Bool.and_eq_true] at hd
    rw [jsonItems] at h
    obtain ⟨head, h₁, h₂⟩ := except_bind_ok h
    obtain ⟨rest, h₃, h₄⟩ := except_bind_ok h₂
    cases except_pure_ok h₄
    have hrest := isJson_jsonItems xs rest hd.2 h₃
    cases head with
    | none => exact hrest
    | some w =>
      change Py.isJsonItems (w :: rest) = true
      rw [Py.isJsonItems, Bool.and_eq_true]
      exact ⟨isJson_jsonValue x w hd.1 h₁, hrest⟩

theorem isJson_jsonEntries : ∀ es fs : List (Key × Py), (∀ e ∈ es, e.2.distinct = true) →
    jsonEntries es = .ok fs → Py.isJsonEntries fs = true
  | [], fs, _, h => by cases h; rfl
  | (.str k, v) :: es, fs, hd, h => by
    obtain ⟨head, rest, h₁, h₂, rfl⟩ := jsonEntries_cons h
    have hrest := isJson_jsonEntries es rest (fun e he => hd e (List.mem_cons_of_mem _ he)) h₂
    cases head with
    | none => exact hrest
    | some w =>
      change Py.isJsonEntries ((.str k, w) :: rest) = true
      rw [Py.isJsonEntries, Bool.and_eq_true]
      exact ⟨isJson_jsonValue v w (hd (.str k, v) List.mem_cons_self) h₁, hrest⟩
  | (.other _, _) :: es, fs, hd, h => by
    rw [jsonEntries] at h
    exact isJson_jsonEntries es fs (fun e he => hd e (List.mem_cons_of_mem _ he)) h

end

theorem isJson_scalar (h : scalar v = some w) : w.isJson = true := by
  cases v with
  | none | bool b | int i | str s | float q r =>
    cases h
    rfl
  | _ => cases h

theorem project_json (h : project value subs = .ok es) :
    (es.map Prod.fst).Sublist (subs.map Key.str) ∧ ∀ e ∈ es, e.2.isJson = true := by
  induction subs generalizing es with
  | nil =>
    cases h
    exact ⟨List.Sublist.refl _, fun e he => by cases he⟩
  | cons sub subs ih =>
    rw [project] at h
    obtain ⟨leaf, h₁, h₂⟩ := except_bind_ok h
    obtain ⟨rest, h₃, h₄⟩ := except_bind_ok h₂
    cases except_pure_ok h₄
    obtain ⟨hsub, hjson⟩ := ih h₃
    cases hl : leaf.bind scalar with
    | none => exact ⟨hsub.cons _, hjson⟩
    | some w =>
      refine ⟨hsub.cons_cons _, fun e he => ?_⟩
      rcases List.mem_cons.1 he with rfl | he
      · obtain ⟨v, -, hv⟩ := Option.bind_eq_some_iff.1 hl
        exact isJson_scalar hv
      · exact hjson e he

theorem jsonDict_of_sublist {es : List (Key × Py)} {names : List String} (hn : names.Nodup)
    (hs : (es.map Prod.fst).Sublist (names.map Key.str)) (hv : ∀ e ∈ es, e.2.isJson = true) :
    JsonDict es := by
  refine ⟨(hn.map fun a b h => Key.str.inj h).sublist hs, fun e he => ?_, hv⟩
  obtain ⟨s, -, hs'⟩ := List.mem_map.1 (hs.subset (List.mem_map_of_mem he))
  exact ⟨s, hs'.symm⟩

theorem sanitizeKey_json (hn : ∀ names, subs = some names → names.Nodup)
    (h : sanitizeKey value subs = .ok (some w)) : w.isJson = true := by
  cases subs with
  | none => exact isJson_scalar (Except.ok.inj h)
  | some names =>
    rw [sanitizeKey] at h
    split at h
    · obtain ⟨es, h₁, h₂⟩ := except_bind_ok h
      have h₃ := except_pure_ok h₂
      split at h₃
      · cases h₃
      · cases h₃
        obtain ⟨hsub, hjson⟩ := project_json h₁
        exact isJson_dict.2 (jsonDict_of_sublist (hn names rfl) hsub hjson)
    · cases h

theorem sanitizeEntries_json {table : List (String × Option (List String))}
    (ht : ∀ e ∈ table, ∀ names, e.2 = some names → names.Nodup)
    (h : sanitizeEntries md table = .ok es) :
    (es.map Prod.fst).Sublist ((table.map Prod.fst).map Key.str) ∧
      ∀ e ∈ es, e.2.isJson = true := by
  induction table generalizing es with
  | nil =>
    cases h
    exact ⟨List.Sublist.refl _, fun e he => by cases he⟩
  | cons entry table ih =>
    obtain ⟨key, subs⟩ := entry
    rw [sanitizeEntries] at h
    obtain ⟨out, h₁, h₂⟩ := except_bind_ok h
    obtain ⟨more, h₃, h₄⟩ := except_bind_ok h₂
    cases except_pure_ok h₄
    obtain ⟨hsub, hjson⟩ := ih (fun e he => ht e (List.mem_cons_of_mem _ he)) h₃
    cases out with
    | none => exact ⟨hsub.cons _, hjson⟩
    | some w =>
      refine ⟨hsub.cons_cons _, fun e he => ?_⟩
      rcases List.mem_cons.1 he with rfl | he
      · obtain ⟨value, h₅, h₆⟩ := except_bind_ok h₁
        cases value with
        | none => cases h₆
        | some v => exact sanitizeKey_json (ht _ List.mem_cons_self) h₆
      · exact hjson e he

theorem sanitizeMetadata_json (h : sanitizeMetadata md = .ok es) : JsonDict es := by
  rw [sanitizeMetadata] at h
  split at h
  · obtain ⟨hsub, hjson⟩ := sanitizeEntries_json (by decide) h
    exact jsonDict_of_sublist (by decide) hsub hjson
  · cases h
    constructor
    · exact List.nodup_nil
    · intro e he
      cases he
    · intro e he
      cases he

theorem isJson_viewEntry (hd : v.distinct = true) (h : viewEntry key v = .ok (some w)) :
    w.isJson = true := by
  rw [viewEntry] at h
  split at h
  · split at h
    · obtain ⟨seen, h₁, h₂⟩ := except_bind_ok h
      have h₃ := except_pure_ok h₂
      split at h₃
      · cases h₃
      · cases h₃
        exact isJson_dict.2 (sanitizeMetadata_json h₁)
    · cases h
  · exact isJson_jsonValue v w hd h

def Visible (keys : List String) (key : String) : Prop := key ∈ keys ∧ ¬ key.startsWith "_"

instance (keys : List String) (key : String) : Decidable (Visible keys key) :=
  inferInstanceAs (Decidable (_ ∧ _))

theorem viewEntries_cons {es : List (Key × Py)} (hv : Visible keys key)
    (h : viewEntries keys ((.str key, v) :: es) = .ok d) :
    ∃ head rest, viewEntry key v = .ok head ∧ viewEntries keys es = .ok rest ∧
      ∀ k, d.get? k = if key = k then head.or (rest.get? k) else rest.get? k := by
  rw [viewEntries] at h
  split at h
  · obtain ⟨head, h₁, h₂⟩ := except_bind_ok h
    obtain ⟨rest, h₃, h₄⟩ := except_bind_ok h₂
    refine ⟨head, rest, h₁, h₃, fun k => ?_⟩
    cases head with
    | none =>
      cases except_pure_ok h₄
      rw [Option.none_or, ite_self]
    | some w =>
      cases except_pure_ok h₄
      rw [Dict.get?, Dict.lookup, Option.some_or]
      by_cases hk : key = k
      · rw [if_pos hk, if_pos hk]
      · rw [if_neg hk, if_neg hk]
        change (rest.erase key).get? k = rest.get? k
        rw [Dict.get?_erase]
        grind
  next hn => exact absurd hv hn

theorem viewEntries_skip {es : List (Key × Py)} (hk : ∀ key, k = .str key → ¬ Visible keys key) :
    viewEntries keys ((k, v) :: es) = viewEntries keys es := by
  cases k with
  | str key =>
    rw [viewEntries]
    exact if_neg (hk key rfl)
  | other r => rfl

theorem get?_viewEntries {es : List (Key × Py)} (hn : (es.map Prod.fst).Nodup)
    (h : viewEntries keys es = .ok d) (key : String) :
    if Visible keys key then
      match Dict.lookup (.str key) es with
      | none => d.get? key = none
      | some v => viewEntry key v = .ok (d.get? key)
    else d.get? key = none := by
  induction es generalizing d with
  | nil =>
    cases h
    split <;> rfl
  | cons e es ih =>
    obtain ⟨k, v⟩ := e
    rw [List.map_cons, List.nodup_cons] at hn
    by_cases hk : ∃ name, k = .str name ∧ Visible keys name
    · obtain ⟨name, rfl, hv⟩ := hk
      obtain ⟨head, rest, h₁, h₂, hd⟩ := viewEntries_cons hv h
      have hrest := ih hn.2 h₂
      rw [hd, Dict.lookup]
      by_cases hname : name = key
      · subst hname
        rw [if_pos hv, Dict.lookup_eq_none.2 hn.1] at hrest
        rw [if_pos hv, if_pos rfl, if_pos rfl, hrest, Option.or_none]
        exact h₁
      · rw [if_neg hname, if_neg (fun he => hname (Key.str.inj he))]
        exact hrest
    · rw [viewEntries_skip fun name hname hv => hk ⟨name, hname, hv⟩] at h
      have hrest := ih hn.2 h
      rw [Dict.lookup]
      by_cases hname : k = .str key
      · have hnot : ¬ Visible keys key := fun hv => hk ⟨key, hname, hv⟩
        rw [if_neg hnot] at hrest ⊢
        exact hrest
      · rw [if_neg hname]
        exact hrest

theorem viewEntries_ok {es : List (Key × Py)}
    (h : ∀ key v, (Key.str key, v) ∈ es → Visible keys key → ∃ w, viewEntry key v = .ok w) :
    ∃ d, viewEntries keys es = .ok d := by
  induction es with
  | nil => exact ⟨_, rfl⟩
  | cons e es ih =>
    obtain ⟨k, v⟩ := e
    obtain ⟨rest, hrest⟩ := ih fun key v he => h key v (List.mem_cons_of_mem _ he)
    by_cases hk : ∃ name, k = .str name ∧ Visible keys name
    · obtain ⟨name, rfl, hv⟩ := hk
      obtain ⟨head, hhead⟩ := h name v List.mem_cons_self hv
      have hv' : name ∈ keys ∧ ¬ name.startsWith "_" := hv
      rw [viewEntries, if_pos hv', hhead, hrest]
      exact ⟨_, rfl⟩
    · rw [viewEntries_skip fun name hname hv => hk ⟨name, hname, hv⟩]
      exact ⟨rest, hrest⟩

def asPy (d : Dict String Py) : Py := .dict (d.entries.map fun e => (.str e.1, e.2))

theorem lookup_asPy (es : List (String × Py)) (key : String) :
    Dict.lookup (.str key) (es.map fun e => (Key.str e.1, e.2)) = Dict.lookup key es := by
  induction es with
  | nil => rfl
  | cons e es ih =>
    obtain ⟨k, v⟩ := e
    rw [List.map_cons, Dict.lookup, Dict.lookup, ih]
    simp only [Key.str.injEq]

theorem lookup_asPy_other (es : List (String × Py)) (r : String) :
    Dict.lookup (.other r) (es.map fun e => (Key.str e.1, e.2)) = none := by
  rw [Dict.lookup_eq_none, List.map_map]
  intro hm
  obtain ⟨e, -, he⟩ := List.mem_map.1 hm
  cases he

theorem jsonDict_asPy {d : Dict String Py} (h : ∀ key v, d.get? key = some v → v.isJson = true) :
    JsonDict (d.entries.map fun e => (Key.str e.1, e.2)) := by
  refine jsonDict_of_sublist d.nodup ?_ fun e he => ?_
  · rw [List.map_map, List.map_map]
    exact List.Sublist.refl _
  · obtain ⟨e', he', rfl⟩ := List.mem_map.1 he
    exact h e'.1 e'.2 (Dict.get?_eq_some.2 he')

theorem get?_overlay (keys : List String) (part : Dict String Py) (es : List (Key × Py))
    (acc : Dict String Py) (key : String) : (overlay keys part es acc).get? key =
      if Key.str key ∈ es.map Prod.fst ∧ key ∈ keys then part.get? key else acc.get? key := by
  induction es generalizing acc with
  | nil => simp [overlay]
  | cons e es ih =>
    obtain ⟨k, v⟩ := e
    cases k with
    | other r =>
      rw [overlay, ih]
      simp only [List.map_cons, List.mem_cons, reduceCtorEq, false_or]
    | str name =>
      rw [overlay]
      by_cases hm : name ∈ keys
      · rw [if_pos hm]
        have hstep : ∀ acc' : Dict String Py,
            (∀ k, acc'.get? k = if name = k then part.get? k else acc.get? k) →
            (overlay keys part es acc').get? key =
              if Key.str key ∈ ((Key.str name, v) :: es).map Prod.fst ∧ key ∈ keys
              then part.get? key else acc.get? key := by
          intro acc' hacc
          rw [ih, hacc]
          simp only [List.map_cons, List.mem_cons]
          grind
        split
        next w hw =>
          apply hstep
          intro k
          rw [Dict.get?_set]
          grind
        next hw =>
          apply hstep
          intro k
          rw [Dict.get?_erase]
          grind
      · rw [if_neg hm, ih]
        simp only [List.map_cons, List.mem_cons]
        grind

def overlaid (state update : List (Key × Py)) : List (Key × Py) :=
  update.foldl (fun acc e => Dict.put e.1 e.2 acc) state

theorem nodup_overlaid (update : List (Key × Py)) (hn : (state.map Prod.fst).Nodup) :
    ((overlaid state update).map Prod.fst).Nodup := by
  induction update generalizing state with
  | nil => exact hn
  | cons e update ih => exact ih (Dict.nodup_put hn e.1 e.2)

theorem lookup_overlaid {update : List (Key × Py)} (hn : (update.map Prod.fst).Nodup) (k : Key) :
    Dict.lookup k (overlaid state update) = (Dict.lookup k update).or (Dict.lookup k state) := by
  induction update generalizing state with
  | nil => rfl
  | cons e update ih =>
    rw [List.map_cons, List.nodup_cons] at hn
    change Dict.lookup k (overlaid (Dict.put e.1 e.2 state) update) = _
    rw [ih hn.2, Dict.lookup_put, Dict.lookup]
    by_cases hk : e.1 = k
    · subst hk
      rw [if_pos rfl, if_pos rfl, Dict.lookup_eq_none.2 hn.1, Option.none_or, Option.some_or]
    · rw [if_neg hk, if_neg hk]

end Prismal.Events
