import Prismal.Lib.Pointer
import Prismal.Events.Value

namespace Prismal.Events
open Prismal.Lib
set_option autoImplicit true

/-! What a client makes of a JSON patch, and that the patch between two views turns any copy of the
old view into a copy of the new one. -/

def PatchOp.path : PatchOp → String
  | .remove path | .add path _ | .replace path _ => path

def PatchOp.act : PatchOp → Option Py → Option (Option Py)
  | .add _ value, _ => some (some value)
  | .replace _ value, some _ => some (some value)
  | .remove _, some _ => some none
  | _, none => none

def alter (f : Option Py → Option (Option Py)) : List String → Option Py → Option (Option Py)
  | [], target => f target
  | token :: tokens, some (.dict es) =>
    match alter f tokens (Dict.lookup (.str token) es) with
    | none => none
    | some none => some (some (.dict (es.filter fun e => !decide (e.1 = .str token))))
    | some (some w) => some (some (.dict (Dict.put (.str token) w es)))
  | _ :: _, _ => none

def PatchOp.applyAt (depth : Nat) (op : PatchOp) (doc : Option Py) : Option (Option Py) :=
  match Pointer.parse op.path with
  | none => none
  | some tokens => alter op.act (tokens.drop depth) doc

def applyPatch (depth : Nat) : List PatchOp → Option Py → Option (Option Py)
  | [], doc => some doc
  | op :: ops, doc =>
    match op.applyAt depth doc with
    | none => none
    | some doc' => applyPatch depth ops doc'

namespace Py

mutual

def isJson : Py → Bool
  | .none | .bool _ | .int _ | .float _ _ | .str _ => true
  | .list xs => isJsonItems xs
  | .dict es => decide (es.map Prod.fst).Nodup && isJsonEntries es
  | _ => false

def isJsonItems : List Py → Bool
  | [] => true
  | x :: xs => isJson x && isJsonItems xs

def isJsonEntries : List (Key × Py) → Bool
  | [] => true
  | (.str _, v) :: es => isJson v && isJsonEntries es
  | (.other _, _) :: _ => false

end

theorem isJsonEntries_iff (es : List (Key × Py)) :
    isJsonEntries es = true ↔ ∀ e ∈ es, (∃ s, e.1 = .str s) ∧ e.2.isJson = true := by
  induction es with
  | nil => simp [isJsonEntries]
  | cons e es ih =>
    obtain ⟨k, v⟩ := e
    cases k with
    | str s => simp [isJsonEntries, ih]
    | other r => simp [isJsonEntries]

/-- An object with distinct string keys and JSON values. -/
structure JsonDict (es : List (Key × Py)) : Prop where
  nodup : (es.map Prod.fst).Nodup
  keys : ∀ e ∈ es, ∃ s, e.1 = .str s
  values : ∀ e ∈ es, e.2.isJson = true

theorem isJson_dict : (Py.dict es).isJson = true ↔ JsonDict es := by
  rw [isJson, Bool.and_eq_true, decide_eq_true_eq, isJsonEntries_iff]
  constructor
  · rintro ⟨hn, he⟩
    exact ⟨hn, fun e h => (he e h).1, fun e h => (he e h).2⟩
  · rintro ⟨hn, hk, hv⟩
    exact ⟨hn, fun e h => ⟨hk e h, hv e h⟩⟩

theorem numberEq_trans (h : numberEq u v = true) (h' : numberEq v w = true) :
    numberEq u w = true := by
  rw [numberEq] at h h' ⊢
  cases hu : u.number with
  | none => simp [hu] at h
  | some p =>
    cases hv : v.number with
    | none => simp [hu, hv] at h
    | some q =>
      cases hw : w.number with
      | none => simp [hv, hw] at h'
      | some r =>
        simp only [hu, hv, hw, beq_iff_eq] at h h' ⊢
        exact h.trans h'

theorem lookup_mem {es : List (Key × Py)} (h : Dict.lookup k es = some v) : (k, v) ∈ es := by
  induction es with
  | nil => cases h
  | cons e es ih =>
    obtain ⟨j, w⟩ := e
    rw [Dict.lookup] at h
    split at h
    next hj =>
      cases h
      exact hj ▸ List.mem_cons_self
    · exact List.mem_cons_of_mem _ (ih h)

theorem eqEntries_iff (es fs : List (Key × Py)) : eqEntries es fs = true ↔
    ∀ e ∈ es, ∃ w, Dict.lookup e.1 fs = some w ∧ e.2.eq w = true := by
  induction es with
  | nil => simp [eqEntries]
  | cons e es ih =>
    obtain ⟨k, v⟩ := e
    rw [eqEntries, Bool.and_eq_true, ih, List.forall_mem_cons]
    cases hl : Dict.lookup k fs with
    | none => simp
    | some w => simp

theorem eq_number (hn : u.number ≠ Option.none) : u.eq v = numberEq u v := by
  cases u with
  | bool b => rw [Py.eq.eq_def]
  | int i => rw [Py.eq.eq_def]
  | float q r => rw [Py.eq.eq_def]
  | _ => exact absurd rfl hn

mutual

theorem eq_refl : ∀ v : Py, v.isJson = true → v.eq v = true
  | .none, _ => rfl
  | .bool b, _ => by rw [eq, numberEq]; exact beq_self_eq_true _
  | .int i, _ => by rw [eq, numberEq]; exact beq_self_eq_true _
  | .float q r, _ => by rw [eq, numberEq]; exact beq_self_eq_true _
  | .str s, _ => by rw [eq]; exact beq_self_eq_true s
  | .list xs, h => by
    rw [isJson] at h
    rw [eq]
    exact eqItems_refl xs h
  | .dict es, h => by
    have hd := isJson_dict.1 h
    rw [eq, Bool.and_eq_true, eqEntries_iff]
    refine ⟨beq_self_eq_true _, fun e he => ⟨e.2, ?_, eqEntries_refl es hd.values e he⟩⟩
    exact (Dict.lookup_eq_some hd.nodup).2 he
  | .tuple _, h => by cases h
  | .nonfinite _, h => by cases h
  | .interrupt _ _, h => by cases h
  | .model _ _, h => by cases h
  | .object _, h => by cases h
  | .rogue _, h => by cases h

theorem eqItems_refl : ∀ xs : List Py, isJsonItems xs = true → eqItems xs xs = true
  | [], _ => rfl
  | x :: xs, h => by
    rw [isJsonItems, Bool.and_eq_true] at h
    rw [eqItems, Bool.and_eq_true]
    exact ⟨eq_refl x h.1, eqItems_refl xs h.2⟩

theorem eqEntries_refl : ∀ es : List (Key × Py), (∀ e ∈ es, e.2.isJson = true) →
    ∀ e ∈ es, e.2.eq e.2 = true
  | [], _, e, he => by cases he
  | (k, v) :: es, h, e, he => by
    rcases List.mem_cons.1 he with rfl | he
    · exact eq_refl v (h (k, v) List.mem_cons_self)
    · exact eqEntries_refl es (fun e he => h e (List.mem_cons_of_mem _ he)) e he

end

theorem number_of_numberEq (h : numberEq u v = true) : v.number ≠ Option.none := by
  intro hv
  rw [numberEq, hv] at h
  cases hu : u.number <;> simp [hu] at h

mutual

theorem eq_trans : ∀ u v w : Py, u.eq v = true → v.eq w = true → u.eq w = true
  | .none, v, w, h, h' => by
    cases v with
    | none => exact h'
    | _ => cases h
  | .str s, v, w, h, h' => by
    cases v with
    | str t =>
      rw [eq, beq_iff_eq] at h
      exact h ▸ h'
    | _ => cases h
  | .bool b, v, w, h, h' => by
    rw [eq_number (by simp [number])] at h ⊢
    rw [eq_number (number_of_numberEq h)] at h'
    exact numberEq_trans h h'
  | .int i, v, w, h, h' => by
    rw [eq_number (by simp [number])] at h ⊢
    rw [eq_number (number_of_numberEq h)] at h'
    exact numberEq_trans h h'
  | .float q r, v, w, h, h' => by
    rw [eq_number (by simp [number])] at h ⊢
    rw [eq_number (number_of_numberEq h)] at h'
    exact numberEq_trans h h'
  | .list xs, v, w, h, h' => by
    cases v with
    | list ys =>
      cases w with
      | list zs => exact eqItems_trans xs ys zs h h'
      | _ => cases h'
    | _ => cases h
  | .tuple xs, v, w, h, h' => by
    cases v with
    | tuple ys =>
      cases w with
      | tuple zs => exact eqItems_trans xs ys zs h h'
      | _ => cases h'
    | _ => cases h
  | .dict es, v, w, h, h' => by
    cases v with
    | dict fs =>
      cases w with
      | dict gs =>
        rw [eq, Bool.and_eq_true, beq_iff_eq, eqEntries_iff] at h h' ⊢
        refine ⟨h.1.trans h'.1, fun e he => ?_⟩
        obtain ⟨x, hx, hex⟩ := h.2 e he
        obtain ⟨y, hy, hxy⟩ := h'.2 (e.1, x) (lookup_mem hx)
        exact ⟨y, hy, eqEntries_trans es e he x y hex hxy⟩
      | _ => cases h'
    | _ => cases h
  | .nonfinite _, _, _, h, _ => by cases h
  | .interrupt _ _, _, _, h, _ => by cases h
  | .model _ _, _, _, h, _ => by cases h
  | .object _, _, _, h, _ => by cases h
  | .rogue _, _, _, h, _ => by cases h

theorem eqItems_trans : ∀ xs ys zs : List Py, eqItems xs ys = true → eqItems ys zs = true →
    eqItems xs zs = true
  | [], ys, zs, h, h' => by
    cases ys with
    | nil => exact h'
    | cons y ys => cases h
  | x :: xs, ys, zs, h, h' => by
    cases ys with
    | nil => cases h
    | cons y ys =>
      cases zs with
      | nil => cases h'
      | cons z zs =>
        rw [eqItems, Bool.and_eq_true] at h h' ⊢
        exact ⟨eq_trans x y z h.1 h'.1, eqItems_trans xs ys zs h.2 h'.2⟩

theorem eqEntries_trans : ∀ es : List (Key × Py), ∀ e ∈ es, ∀ v w : Py, e.2.eq v = true →
    v.eq w = true → e.2.eq w = true
  | [], e, he, _, _, _, _ => by cases he
  | (k, u) :: es, e, he, v, w, h, h' => by
    rcases List.mem_cons.1 he with rfl | he
    · exact eq_trans u v w h h'
    · exact eqEntries_trans es e he v w h h'

end

def Same : Option Py → Option Py → Prop
  | some v, some w => v.eq w = true
  | Option.none, Option.none => True
  | _, _ => False

theorem same_iff (u v : Option Py) : Same u v ↔ Option.Rel (fun v w => v.eq w = true) u v := by
  apply Iff.intro
  · intro h
    match u, v, h with
    | some _, some _, h => exact .some h
    | Option.none, Option.none, _ => exact .none
  · intro h
    cases h with
    | some h => exact h
    | none => trivial

theorem eq_dict_iff {es fs : List (Key × Py)} (he : JsonDict es) (hf : JsonDict fs) :
    (Py.dict es).eq (.dict fs) = true ↔ ∀ k, Same (Dict.lookup k es) (Dict.lookup k fs) := by
  rw [eq, Bool.and_eq_true, beq_iff_eq, eqEntries_iff]
  have hrel := Dict.lookup_rel_iff he.nodup hf.nodup (R := fun v w => v.eq w = true)
  exact hrel.trans (forall_congr' fun k => (same_iff _ _).symm)

end Py

end Prismal.Events
