import Prismal.Lib.Dict

namespace Prismal.Lib
set_option autoImplicit true
set_option linter.unusedSectionVars false

/-! Mappings that hold at most so many keys and lose the one that has gone unused for longest. -/

theorem rtake_append_of_le {xs ys : List α} (h : ys.length ≤ n) :
    (xs ++ ys).rtake n = xs.rtake (n - ys.length) ++ ys := by
  have hskip : (xs ++ ys).length - n = xs.length - (n - ys.length) := by
    rw [List.length_append]
    omega
  have hle : xs.length - (n - ys.length) ≤ xs.length := Nat.sub_le _ _
  rw [List.rtake, List.rtake, hskip, List.drop_append_of_le_length hle]

theorem rtake_append_of_ge {xs ys : List α} (h : n ≤ ys.length) :
    (xs ++ ys).rtake n = ys.rtake n := by
  have hskip : (xs ++ ys).length - n = xs.length + (ys.length - n) := by
    rw [List.length_append]
    omega
  rw [List.rtake, List.rtake, hskip, List.drop_append, List.drop_eq_nil_of_le (Nat.le_add_right _ _),
    Nat.add_sub_cancel_left, List.nil_append]

namespace Lru

variable {κ : Type u} {α : Type v} [DecidableEq κ]

/-- What a call does to the order of the keys: one becomes the youngest, or one goes. -/
inductive Use (κ : Type u) where
  | use (k : κ)
  | drop (k : κ)
  deriving DecidableEq

def Use.key : Use κ → κ
  | use k => k
  | drop k => k

/-- A mapping with room for `n` keys after one use. A key that is used is stored, or it is there. -/
inductive Effect (n : Nat) (d : Dict κ α) : Use κ → Dict κ α → Prop
  | stored (k : κ) (a : α) : Effect n d (.use k) ((d.push k a).trim n)
  | hit (k : κ) (h : k ∈ d) : Effect n d (.use k) (d.touch k)
  | dropped (k : κ) : Effect n d (.drop k) (d.erase k)

/-- A run of uses in which one key is not stored again. -/
inductive Spares (n : Nat) (k : κ) : Dict κ α → List (Use κ) → Dict κ α → Prop
  | nil (d : Dict κ α) : Spares n k d [] d
  | cons (h : Effect n d u d') (hk : u = .use k → k ∈ d ∧ d' = d.touch k)
      (hs : Spares n k d' us d'') : Spares n k d (u :: us) d''

/-- The keys that are younger than `k`, oldest first. -/
def younger (k : κ) (ys : List κ) : Use κ → List κ
  | .use j => if j = k then [] else ys.erase j ++ [j]
  | .drop j => ys.erase j

/-- The key is not dropped, and all the time there is room for it besides those that are
younger. -/
def Kept (n : Nat) (k : κ) (ys : List κ) : List (Use κ) → Prop
  | [] => ys.length < n
  | u :: us => ys.length < n ∧ u ≠ .drop k ∧ Kept n k (younger k ys u) us

instance Kept.decidable (n : Nat) (k : κ) :
    ∀ (ys : List κ) (us : List (Use κ)), Decidable (Kept n k ys us)
  | ys, [] => inferInstanceAs (Decidable (ys.length < n))
  | ys, u :: us =>
    have := Kept.decidable n k (younger k ys u) us
    inferInstanceAs (Decidable (_ ∧ _ ∧ _))

theorem Kept.room {n : Nat} {k : κ} {ys : List κ} {us : List (Use κ)} (h : Kept n k ys us) :
    ys.length < n := by
  cases us with
  | nil => exact h
  | cons u us => exact h.1

variable {d d' : Dict κ α} {n : Nat} {k j : κ} {a : α} {ys old : List κ} {us : List (Use κ)}

theorem keys_push (d : Dict κ α) (j : κ) (a : α) : (d.push j a).keys = d.keys.erase j ++ [j] := by
  rw [Dict.keys, Dict.entries_push, List.map_append]
  exact congrArg (· ++ [j]) (Dict.keys_erase d j)

theorem keys_trim (d : Dict κ α) (n : Nat) : (d.trim n).keys = d.keys.rtake n := by
  simp only [Dict.keys, Dict.trim, List.rtake, List.map_drop, List.length_map]

theorem keys_touch (h : j ∈ d) : (d.touch j).keys = d.keys.erase j ++ [j] := by
  obtain ⟨a, ha⟩ := Dict.mem_iff_get?.1 h
  rw [Dict.touch, ha]
  exact keys_push d j a

theorem erase_around (hn : (old ++ k :: ys).Nodup) (hj : j ≠ k) :
    ∃ old', (old ++ k :: ys).erase j = old' ++ k :: ys.erase j := by
  by_cases hold : j ∈ old
  · have hys : j ∉ ys := by
      intro hys
      have hdisjoint := (List.nodup_append.1 hn).2.2 j hold j (List.mem_cons_of_mem k hys)
      exact hdisjoint rfl
    refine ⟨old.erase j, ?_⟩
    rw [List.erase_append_left _ hold, List.erase_of_not_mem hys]
  · have hne : ¬ (k == j) = true := fun h => hj (eq_of_beq h).symm
    refine ⟨old, ?_⟩
    rw [List.erase_append_right _ hold, List.erase_cons, if_neg hne]

theorem get?_erase_ne (h : j ≠ k) : (d.erase j).get? k = d.get? k := by
  rw [Dict.get?_erase, if_neg]
  exact h

theorem get?_push_ne (h : j ≠ k) : (d.push j a).get? k = d.get? k := by
  rw [Dict.get?_push, if_neg h]

theorem get?_trim_of_mem (h : k ∈ d.trim n) : (d.trim n).get? k = d.get? k := by
  obtain ⟨a, ha⟩ := Dict.mem_iff_get?.1 h
  rw [ha, Dict.get?_of_trim ha]

theorem Effect.bounded (h : Effect n d u d') (hd : d.keys.length ≤ n) : d'.keys.length ≤ n := by
  cases h with
  | stored j a =>
    rw [keys_trim, List.rtake, List.length_drop]
    omega
  | hit j hj =>
    have hpos : 0 < d.keys.length := List.length_pos_of_mem hj
    rw [keys_touch hj, List.length_append, List.length_erase_of_mem hj, List.length_singleton]
    omega
  | dropped j =>
    rw [Dict.keys_erase]
    exact List.length_erase_le.trans hd

theorem Effect.absent (h : Effect n d u d') (hu : u.key ≠ k) (hk : k ∉ d) : k ∉ d' := by
  cases h with
  | stored j a =>
    rw [← Dict.get?_eq_none] at hk
    intro hmem
    have hsame := get?_trim_of_mem hmem
    change j ≠ k at hu
    rw [get?_push_ne hu, hk] at hsame
    exact Dict.get?_eq_none.1 hsame hmem
  | hit j hj =>
    rw [← Dict.get?_eq_none, Dict.get?_touch]
    exact Dict.get?_eq_none.2 hk
  | dropped j =>
    rw [Dict.mem_erase]
    exact fun hmem => hk hmem.2

theorem erased_younger (hd : d.keys = old ++ k :: ys) (hj : j ≠ k) :
    ∃ old', d.keys.erase j = old' ++ k :: ys.erase j := by
  rw [hd]
  apply erase_around _ hj
  rw [← hd]
  exact d.nodup

theorem young_stored (hd : d.keys = old ++ k :: ys) (hj : j ≠ k) (a : α) :
    if (ys.erase j ++ [j]).length < n then
      ∃ old', ((d.push j a).trim n).keys = old' ++ k :: (ys.erase j ++ [j])
    else k ∉ (d.push j a).trim n := by
  obtain ⟨old', hold'⟩ := erased_younger hd hj
  have hkeys : (d.push j a).keys = old' ++ k :: (ys.erase j ++ [j]) := by
    rw [keys_push, hold', List.append_assoc]
    rfl
  split
  · next hlt =>
    have hle : (k :: (ys.erase j ++ [j])).length ≤ n := hlt
    exact ⟨_, (keys_trim _ _).trans (hkeys ▸ rtake_append_of_le hle)⟩
  · next hge =>
    have hnodup : (old' ++ k :: (ys.erase j ++ [j])).Nodup := hkeys ▸ (d.push j a).nodup
    have hk : k ∉ ys.erase j ++ [j] := (List.nodup_cons.1 (List.nodup_append.1 hnodup).2.1).1
    have hsplit : old' ++ k :: (ys.erase j ++ [j]) = (old' ++ [k]) ++ (ys.erase j ++ [j]) := by
      rw [List.append_assoc]
      rfl
    rw [Dict.mem_iff_keys, keys_trim, hkeys, hsplit, rtake_append_of_ge (not_lt.1 hge)]
    exact fun hmem => hk (List.mem_of_mem_drop hmem)

theorem young_hit (hd : d.keys = old ++ k :: ys) (hn : d.keys.length ≤ n) (hmem : j ∈ d)
    (hj : j ≠ k) : (ys.erase j ++ [j]).length < n ∧
      ∃ old', (d.touch j).keys = old' ++ k :: (ys.erase j ++ [j]) := by
  obtain ⟨old', hold'⟩ := erased_younger hd hj
  have hkeys : (d.touch j).keys = old' ++ k :: (ys.erase j ++ [j]) := by
    rw [keys_touch hmem, hold', List.append_assoc]
    rfl
  have hbound := (Effect.hit (n := n) j hmem).bounded hn
  rw [hkeys, List.length_append, List.length_cons] at hbound
  exact ⟨by omega, old', hkeys⟩

theorem young_dropped (hd : d.keys = old ++ k :: ys) (hj : j ≠ k) :
    ∃ old', (d.erase j).keys = old' ++ k :: ys.erase j := by
  rw [Dict.keys_erase]
  exact erased_younger hd hj

theorem Effect.unchanged (h : Effect n d u d') (hu : u.key ≠ k) (hmem : k ∈ d') :
    d'.get? k = d.get? k := by
  cases h with
  | stored j a => exact (get?_trim_of_mem hmem).trans (get?_push_ne hu)
  | hit j hj => exact Dict.get?_touch d j
  | dropped j => exact get?_erase_ne hu

theorem Effect.young (h : Effect n d u d') (hn : d.keys.length ≤ n)
    (hd : d.keys = old ++ k :: ys) (hu : u.key ≠ k) (hlt : ys.length < n) :
    if (younger k ys u).length < n then ∃ old', d'.keys = old' ++ k :: younger k ys u
    else k ∉ d' := by
  cases h with
  | stored j a =>
    have hyounger : younger k ys (.use j) = ys.erase j ++ [j] := if_neg hu
    rw [hyounger]
    exact young_stored (j := j) hd hu a
  | hit j hj =>
    have hyounger : younger k ys (.use j) = ys.erase j ++ [j] := if_neg hu
    obtain ⟨hroom, hhit⟩ := young_hit hd hn hj hu
    rw [hyounger, if_pos hroom]
    exact hhit
  | dropped j =>
    have hroom : (younger k ys (.drop j)).length < n := by
      apply Nat.lt_of_le_of_lt _ hlt
      exact List.length_erase_le
    rw [if_pos hroom]
    exact young_dropped hd hu

theorem Spares.absent (h : Spares n k d us d') (hk : k ∉ d) : k ∉ d' := by
  induction h with
  | nil => exact hk
  | @cons d u d' us d'' hu huse hs ih =>
    apply ih
    by_cases hkey : u.key = k
    · cases u with
      | use j =>
        cases hkey
        exact absurd (huse rfl).1 hk
      | drop j =>
        cases hu
        rw [Dict.mem_erase]
        exact fun hmem => hk hmem.2
    · exact hu.absent hkey hk

theorem Spares.kept (h : Spares n k d us d') (hd : d.keys.length ≤ n)
    (hys : d.keys = old ++ k :: ys) (hlt : ys.length < n) :
    d'.get? k = if Kept n k ys us then d.get? k else none := by
  induction h generalizing old ys with
  | nil => exact (if_pos (show Kept n k ys [] from hlt)).symm
  | @cons d u d' us d'' hu huse hs ih =>
    by_cases hkey : u.key = k
    · subst hkey
      cases u with
      | use j =>
        obtain ⟨hmem, rfl⟩ := huse rfl
        have hkeys : (d.touch j).keys = d.keys.erase j ++ j :: [] := keys_touch hmem
        have hpos : 0 < n := Nat.lt_of_le_of_lt (Nat.zero_le _) hlt
        have hyounger : younger j ys (.use j) = [] := if_pos rfl
        have hcond : Kept n j [] us ↔ Kept n j ys (.use j :: us) := by
          rw [Kept, hyounger]
          exact ⟨fun hkept => ⟨hlt, nofun, hkept⟩, fun hkept => hkept.2.2⟩
        exact (ih (hu.bounded hd) hkeys hpos).trans
          (if_congr hcond (Dict.get?_touch d j) rfl)
      | drop j =>
        cases hu
        have hgone : j ∉ d.erase j := fun hmem => ((Dict.mem_erase d).1 hmem).1 rfl
        exact (Dict.get?_eq_none.2 (hs.absent hgone)).trans
          (if_neg fun hkept => hkept.2.1 rfl).symm
    · have hstep := hu.young hd hys hkey hlt
      have hdrop : u ≠ .drop k := fun hdrop => hkey (congrArg Use.key hdrop)
      split at hstep
      · next hroom =>
        obtain ⟨old', hys'⟩ := hstep
        have hmem : k ∈ d' := by
          rw [Dict.mem_iff_keys, hys']
          exact List.mem_append_right _ List.mem_cons_self
        rw [ih (hu.bounded hd) hys' hroom, hu.unchanged hkey hmem]
        apply if_congr _ rfl rfl
        rw [Kept]
        exact ⟨fun hkept => ⟨hlt, hdrop, hkept⟩, fun hkept => hkept.2.2⟩
      · next hfull =>
        rw [Dict.get?_eq_none.2 (hs.absent hstep), if_neg]
        exact fun hkept => hfull hkept.2.2.room

end Lru

end Prismal.Lib
