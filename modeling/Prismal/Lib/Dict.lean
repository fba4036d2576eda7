import Mathlib.Data.List.DropRight
import Mathlib.Data.List.Induction
import Mathlib.Data.List.Nodup
import Mathlib.Data.List.Perm.Basic

namespace Prismal.Lib
set_option autoImplicit true
set_option linter.unusedSectionVars false

/-- A mapping that remembers the order in which its keys were first inserted. -/
structure Dict (κ : Type u) (α : Type v) where
  entries : List (κ × α)
  nodup : (entries.map Prod.fst).Nodup

namespace Dict

variable {κ : Type u} {α : Type v} [DecidableEq κ]

def lookup (k : κ) : List (κ × α) → Option α
  | [] => none
  | (j, a) :: es => if j = k then some a else lookup k es

def put (k : κ) (a : α) : List (κ × α) → List (κ × α)
  | [] => [(k, a)]
  | (j, b) :: es => if j = k then (j, a) :: es else (j, b) :: put k a es

theorem mem_keys_put (es : List (κ × α)) :
    j ∈ (put k a es).map Prod.fst ↔ j = k ∨ j ∈ es.map Prod.fst := by
  induction es with
  | nil => simp [put]
  | cons e es ih =>
    obtain ⟨i, b⟩ := e
    by_cases h : i = k
    · simp only [put, h, if_true, List.map_cons, List.mem_cons]
      grind
    · simp only [put, h, if_false, List.map_cons, List.mem_cons, ih]
      grind

theorem nodup_put {es : List (κ × α)} (h : (es.map Prod.fst).Nodup) (k : κ) (a : α) :
    ((put k a es).map Prod.fst).Nodup := by
  induction es with
  | nil => simp [put]
  | cons e es ih =>
    obtain ⟨i, b⟩ := e
    rw [List.map_cons, List.nodup_cons] at h
    by_cases hi : i = k
    · simpa only [put, hi, if_true, List.map_cons, List.nodup_cons] using hi ▸ h
    · simp only [put, hi, if_false, List.map_cons, List.nodup_cons]
      refine ⟨fun hm => ?_, ih h.2⟩
      rcases (mem_keys_put es).1 hm with he | hm
      · exact hi he
      · exact h.1 hm

theorem nodup_filter {es : List (κ × α)} (h : (es.map Prod.fst).Nodup) (p : κ × α → Bool) :
    ((es.filter p).map Prod.fst).Nodup :=
  h.sublist (List.filter_sublist.map _)

def empty : Dict κ α := ⟨[], List.nodup_nil⟩

instance : EmptyCollection (Dict κ α) := ⟨empty⟩

instance : Inhabited (Dict κ α) := ⟨empty⟩

def get? (d : Dict κ α) (k : κ) : Option α := lookup k d.entries

def set (d : Dict κ α) (k : κ) (a : α) : Dict κ α := ⟨put k a d.entries, nodup_put d.nodup k a⟩

def filter (d : Dict κ α) (p : κ × α → Bool) : Dict κ α :=
  ⟨d.entries.filter p, nodup_filter d.nodup p⟩

def erase (d : Dict κ α) (k : κ) : Dict κ α := d.filter fun e => !decide (e.1 = k)

def keys (d : Dict κ α) : List κ := d.entries.map Prod.fst

def values (d : Dict κ α) : List α := d.entries.map Prod.snd

instance : Membership κ (Dict κ α) := ⟨fun d k => k ∈ d.keys⟩

instance (d : Dict κ α) (k : κ) : Decidable (k ∈ d) := inferInstanceAs (Decidable (k ∈ d.keys))

theorem mem_iff_keys {d : Dict κ α} : k ∈ d ↔ k ∈ d.keys := Iff.rfl

theorem lookup_eq_none {es : List (κ × α)} : lookup k es = none ↔ k ∉ es.map Prod.fst := by
  induction es with
  | nil => simp [lookup]
  | cons e es ih =>
    obtain ⟨j, b⟩ := e
    by_cases h : j = k
    · simp [lookup, h]
    · simp only [lookup, h, if_false, ih, List.map_cons, List.mem_cons]
      grind

theorem lookup_eq_some {es : List (κ × α)} (hn : (es.map Prod.fst).Nodup) :
    lookup k es = some a ↔ (k, a) ∈ es := by
  induction es with
  | nil => simp [lookup]
  | cons e es ih =>
    obtain ⟨j, b⟩ := e
    rw [List.map_cons, List.nodup_cons] at hn
    by_cases h : j = k
    · subst h
      have hj : ∀ c, (j, c) ∉ es := fun c hc =>
        hn.1 (List.mem_map.2 ⟨(j, c), hc, rfl⟩)
      simp only [lookup, if_true, Option.some.injEq, List.mem_cons, Prod.mk.injEq, true_and, hj,
        or_false]
      exact eq_comm
    · have hk : k ≠ j := fun e => h e.symm
      simp only [lookup, h, if_false, ih hn.2, List.mem_cons, Prod.mk.injEq, hk, false_and,
        false_or]

theorem lookup_rel_iff {β : Type w} {R : α → β → Prop} {es : List (κ × α)} {fs : List (κ × β)}
    (he : (es.map Prod.fst).Nodup) (hf : (fs.map Prod.fst).Nodup) :
    (es.length = fs.length ∧ ∀ e ∈ es, ∃ b, lookup e.1 fs = some b ∧ R e.2 b) ↔
      ∀ k, Option.Rel R (lookup k es) (lookup k fs) := by
  apply Iff.intro
  · intro ⟨hlen, hall⟩ k
    have hsub : es.map Prod.fst ⊆ fs.map Prod.fst := by
      intro j hj
      obtain ⟨e, hmem, rfl⟩ := List.mem_map.1 hj
      obtain ⟨b, hb, -⟩ := hall e hmem
      exact List.mem_map_of_mem ((lookup_eq_some hf).1 hb)
    have hperm : (es.map Prod.fst).Perm (fs.map Prod.fst) := by
      apply (List.subperm_of_subset he hsub).perm_of_length_le
      rw [List.length_map, List.length_map]
      exact Nat.le_of_eq hlen.symm
    cases hk : lookup k es with
    | none =>
      have hnot : k ∉ fs.map Prod.fst := fun hm => lookup_eq_none.1 hk (hperm.mem_iff.2 hm)
      rw [lookup_eq_none.2 hnot]
      exact .none
    | some a =>
      obtain ⟨b, hb, hab⟩ := hall (k, a) ((lookup_eq_some he).1 hk)
      rw [hb]
      exact .some hab
  · intro h
    have hmem : ∀ k, k ∈ es.map Prod.fst ↔ k ∈ fs.map Prod.fst := by
      intro k
      have hk := h k
      rw [← not_iff_not, ← lookup_eq_none, ← lookup_eq_none]
      generalize lookup k es = a, lookup k fs = b at hk
      cases hk with
      | some _ => exact iff_of_false (Option.some_ne_none _) (Option.some_ne_none _)
      | none => exact iff_of_true rfl rfl
    have hlen := ((List.perm_ext_iff_of_nodup he hf).2 hmem).length_eq
    rw [List.length_map, List.length_map] at hlen
    apply And.intro hlen
    intro e hin
    have hk := h e.1
    rw [(lookup_eq_some he).2 hin] at hk
    generalize lookup e.1 fs = b at hk ⊢
    cases hk with
    | some hab => exact ⟨_, rfl, hab⟩

theorem get?_eq_none {d : Dict κ α} : d.get? k = none ↔ k ∉ d := lookup_eq_none

theorem get?_eq_some {d : Dict κ α} : d.get? k = some a ↔ (k, a) ∈ d.entries :=
  lookup_eq_some d.nodup

theorem mem_of_get? {d : Dict κ α} (h : d.get? k = some a) : k ∈ d :=
  mem_iff_keys.2 (List.mem_map_of_mem (f := Prod.fst) (get?_eq_some.1 h))

theorem mem_iff_get? {d : Dict κ α} : k ∈ d ↔ ∃ a, d.get? k = some a := by
  constructor
  · intro h
    obtain ⟨⟨j, a⟩, hm, rfl⟩ := List.mem_map.1 h
    exact ⟨a, get?_eq_some.2 hm⟩
  · rintro ⟨a, h⟩
    exact mem_of_get? h

theorem mem_values {d : Dict κ α} : a ∈ d.values ↔ ∃ k, d.get? k = some a := by
  rw [values, List.mem_map]
  constructor
  · rintro ⟨⟨k, b⟩, hm, rfl⟩
    exact ⟨k, get?_eq_some.2 hm⟩
  · rintro ⟨k, h⟩
    exact ⟨(k, a), get?_eq_some.1 h, rfl⟩

@[simp] theorem not_mem_empty : k ∉ (∅ : Dict κ α) := by
  intro h; cases h

@[simp] theorem get?_empty : (∅ : Dict κ α).get? k = none := rfl

@[simp] theorem entries_empty : (∅ : Dict κ α).entries = [] := rfl

@[simp] theorem keys_empty : (∅ : Dict κ α).keys = [] := rfl

theorem lookup_put (es : List (κ × α)) :
    lookup j (put k a es) = if k = j then some a else lookup j es := by
  induction es with
  | nil => simp [put, lookup]
  | cons e es ih =>
    obtain ⟨i, b⟩ := e
    by_cases h : i = k
    · subst h
      simp only [put, if_true, lookup]
      split <;> rfl
    · simp only [put, h, if_false, lookup, ih]
      grind

@[grind =] theorem get?_set (d : Dict κ α) :
    (d.set k a).get? j = if k = j then some a else d.get? j := lookup_put _

@[simp] theorem get?_set_self (d : Dict κ α) (k : κ) (a : α) : (d.set k a).get? k = some a := by
  rw [get?_set, if_pos rfl]

theorem get?_set_ne (d : Dict κ α) (h : k ≠ j) : (d.set k a).get? j = d.get? j := by
  rw [get?_set, if_neg h]

@[simp, grind =] theorem mem_set (d : Dict κ α) : j ∈ d.set k a ↔ j = k ∨ j ∈ d :=
  mem_keys_put _

theorem mem_entries_filter (d : Dict κ α) (p : κ × α → Bool) :
    e ∈ (d.filter p).entries ↔ e ∈ d.entries ∧ p e := List.mem_filter

theorem get?_filter (d : Dict κ α) (p : κ × α → Bool) :
    (d.filter p).get? k = some a ↔ d.get? k = some a ∧ p (k, a) := by
  rw [get?_eq_some, get?_eq_some, mem_entries_filter]

@[grind =] theorem get?_erase (d : Dict κ α) :
    (d.erase k).get? j = if k = j then none else d.get? j := by
  apply Option.ext
  intro a
  rw [erase, get?_filter]
  split
  next h => simp [h]
  next h => simp [Ne.symm h]

theorem get?_of_get?_erase {d : Dict κ α} (h : (d.erase k).get? j = some a) :
    d.get? j = some a := by
  rw [get?_erase] at h
  split at h
  · cases h
  · exact h

@[simp, grind =] theorem mem_erase (d : Dict κ α) : j ∈ d.erase k ↔ j ≠ k ∧ j ∈ d := by
  rw [mem_iff_get?, mem_iff_get?]
  simp only [get?_erase]
  grind

theorem mem_filter (d : Dict κ α) (p : κ × α → Bool) :
    k ∈ d.filter p ↔ ∃ a, d.get? k = some a ∧ p (k, a) := by
  simp only [mem_iff_get?, get?_filter]

theorem erase_of_not_mem {d : Dict κ α} (h : k ∉ d) : d.erase k = d := by
  obtain ⟨es, hn⟩ := d
  have hp : es.filter (fun e => !decide (e.1 = k)) = es := by
    apply List.filter_eq_self.2
    intro e he
    have hk : e.1 ≠ k := fun hk => h (hk ▸ List.mem_map_of_mem (f := Prod.fst) he)
    simp [hk]
  simp only [erase, filter, hp]

theorem length_filter_le (d : Dict κ α) (p : κ × α → Bool) :
    (d.filter p).entries.length ≤ d.entries.length := List.length_filter_le _ _

/-- `{**d, **e}` -/
def merge (d e : Dict κ α) : Dict κ α := e.entries.foldl (fun d p => d.set p.1 p.2) d

theorem get?_foldl_set (ps : List (κ × α)) (d : Dict κ α) (hn : (ps.map Prod.fst).Nodup) :
    (ps.foldl (fun d p => d.set p.1 p.2) d).get? k = (lookup k ps).or (d.get? k) := by
  induction ps generalizing d with
  | nil => rfl
  | cons p ps ih =>
    rw [List.map_cons, List.nodup_cons] at hn
    rw [List.foldl_cons, ih _ hn.2, get?_set, lookup]
    by_cases h : p.1 = k
    · subst h
      rw [if_pos rfl, if_pos rfl, lookup_eq_none.2 hn.1]
      rfl
    · rw [if_neg h, if_neg h]

theorem get?_merge (d e : Dict κ α) (k : κ) : (d.merge e).get? k = (e.get? k).or (d.get? k) :=
  get?_foldl_set e.entries d e.nodup

def collect (ps : List (κ × α)) : Dict κ α := ps.foldl (fun d p => d.set p.1 p.2) ∅

theorem collect_append (ps : List (κ × α)) (p : κ × α) :
    collect (ps ++ [p]) = (collect ps).set p.1 p.2 := by
  rw [collect, List.foldl_append]
  rfl

theorem mem_collect (ps : List (κ × α)) : k ∈ collect ps ↔ k ∈ ps.map Prod.fst := by
  induction ps using List.reverseRecOn with
  | nil => simp [collect]
  | append_singleton ps p ih =>
    rw [collect_append, mem_set, ih, List.map_append, List.mem_append, List.map_singleton,
      List.mem_singleton, or_comm]

theorem get?_collect {ps : List (κ × α)} (hn : (ps.map Prod.fst).Nodup) (h : (k, a) ∈ ps) :
    (collect ps).get? k = some a := by
  induction ps using List.reverseRecOn with
  | nil => cases h
  | append_singleton ps p ih =>
    rw [List.map_append, List.nodup_append] at hn
    rw [collect_append, get?_set]
    rcases List.mem_append.1 h with h | h
    · have hne : p.1 ≠ k := fun he =>
        hn.2.2 k (List.mem_map.2 ⟨_, h, rfl⟩) p.1 (List.mem_singleton.2 rfl) he.symm
      rw [if_neg hne]
      exact ih hn.1 h
    · rw [← List.mem_singleton.1 h, if_pos rfl]

theorem get?_collect_append (ps qs : List (κ × α)) (k : κ) :
    (collect (ps ++ qs)).get? k = ((collect qs).get? k).or ((collect ps).get? k) := by
  induction qs using List.reverseRecOn with
  | nil => rw [List.append_nil]; rfl
  | append_singleton qs q ih =>
    rw [← List.append_assoc, collect_append, collect_append, get?_set, get?_set]
    split
    · rfl
    · exact ih

theorem mem_of_get?_collect {ps : List (κ × α)} (h : (collect ps).get? k = some a) :
    (k, a) ∈ ps := by
  induction ps using List.reverseRecOn with
  | nil => cases h
  | append_singleton ps p ih =>
    rw [collect_append, get?_set] at h
    apply List.mem_append.2
    split at h
    next hk =>
      right
      cases h
      rw [← hk]
      exact List.mem_singleton_self p
    next hk => exact Or.inl (ih h)

def mapValues {β : Type w} (f : α → β) (d : Dict κ α) : Dict κ β :=
  ⟨d.entries.map fun e => (e.1, f e.2), by
    rw [List.map_map]
    exact d.nodup⟩

@[simp] theorem keys_mapValues {β : Type w} (f : α → β) (d : Dict κ α) :
    (d.mapValues f).keys = d.keys := by
  rw [keys, mapValues, List.map_map]
  rfl

@[simp] theorem get?_mapValues {β : Type w} (f : α → β) (d : Dict κ α) (k : κ) :
    (d.mapValues f).get? k = (d.get? k).map f := by
  obtain ⟨es, hn⟩ := d
  change lookup k (es.map fun e => (e.1, f e.2)) = (lookup k es).map f
  clear hn
  induction es with
  | nil => rfl
  | cons e es ih =>
    rw [List.map_cons, lookup, lookup, ih]
    split <;> rfl

def mapEntries {β : Type w} (f : κ → α → β) (d : Dict κ α) : Dict κ β :=
  ⟨d.entries.map fun e => (e.1, f e.1 e.2), by
    rw [List.map_map]
    exact d.nodup⟩

theorem get?_mapEntries {β : Type w} (f : κ → α → β) (d : Dict κ α) (k : κ) :
    (d.mapEntries f).get? k = (d.get? k).map (f k) := by
  obtain ⟨es, hn⟩ := d
  change lookup k (es.map fun e => (e.1, f e.1 e.2)) = (lookup k es).map (f k)
  clear hn
  induction es with
  | nil => rfl
  | cons e es ih =>
    rw [List.map_cons, lookup, lookup, ih]
    split
    next he => rw [← he]; rfl
    next => rfl

theorem keys_put_mem (es : List (κ × α)) (h : k ∈ es.map Prod.fst) :
    (put k a es).map Prod.fst = es.map Prod.fst := by
  induction es with
  | nil => cases h
  | cons e es ih =>
    obtain ⟨j, b⟩ := e
    rw [put]
    split
    · rfl
    next hj =>
      rcases List.mem_cons.1 h with he | h
      · exact absurd he.symm hj
      · rw [List.map_cons, List.map_cons, ih h]

theorem keys_set_mem {d : Dict κ α} (h : k ∈ d) : (d.set k a).keys = d.keys :=
  keys_put_mem d.entries h

theorem keys_erase (d : Dict κ α) (k : κ) : (d.erase k).keys = d.keys.erase k := by
  have hn : d.keys.Nodup := d.nodup
  rw [hn.erase_eq_filter]
  change (d.entries.filter _).map Prod.fst = (d.entries.map Prod.fst).filter _
  rw [List.filter_map]
  congr 1

theorem perm_keys_erase {d : Dict κ α} (h : k ∈ d) : d.keys.Perm (k :: (d.erase k).keys) := by
  rw [keys_erase]
  exact List.perm_cons_erase h

def setOne (key : β → κ) (val : β → Option α) (d : Dict κ α) (x : β) : Dict κ α :=
  match val x with
  | some a => d.set (key x) a
  | none => d

def setAll (key : β → κ) (val : β → Option α) (d : Dict κ α) (xs : List β) : Dict κ α :=
  xs.foldl (setOne key val) d

theorem get?_setOne_ne {key : β → κ} (val : β → Option α) (d : Dict κ α) {x : β}
    (h : key x ≠ k) : (setOne key val d x).get? k = d.get? k := by
  rw [setOne]
  split
  · exact get?_set_ne d h
  · rfl

theorem get?_setAll_of_not_mem {key : β → κ} (val : β → Option α) (d : Dict κ α) {xs : List β}
    (h : k ∉ xs.map key) : (setAll key val d xs).get? k = d.get? k := by
  induction xs generalizing d with
  | nil => rfl
  | cons x xs ih =>
    rw [List.map_cons, List.mem_cons, not_or] at h
    have hk : key x ≠ k := fun he => h.1 he.symm
    exact (ih _ h.2).trans (get?_setOne_ne val d hk)

theorem get?_setAll {key : β → κ} {val : β → Option α} (d : Dict κ α) {xs : List β}
    (hn : (xs.map key).Nodup) (hx : x ∈ xs) (ha : val x = some a) :
    (setAll key val d xs).get? (key x) = some a := by
  induction xs generalizing d with
  | nil => cases hx
  | cons y xs ih =>
    rw [List.map_cons, List.nodup_cons] at hn
    rcases List.mem_cons.1 hx with rfl | hx
    · apply (get?_setAll_of_not_mem val _ hn.1).trans
      rw [setOne, ha]
      exact get?_set_self d (key x) a
    · exact ih _ hn.2 hx

theorem put_new (es : List (κ × α)) (h : k ∉ es.map Prod.fst) : put k a es = es ++ [(k, a)] := by
  induction es with
  | nil => rfl
  | cons e es ih =>
    obtain ⟨j, b⟩ := e
    rw [List.map_cons, List.mem_cons, not_or] at h
    have hj : j ≠ k := fun he => h.1 he.symm
    rw [put, if_neg hj, ih h.2, List.cons_append]

theorem entries_collect {ps : List (κ × α)} (hn : (ps.map Prod.fst).Nodup) :
    (collect ps).entries = ps := by
  induction ps using List.reverseRecOn with
  | nil => rfl
  | append_singleton ps p ih =>
    rw [List.map_append, List.nodup_append] at hn
    have hp : p.1 ∉ ps.map Prod.fst := fun hm =>
      hn.2.2 p.1 hm p.1 (List.mem_singleton.2 rfl) rfl
    rw [collect_append]
    change put p.1 p.2 (collect ps).entries = _
    rw [ih hn.1, put_new ps hp]

theorem length_collect {ps : List (κ × α)} (hn : (ps.map Prod.fst).Nodup) :
    (collect ps).entries.length = ps.length := by
  rw [entries_collect hn]

def gather (key : β → κ) (into : Option α → β → α) (xs : List β) : Dict κ α :=
  xs.foldl (fun d x => d.set (key x) (into (d.get? (key x)) x)) ∅

section
variable {key : β → κ} {into : Option α → β → α} {xs : List β}

theorem gather_concat (x : β) : gather key into (xs ++ [x]) =
    (gather key into xs).set (key x) (into ((gather key into xs).get? (key x)) x) := by
  rw [gather, List.foldl_append]
  rfl

theorem mem_gather : k ∈ gather key into xs ↔ k ∈ xs.map key := by
  induction xs using List.reverseRecOn with
  | nil => exact ⟨fun h => absurd h List.not_mem_nil, fun h => absurd h List.not_mem_nil⟩
  | append_singleton xs x ih =>
    rw [gather_concat, mem_set, ih, List.map_append, List.mem_append, List.map_singleton,
      List.mem_singleton, or_comm]

theorem get?_gather : (gather key into xs).get? k =
    (xs.filter fun x => decide (key x = k)).foldl (fun o x => some (into o x)) none := by
  induction xs using List.reverseRecOn with
  | nil => rfl
  | append_singleton xs x ih =>
    rw [gather_concat, get?_set, List.filter_append]
    by_cases hk : key x = k
    · rw [if_pos hk, hk, ih, List.filter_singleton, decide_eq_true hk, cond_true,
        List.foldl_concat]
    · rw [if_neg hk, ih, List.filter_singleton, decide_eq_false hk]
      exact congrArg _ (List.append_nil _).symm

end

theorem entries_set_new {d : Dict κ α} (h : k ∉ d) (a : α) :
    (d.set k a).entries = d.entries ++ [(k, a)] := put_new d.entries h

theorem keys_set_new {d : Dict κ α} (h : k ∉ d) : (d.set k a).keys = d.keys ++ [k] := by
  rw [keys, entries_set_new h, List.map_append]
  rfl

theorem values_set_new {d : Dict κ α} (h : k ∉ d) (a : α) :
    (d.set k a).values = d.values ++ [a] := by
  rw [values, entries_set_new h, List.map_append]
  rfl

theorem mem_entries_set {d : Dict κ α} (h : e ∈ (d.set k a).entries) :
    e = (k, a) ∨ e ∈ d.entries := by
  obtain ⟨j, b⟩ := e
  have hget := get?_eq_some.2 h
  rw [get?_set] at hget
  split at hget
  next heq =>
    cases hget
    rw [heq]
    exact Or.inl rfl
  · exact Or.inr (get?_eq_some.1 hget)

theorem keys_erase_oldest {d : Dict κ α} (h : d.keys = oldest :: later) :
    (d.erase oldest).keys = later := by
  obtain ⟨es, hn⟩ := d
  change es.map Prod.fst = oldest :: later at h
  change (es.filter fun e => !decide (e.1 = oldest)).map Prod.fst = later
  cases es with
  | nil => cases h
  | cons e es =>
    rw [List.map_cons, List.cons.injEq] at h
    obtain ⟨rfl, rfl⟩ := h
    rw [List.map_cons, List.nodup_cons] at hn
    have hself : es.filter (fun x => !decide (x.1 = e.1)) = es := by
      apply List.filter_eq_self.2
      intro x hx
      have hne : x.1 ≠ e.1 := fun he => hn.1 (he ▸ List.mem_map_of_mem (f := Prod.fst) hx)
      simp [hne]
    rw [List.filter_cons_of_neg (by simp), hself]

theorem erase_set_new {d : Dict κ α} (h : k ∉ d) (a : α) : (d.set k a).erase k = d := by
  obtain ⟨es, hn⟩ := d
  have hp : put k a es = es ++ [(k, a)] := put_new es h
  have he : (put k a es).filter (fun e => !decide (e.1 = k)) = es := by
    rw [hp, List.filter_append, List.filter_cons_of_neg (by simp), List.filter_nil, List.append_nil]
    apply List.filter_eq_self.2
    intro e he
    have hne : e.1 ≠ k := fun hk => h (hk ▸ List.mem_map_of_mem (f := Prod.fst) he)
    simp [hne]
  simp only [erase, filter, set, he]

def restrict (p : κ → Bool) (d : Dict κ α) : Dict κ α := d.filter fun e => p e.1

theorem get?_restrict (p : κ → Bool) (d : Dict κ α) (k : κ) :
    (d.restrict p).get? k = if p k then d.get? k else none := by
  apply Option.ext
  intro a
  rw [restrict, get?_filter]
  split
  next h => simp [h]
  next h => simp [h]

theorem mem_restrict (p : κ → Bool) (d : Dict κ α) : k ∈ d.restrict p ↔ p k = true ∧ k ∈ d := by
  rw [mem_iff_get?, mem_iff_get?, get?_restrict]
  split
  next h => simp [h]
  next h => simp [h]

theorem filter_congr {d : Dict κ α} {p q : κ × α → Bool} (h : ∀ e ∈ d.entries, p e = q e) :
    d.filter p = d.filter q := by
  obtain ⟨es, hn⟩ := d
  have he : es.filter p = es.filter q := List.filter_congr h
  simp only [filter, he]

theorem filter_filter (d : Dict κ α) (p q : κ × α → Bool) :
    (d.filter p).filter q = d.filter fun e => p e && q e := by
  obtain ⟨es, hn⟩ := d
  simp only [filter, List.filter_filter, Bool.and_comm]

theorem filter_all {d : Dict κ α} {p : κ × α → Bool} (h : ∀ e ∈ d.entries, p e = true) :
    d.filter p = d := by
  obtain ⟨es, hn⟩ := d
  have he : es.filter p = es := List.filter_eq_self.2 h
  simp only [filter, he]

theorem restrict_filter (p : κ → Bool) (d : Dict κ α) (q : κ × α → Bool) :
    (d.filter q).restrict p = (d.restrict p).filter q := by
  rw [restrict, restrict, filter_filter, filter_filter]
  apply filter_congr
  intro e _
  exact Bool.and_comm _ _

theorem restrict_filter_of {p : κ → Bool} {d : Dict κ α} {q : κ × α → Bool}
    (h : ∀ e ∈ d.entries, p e.1 = true → q e = true) : (d.filter q).restrict p = d.restrict p := by
  rw [restrict_filter]
  apply filter_all
  intro e he
  obtain ⟨he, hp⟩ := (mem_entries_filter _ _).1 he
  exact h e he hp

theorem restrict_restrict {p q : κ → Bool} (h : ∀ k, q k = true → p k = true) (d : Dict κ α) :
    (d.restrict p).restrict q = d.restrict q := by
  rw [restrict, restrict, restrict, filter_filter]
  apply filter_congr
  intro e _
  cases hq : q e.1 with
  | false => exact Bool.and_false _
  | true => rw [h e.1 hq, Bool.and_true]

theorem keys_restrict (p : κ → Bool) (d : Dict κ α) : (d.restrict p).keys = d.keys.filter p := by
  obtain ⟨es, hn⟩ := d
  change (es.filter fun e => p e.1).map Prod.fst = (es.map Prod.fst).filter p
  rw [List.filter_map]
  rfl

theorem restrict_erase (p : κ → Bool) (d : Dict κ α) (k : κ) :
    (d.erase k).restrict p = (d.restrict p).erase k := restrict_filter p d _

theorem filter_put {p : κ → Bool} (es : List (κ × α)) (k : κ) (a : α) :
    (put k a es).filter (fun e => p e.1) =
      if p k then put k a (es.filter fun e => p e.1) else es.filter fun e => p e.1 := by
  induction es with
  | nil =>
    rw [put, List.filter_cons]
    rfl
  | cons e es ih =>
    obtain ⟨j, b⟩ := e
    rw [put]
    by_cases hj : j = k
    · subst hj
      rw [if_pos rfl, List.filter_cons, List.filter_cons]
      by_cases hp : p j = true
      · simp only [hp, if_true, put]
      · simp only [hp, Bool.false_eq_true, if_false]
    · rw [if_neg hj, List.filter_cons, List.filter_cons, ih]
      by_cases hp : p j = true
      · simp only [hp, if_true]
        split
        · rw [put, if_neg hj]
        · rfl
      · simp only [hp, Bool.false_eq_true, if_false]

theorem restrict_set_pos {p : κ → Bool} (h : p k = true) (d : Dict κ α) (a : α) :
    (d.set k a).restrict p = (d.restrict p).set k a := by
  obtain ⟨es, hn⟩ := d
  have he := filter_put (p := p) es k a
  rw [if_pos h] at he
  simp only [restrict, filter, set, he]

theorem restrict_set_neg {p : κ → Bool} (h : p k = false) (d : Dict κ α) (a : α) :
    (d.set k a).restrict p = d.restrict p := by
  obtain ⟨es, hn⟩ := d
  have he := filter_put (p := p) es k a
  rw [h, if_neg Bool.false_ne_true] at he
  simp only [restrict, filter, set, he]

theorem length_eq_of_mem_iff {β : Type w} {d : Dict κ α} {e : Dict κ β}
    (h : ∀ k, k ∈ d ↔ k ∈ e) : d.entries.length = e.entries.length := by
  have hperm : d.keys.Perm e.keys := (List.perm_ext_iff_of_nodup d.nodup e.nodup).2 h
  have hlen := hperm.length_eq
  rwa [keys, keys, List.length_map, List.length_map] at hlen

theorem length_pos_iff {d : Dict κ α} : 0 < d.entries.length ↔ ∃ k, k ∈ d := by
  rw [List.length_pos_iff_exists_mem]
  constructor
  · rintro ⟨e, he⟩
    exact ⟨e.1, List.mem_map_of_mem he⟩
  · rintro ⟨k, hk⟩
    obtain ⟨e, he, -⟩ := List.mem_map.1 hk
    exact ⟨e, he⟩

theorem map_filter_entries (d : Dict κ α) (p : κ × α → Bool) :
    (d.entries.filter p).map Prod.fst = d.keys.filter fun k => (d.get? k).any fun a => p (k, a) := by
  rw [keys, List.filter_map]
  congr 1
  apply List.filter_congr
  intro e he
  have hget : d.get? e.1 = some e.2 := get?_eq_some.2 he
  rw [Function.comp, hget]
  rfl

omit [DecidableEq κ] in
theorem nodup_entries (d : Dict κ α) : d.entries.Nodup := List.Nodup.of_map Prod.fst d.nodup

theorem mem_cons_erase {d : Dict κ α} {e : κ × α} :
    e ∈ (k, a) :: (d.erase k).entries ↔ (if k = e.1 then some a else d.get? e.1) = some e.2 := by
  obtain ⟨j, b⟩ := e
  rw [List.mem_cons, ← get?_eq_some, get?_erase, Prod.mk.injEq]
  by_cases h : k = j
  · rw [if_pos h, if_pos h]
    simp [h, eq_comm]
  · rw [if_neg h, if_neg h]
    simp [Ne.symm h]

theorem nodup_cons_erase (d : Dict κ α) (k : κ) (a : α) :
    ((k, a) :: (d.erase k).entries).Nodup := by
  rw [List.nodup_cons]
  refine ⟨?_, nodup_entries _⟩
  intro h
  have hget := get?_eq_some.2 h
  rw [get?_erase, if_pos rfl] at hget
  cases hget

theorem perm_entries_set (d : Dict κ α) (k : κ) (a : α) :
    (d.set k a).entries.Perm ((k, a) :: (d.erase k).entries) := by
  rw [List.perm_ext_iff_of_nodup (nodup_entries _) (nodup_cons_erase d k a)]
  intro e
  rw [mem_cons_erase, ← get?_set]
  exact get?_eq_some.symm

theorem perm_entries_erase {d : Dict κ α} (h : d.get? k = some a) :
    d.entries.Perm ((k, a) :: (d.erase k).entries) := by
  rw [List.perm_ext_iff_of_nodup (nodup_entries _) (nodup_cons_erase d k a)]
  intro e
  rw [mem_cons_erase]
  by_cases hk : k = e.1
  · rw [if_pos hk, ← h, hk]
    exact get?_eq_some.symm
  · rw [if_neg hk]
    exact get?_eq_some.symm

end Dict

/-! A dictionary whose order tells which entry was used last. -/

namespace Dict

variable {κ : Type u} {α : Type v} [DecidableEq κ]

def push (d : Dict κ α) (k : κ) (a : α) : Dict κ α := (d.erase k).set k a

/-- `move_to_end` -/
def touch (d : Dict κ α) (k : κ) : Dict κ α :=
  match d.get? k with
  | none => d
  | some a => d.push k a

/-- `popitem(last=False)` while there are more than `n` entries. -/
def trim (d : Dict κ α) (n : Nat) : Dict κ α where
  entries := d.entries.rtake n
  nodup := d.nodup.sublist ((List.drop_sublist _ _).map Prod.fst)

theorem get?_push (d : Dict κ α) :
    (d.push k a).get? j = if k = j then some a else d.get? j := by
  rw [push, get?_set, get?_erase]
  split <;> rfl

theorem get?_touch (d : Dict κ α) (k : κ) : (d.touch k).get? j = d.get? j := by
  rw [touch]
  split
  · rfl
  · next a ha =>
    rw [get?_push]
    split
    · next hk => rw [← hk, ha]
    · rfl

theorem get?_of_trim {d : Dict κ α} (h : (d.trim n).get? k = some a) : d.get? k = some a := by
  rw [get?_eq_some] at h ⊢
  exact List.mem_of_mem_drop h

theorem trim_of_le {d : Dict κ α} (h : d.entries.length ≤ n) : d.trim n = d := by
  obtain ⟨entries, nodup⟩ := d
  simp only [trim, mk.injEq]
  rw [List.rtake, Nat.sub_eq_zero_of_le h, List.drop_zero]

theorem entries_push (d : Dict κ α) (k : κ) (a : α) :
    (d.push k a).entries = (d.erase k).entries ++ [(k, a)] := by
  apply put_new
  intro hk
  exact ((mem_erase d).1 hk).1 rfl

theorem get?_trim_push (d : Dict κ α) (hn : 0 < n) : ((d.push k a).trim n).get? k = some a := by
  rw [get?_eq_some]
  simp only [trim, List.rtake, entries_push, List.length_append, List.length_singleton]
  rw [List.drop_append_of_le_length (by omega)]
  exact List.mem_append_right _ List.mem_cons_self

end Dict

end Prismal.Lib
