import Mathlib.Data.String.Basic
import Prismal.Lib.Roots
import Prismal.Memory.Consolidation

namespace Prismal.Memory
open Prismal.Lib Prismal.Lib.Roots
set_option autoImplicit true

/-! The union-find of the clustering, for any links: every `find` ends, at the root. -/

namespace Forest

variable {f f' : Forest} {d : Finset String} {fuel : Nat}

theorem parent_set (f : Forest) (x u : String) :
    Forest.parent (Dict.set f x u) = Function.update f.parent x u := by
  funext y
  rw [Forest.parent, Dict.get?_set, Function.update_apply]
  by_cases h : x = y
  · rw [if_pos h, if_pos h.symm]
    rfl
  · rw [if_neg h, if_neg (Ne.symm h)]
    rfl

def Closed (d : Finset String) (f : Forest) : Prop := ∀ x ∈ d, f.parent x ∈ d

theorem Closed.set (h : Closed d f) (hu : u ∈ d) (x : String) : Closed d (Dict.set f x u) := by
  intro y hy
  rw [parent_set, Function.update_apply]
  split
  · exact hu
  · exact h y hy

def SameRoots (f f' : Forest) : Prop := ∀ x r, Root f.parent x r → Root f'.parent x r

/-- `find` with at most `fuel` rounds of its loop; `none` when they are not enough. -/
def findWithin : Nat → Forest → String → Option (Forest × String)
  | 0, f, x => if f.parent x = x then some (f, x) else none
  | fuel + 1, f, x =>
    if f.parent x = x then some (f, x)
    else
      let up := f.parent (f.parent x)
      findWithin fuel (f.set x up) up

def unionWithin (fuel : Nat) (f : Forest) (a b : String) : Option Forest := do
  let toB ← f.findWithin fuel b
  let toA ← Forest.findWithin fuel toB.1 a
  return toA.1.set toA.2 toB.2

theorem find_of_findWithin (h : f.findWithin fuel x = some p) : f.find fuel x = p := by
  induction fuel generalizing f x with
  | zero =>
    rw [findWithin] at h
    split at h
    · exact Option.some.inj h
    · cases h
  | succ fuel ih =>
    rw [findWithin] at h
    rw [find]
    split at h
    next hroot =>
      rw [if_pos hroot]
      exact Option.some.inj h
    next hroot =>
      rw [if_neg hroot]
      exact ih h

theorem union_of_unionWithin (h : f.unionWithin fuel a b = some f') : f.union fuel a b = f' := by
  rw [unionWithin] at h
  obtain ⟨toB, hb, h⟩ := Option.bind_eq_some_iff.1 h
  obtain ⟨toA, ha, h⟩ := Option.bind_eq_some_iff.1 h
  rw [union, find_of_findWithin hb, find_of_findWithin ha]
  exact Option.some.inj h

theorem findWithin_spec (hc : Closed d f) (hx : x ∈ d) (h : Up f.parent r n x) (hn : n ≤ fuel) :
    ∃ f', f.findWithin fuel x = some (f', r) ∧ SameRoots f f' ∧ Closed d f' := by
  induction fuel generalizing f x n with
  | zero =>
    obtain rfl := Nat.le_zero.1 hn
    cases h with
    | here hr => exact ⟨f, if_pos hr, fun _ _ h => h, hc⟩
  | succ fuel ih =>
    rw [findWithin]
    by_cases hroot : f.parent x = x
    · rw [if_pos hroot]
      cases h with
      | here => exact ⟨f, rfl, fun _ _ h => h, hc⟩
      | step hne => exact absurd hroot hne
    · rw [if_neg hroot]
      cases h with
      | here hr => exact absurd hr hroot
      | @step _ n _ h =>
        have hup : ∃ k ≤ n, Up f.parent r k (f.parent (f.parent x)) := by
          cases hp : h with
          | here hr =>
            rw [hr]
            exact ⟨0, Nat.le_refl 0, .here hr⟩
          | step _ h' => exact ⟨_, Nat.le_succ _, h'⟩
        obtain ⟨k, hk, hup⟩ := hup
        have hshort : ∀ {s m y}, Up f.parent s m y →
            ∃ m' ≤ m, Up (Forest.parent (Dict.set f x (f.parent (f.parent x)))) s m' y := by
          intro s m y hy
          rw [parent_set]
          exact Up.shortcut (.step hroot h) hup hk hy
        have hin : f.parent (f.parent x) ∈ d := hc _ (hc x hx)
        obtain ⟨k', hk', hup'⟩ := hshort hup
        obtain ⟨f', hfound, hsame, hclosed⟩ := ih (hc.set hin x) hin hup' (by omega)
        refine ⟨f', hfound, fun y s hy => hsame y s ?_, hclosed⟩
        obtain ⟨m, hy⟩ := hy
        obtain ⟨m', -, hy'⟩ := hshort hy
        exact ⟨m', hy'⟩

/-- A forest over `d` whose trees hold only elements that `L` connects. -/
structure Partition (d : Finset String) (L : String → String → Prop) (f : Forest) : Prop where
  closed : Closed d f
  grounded : ∀ x ∈ d, ∃ r, Root f.parent x r
  sound : ∀ x ∈ d, ∀ r, Root f.parent x r → Relation.EqvGen L x r

variable {L : String → String → Prop}

theorem Partition.of_sameRoots (h : Partition d L f) (hs : SameRoots f f') (hc : Closed d f') :
    Partition d L f' where
  closed := hc
  grounded x hx := by
    obtain ⟨r, hr⟩ := h.grounded x hx
    exact ⟨r, hs x r hr⟩
  sound x hx r hr := by
    obtain ⟨s, hroot⟩ := h.grounded x hx
    rw [hr.unique (hs x s hroot)]
    exact h.sound x hx s hroot

theorem Partition.find (h : Partition d L f) (hx : x ∈ d) (hf : d.card ≤ fuel) :
    ∃ f' r, f.findWithin fuel x = some (f', r) ∧ Root f.parent x r ∧ SameRoots f f' ∧
      Partition d L f' := by
  obtain ⟨r, n, hup⟩ := h.grounded x hx
  have hdepth := hup.depth_lt h.closed hx
  have hfuel : n ≤ fuel := Nat.le_of_lt (Nat.lt_of_lt_of_le hdepth hf)
  obtain ⟨f', hfound, hsame, hclosed⟩ := findWithin_spec h.closed hx hup hfuel
  exact ⟨f', r, hfound, ⟨n, hup⟩, hsame, h.of_sameRoots hsame hclosed⟩

def Grows (f f' : Forest) : Prop := ∀ x y, SameTree f.parent x y → SameTree f'.parent x y

theorem SameRoots.grows (h : SameRoots f f') : Grows f f' := by
  rintro x y ⟨r, hx, hy⟩
  exact ⟨r, h x r hx, h y r hy⟩

theorem Closed.root (hc : Closed d f) (hx : x ∈ d) (h : Root f.parent x r) : r ∈ d := by
  obtain ⟨n, h⟩ := h
  induction h with
  | here => exact hx
  | step _ _ ih => exact ih (hc _ hx)

theorem Partition.link (h : Partition d L f) (ha : a ∈ d) (hb : b ∈ d)
    (hra : Root f.parent a ra) (hrb : Root f.parent b rb) (hl : Relation.EqvGen L a b) :
    Partition d L (Dict.set f ra rb) ∧ Grows f (Dict.set f ra rb) ∧
      SameTree (Forest.parent (Dict.set f ra rb)) a b := by
  have hlink : ∀ x r, Root f.parent x r →
      Root (Forest.parent (Dict.set f ra rb)) x (if r = ra then rb else r) := by
    intro x r hx
    rw [parent_set]
    obtain ⟨_, hupa⟩ := hra
    obtain ⟨_, hupb⟩ := hrb
    exact hx.link hupa.root hupb.root
  refine ⟨⟨h.closed.set (h.closed.root hb hrb) ra, ?_, ?_⟩, ?_, rb, ?_, ?_⟩
  · intro x hx
    obtain ⟨r, hr⟩ := h.grounded x hx
    exact ⟨_, hlink x r hr⟩
  · intro x hx s hs
    obtain ⟨r, hr⟩ := h.grounded x hx
    have hxr := h.sound x hx r hr
    rw [hs.unique (hlink x r hr)]
    split
    next he =>
      subst he
      have har := (h.sound a ha r hra).symm
      exact hxr.trans _ _ _ (har.trans _ _ _ (hl.trans _ _ _ (h.sound b hb rb hrb)))
    next => exact hxr
  · rintro x y ⟨r, hx, hy⟩
    exact ⟨_, hlink x r hx, hlink y r hy⟩
  · have hnew := hlink a ra hra
    rwa [if_pos rfl] at hnew
  · have hnew := hlink b rb hrb
    rwa [ite_self] at hnew

theorem Partition.union (h : Partition d L f) (ha : a ∈ d) (hb : b ∈ d) (hf : d.card ≤ fuel)
    (hl : Relation.EqvGen L a b) :
    ∃ f', f.unionWithin fuel a b = some f' ∧ Partition d L f' ∧ Grows f f' ∧
      SameTree f'.parent a b := by
  obtain ⟨fb, rb, hfoundb, hrb, hsameb, hpb⟩ := h.find hb hf
  obtain ⟨fa, ra, hfounda, hra, hsamea, hpa⟩ := hpb.find ha hf
  obtain ⟨hpart, hgrow, hjoin⟩ :=
    hpa.link ha hb (hsamea _ _ hra) (hsamea _ _ (hsameb _ _ hrb)) hl
  refine ⟨_, ?_, hpart, fun x y hxy => ?_, hjoin⟩
  · rw [unionWithin, hfoundb]
    change (Forest.findWithin fuel fb a >>= _) = _
    rw [hfounda]
    rfl
  · exact hgrow x y (hsamea.grows x y (hsameb.grows x y hxy))

end Forest

section Scan

variable {link : MemoryRecord → MemoryRecord → Bool} {d : Finset String} {fuel : Nat}
  {es : List MemoryRecord}

def linkStep (link : MemoryRecord → MemoryRecord → Bool) (fuel : Nat) (a : MemoryRecord)
    (f : Forest) (b : MemoryRecord) : Option Forest :=
  if decide (a.scope = b.scope) && link a b then f.unionWithin fuel a.id b.id else some f

def linkScan (link : MemoryRecord → MemoryRecord → Bool) (fuel : Nat) :
    List MemoryRecord → Forest → Option Forest
  | [], f => some f
  | a :: rest, f => do
    let f' ← rest.foldlM (linkStep link fuel a) f
    linkScan link fuel rest f'

def groupStep (fuel : Nat) (acc : Forest × Dict String (List MemoryRecord)) (r : MemoryRecord) :
    Option (Forest × Dict String (List MemoryRecord)) := do
  let found ← acc.1.findWithin fuel r.id
  return (found.1, acc.2.set found.2 ((acc.2.get? found.2).getD [] ++ [r]))

/-- The groups of the records; every `find` has `fuel` rounds. -/
def groupsWithin (link : MemoryRecord → MemoryRecord → Bool) (fuel : Nat)
    (es : List MemoryRecord) : Option (Dict String (List MemoryRecord)) := do
  let forest ← linkScan link fuel es (Dict.collect (es.map fun r => (r.id, r.id)))
  let grouped ← es.foldlM (groupStep fuel) (forest, ∅)
  return grouped.2

def clustersWithin (link : MemoryRecord → MemoryRecord → Bool) (fuel : Nat)
    (es : List MemoryRecord) : Option (List (List MemoryRecord)) := do
  let groups ← groupsWithin link fuel es
  return (groups.values.filter fun g => decide (minCluster ≤ g.length)).map fun g =>
    g.insertionSort Records.Earlier

open Forest in
theorem linkStep_spec {f : Forest} {L : String → String → Prop} (h : Partition d L f)
    (ha : a.id ∈ d) (hb : b.id ∈ d) (hf : d.card ≤ fuel)
    (hl : a.scope = b.scope → link a b = true → L a.id b.id) :
    ∃ f', linkStep link fuel a f b = some f' ∧ Partition d L f' ∧ Grows f f' ∧
      (a.scope = b.scope → link a b = true → SameTree f'.parent a.id b.id) := by
  rw [linkStep]
  split
  next hc =>
    rw [Bool.and_eq_true, decide_eq_true_eq] at hc
    obtain ⟨f', hunion, hpart, hgrow, hjoin⟩ := h.union ha hb hf (.rel _ _ (hl hc.1 hc.2))
    exact ⟨f', hunion, hpart, hgrow, fun _ _ => hjoin⟩
  next hc =>
    refine ⟨f, rfl, h, fun _ _ hxy => hxy, fun hs hl => ?_⟩
    rw [Bool.and_eq_true, decide_eq_true_eq] at hc
    exact absurd ⟨hs, hl⟩ hc

open Forest in
theorem foldlM_linkStep {f : Forest} {L : String → String → Prop} (h : Partition d L f)
    (ha : a.id ∈ d) (hf : d.card ≤ fuel) (bs : List MemoryRecord) (hb : ∀ b ∈ bs, b.id ∈ d)
    (hl : ∀ b ∈ bs, a.scope = b.scope → link a b = true → L a.id b.id) :
    ∃ f', bs.foldlM (linkStep link fuel a) f = some f' ∧ Partition d L f' ∧ Grows f f' ∧
      ∀ b ∈ bs, a.scope = b.scope → link a b = true → SameTree f'.parent a.id b.id := by
  induction bs generalizing f with
  | nil => exact ⟨f, rfl, h, fun _ _ hxy => hxy, fun b hb => by cases hb⟩
  | cons b bs ih =>
    obtain ⟨f₁, hstep, hpart, hgrow, hjoin⟩ :=
      linkStep_spec h ha (hb b List.mem_cons_self) hf (hl b List.mem_cons_self)
    obtain ⟨f₂, hrun, hpart', hgrow', hjoin'⟩ := ih hpart
      (fun c hc => hb c (List.mem_cons_of_mem _ hc)) (fun c hc => hl c (List.mem_cons_of_mem _ hc))
    refine ⟨f₂, ?_, hpart', fun x y hxy => hgrow' x y (hgrow x y hxy), fun c hc hs hlink => ?_⟩
    · rw [List.foldlM_cons, hstep]
      exact hrun
    · rcases List.mem_cons.1 hc with rfl | hc
      · exact hgrow' _ _ (hjoin hs hlink)
      · exact hjoin' c hc hs hlink

open Forest in
theorem linkScan_spec {f : Forest} {L : String → String → Prop} (h : Partition d L f)
    (hf : d.card ≤ fuel) (rs : List MemoryRecord) (hd : ∀ r ∈ rs, r.id ∈ d)
    (hl : rs.Pairwise fun a b => a.scope = b.scope → link a b = true → L a.id b.id) :
    ∃ f', linkScan link fuel rs f = some f' ∧ Partition d L f' ∧ Grows f f' ∧
      rs.Pairwise fun a b => a.scope = b.scope → link a b = true →
        SameTree f'.parent a.id b.id := by
  induction rs generalizing f with
  | nil => exact ⟨f, rfl, h, fun _ _ hxy => hxy, List.Pairwise.nil⟩
  | cons a rs ih =>
    rw [List.pairwise_cons] at hl
    obtain ⟨f₁, hstep, hpart, hgrow, hjoin⟩ := foldlM_linkStep h (hd a List.mem_cons_self) hf rs
      (fun b hb => hd b (List.mem_cons_of_mem _ hb)) hl.1
    obtain ⟨f₂, hrun, hpart', hgrow', hjoin'⟩ :=
      ih hpart (fun b hb => hd b (List.mem_cons_of_mem _ hb)) hl.2
    refine ⟨f₂, ?_, hpart', fun x y hxy => hgrow' x y (hgrow x y hxy),
      List.pairwise_cons.2 ⟨fun b hb hs hlink => ?_, hjoin'⟩⟩
    · rw [linkScan, hstep]
      exact hrun
    · exact hgrow' _ _ (hjoin b hb hs hlink)

open Forest in
theorem partition_start (es : List MemoryRecord) (L : String → String → Prop) :
    Partition (es.map MemoryRecord.id).toFinset L
      (Dict.collect (es.map fun r => (r.id, r.id))) := by
  have hself : ∀ x, Forest.parent (Dict.collect (es.map fun r => (r.id, r.id))) x = x := by
    intro x
    rw [Forest.parent]
    cases hget : Dict.get? (Dict.collect (es.map fun r => (r.id, r.id))) x with
    | none => rfl
    | some y =>
      obtain ⟨r, -, he⟩ := List.mem_map.1 (Dict.mem_of_get?_collect hget)
      cases he
      rfl
  refine ⟨fun x hx => by rwa [hself], fun x _ => ⟨x, .self (hself x)⟩, fun x _ r hr => ?_⟩
  rw [hr.unique (.self (hself x))]
  exact .refl x

/-- The groups hold the records of `rs` under the roots of `f`, in order. -/
def Grouped (f : Forest) (rs : List MemoryRecord) (g : Dict String (List MemoryRecord)) : Prop :=
  ∀ k, ((g.get? k).getD []).Sublist rs ∧
    ∀ r, r ∈ (g.get? k).getD [] ↔ r ∈ rs ∧ Root f.parent r.id k

open Forest in
theorem groupStep_spec {f f' : Forest} {L : String → String → Prop} (h : Partition d L f')
    (hf : d.card ≤ fuel) (hs : SameRoots f f') (hg : ∀ x ∈ d, ∃ r, Root f.parent x r)
    (hr : r.id ∈ d) (hgroups : Grouped f rs g) :
    ∃ acc, groupStep fuel (f', g) r = some acc ∧ Partition d L acc.1 ∧ SameRoots f acc.1 ∧
      Grouped f (rs ++ [r]) acc.2 := by
  obtain ⟨found, t, hfound, hroot', hsame, hpart⟩ := h.find hr hf
  obtain ⟨s, hroot⟩ := hg r.id hr
  obtain rfl : s = t := (hs r.id s hroot).unique hroot'
  refine ⟨(found, g.set s ((g.get? s).getD [] ++ [r])), ?_, hpart,
    fun x t hx => hsame x t (hs x t hx), fun k => ?_⟩
  · rw [groupStep, hfound]
    rfl
  · obtain ⟨hsub, hmem⟩ := hgroups k
    rw [Dict.get?_set]
    by_cases hk : s = k
    · rw [if_pos hk, Option.getD_some, hk]
      refine ⟨hsub.append (List.Sublist.refl _), fun q => ?_⟩
      rw [List.mem_append, hmem, List.mem_append, List.mem_singleton]
      apply Iff.intro
      · rintro (⟨hq, hroot⟩ | rfl)
        · exact ⟨Or.inl hq, hroot⟩
        · exact ⟨Or.inr rfl, hk ▸ hroot⟩
      · rintro ⟨hq | rfl, hroot⟩
        · exact Or.inl ⟨hq, hroot⟩
        · exact Or.inr rfl
    · rw [if_neg hk]
      refine ⟨hsub.trans (List.sublist_append_left _ _), fun q => ?_⟩
      rw [hmem, List.mem_append, List.mem_singleton]
      apply Iff.intro
      · rintro ⟨hq, hroot⟩
        exact ⟨Or.inl hq, hroot⟩
      · rintro ⟨hq | rfl, hq'⟩
        · exact ⟨hq, hq'⟩
        · exact absurd (hroot.unique hq') hk

open Forest in
theorem foldlM_groupStep {f f' : Forest} {L : String → String → Prop} (h : Partition d L f')
    (hf : d.card ≤ fuel) (hs : SameRoots f f') (hg : ∀ x ∈ d, ∃ r, Root f.parent x r)
    (qs : List MemoryRecord) (hq : ∀ q ∈ qs, q.id ∈ d) (hgroups : Grouped f rs g) :
    ∃ acc, qs.foldlM (groupStep fuel) (f', g) = some acc ∧ Grouped f (rs ++ qs) acc.2 := by
  induction qs generalizing f' g rs with
  | nil =>
    rw [List.append_nil]
    exact ⟨(f', g), rfl, hgroups⟩
  | cons q qs ih =>
    obtain ⟨⟨f₁, g₁⟩, hstep, hpart, hsame, hgroups'⟩ :=
      groupStep_spec h hf hs hg (hq q List.mem_cons_self) hgroups
    obtain ⟨acc, hrun, hacc⟩ :=
      ih hpart hsame (fun r hr => hq r (List.mem_cons_of_mem _ hr)) hgroups'
    rw [List.append_assoc] at hacc
    refine ⟨acc, ?_, hacc⟩
    rw [List.foldlM_cons, hstep]
    exact hrun

def Joined (link : MemoryRecord → MemoryRecord → Bool) (es : List MemoryRecord) (x y : String) :
    Prop :=
  ∃ a ∈ es, ∃ b ∈ es, a.id = x ∧ b.id = y ∧ a.id < b.id ∧ a.scope = b.scope ∧ link a b = true

theorem joined_of_eqvGen {f : Forest} (hn : (es.map MemoryRecord.id).Pairwise (· < ·))
    (hjoin : es.Pairwise fun a b => a.scope = b.scope → link a b = true →
      SameTree f.parent a.id b.id) (h : Relation.EqvGen (Joined link es) x y) :
    x = y ∨ SameTree f.parent x y := by
  induction h with
  | rel x y h =>
    obtain ⟨a, ha, b, hb, rfl, rfl, hlt, hs, hl⟩ := h
    exact Or.inr (rel_of_lt hn hjoin ha hb hlt hs hl)
  | refl x => exact Or.inl rfl
  | symm x y _ ih => exact ih.imp Eq.symm SameTree.symm
  | trans x y z _ _ ihxy ihyz =>
    rcases ihxy with rfl | hxy
    · exact ihyz
    · rcases ihyz with rfl | hyz
      · exact Or.inr hxy
      · exact Or.inr (hxy.trans hyz)

open Forest in
theorem groupsWithin_spec (link : MemoryRecord → MemoryRecord → Bool)
    (hn : (es.map MemoryRecord.id).Pairwise (· < ·)) (hfuel : es.length ≤ fuel) :
    ∃ g f, groupsWithin link fuel es = some g ∧ Grouped f es g ∧
      (∀ a ∈ es, ∃ r, Root f.parent a.id r) ∧
      ∀ a ∈ es, ∀ b ∈ es,
        SameTree f.parent a.id b.id ↔ Relation.EqvGen (Joined link es) a.id b.id := by
  have hmem : ∀ r ∈ es, r.id ∈ (es.map MemoryRecord.id).toFinset :=
    fun r hr => List.mem_toFinset.2 (List.mem_map_of_mem hr)
  have hcard : (es.map MemoryRecord.id).toFinset.card ≤ fuel := by
    have hle := List.toFinset_card_le (es.map MemoryRecord.id)
    rw [List.length_map] at hle
    exact hle.trans hfuel
  have hpairs : es.Pairwise fun a b => a.scope = b.scope → link a b = true →
      Joined link es a.id b.id := by
    apply (List.pairwise_map.1 hn).imp_of_mem
    intro a b ha hb hlt hs hl
    exact ⟨a, ha, b, hb, rfl, rfl, hlt, hs, hl⟩
  obtain ⟨f, hscan, hpart, -, hjoin⟩ :=
    linkScan_spec (partition_start es (Joined link es)) hcard es hmem hpairs
  have hempty : Grouped f [] ∅ := by
    intro k
    refine ⟨List.Sublist.refl _, fun r => ⟨fun h => ?_, fun h => ?_⟩⟩
    · cases h
    · cases h.1
  obtain ⟨acc, hrun, hacc⟩ :=
    foldlM_groupStep hpart hcard (fun _ _ h => h) hpart.grounded es hmem hempty
  refine ⟨acc.2, f, ?_, hacc, fun a ha => hpart.grounded _ (hmem a ha),
    fun a ha b hb => ⟨?_, ?_⟩⟩
  · rw [groupsWithin, hscan]
    change (es.foldlM (groupStep fuel) (f, ∅) >>= _) = _
    rw [hrun]
    rfl
  · rintro ⟨r, har, hbr⟩
    exact (hpart.sound _ (hmem a ha) r har).trans _ _ _ (hpart.sound _ (hmem b hb) r hbr).symm
  · intro h
    rcases joined_of_eqvGen hn hjoin h with he | hj
    · obtain ⟨r, hr⟩ := hpart.grounded _ (hmem a ha)
      rw [← he]
      exact .refl hr
    · exact hj

end Scan

end Prismal.Memory
