import Prismal.Agents.ArtifactStores

namespace Prismal.Agents
open Prismal.Lib
set_option autoImplicit true

/-! What a sequence of calls on a store reads back. -/

def ArtifactEvent.Removes (r : ArtifactRecord) : ArtifactEvent → Prop
  | .stored _ => False
  | .evicted id _ => id = r.ref.id
  | .purged now => r.expired now = true

def Standing (trace : List ArtifactEvent) (r : ArtifactRecord) : Prop :=
  ∃ before after, trace = before ++ .stored r :: after ∧ ∀ e ∈ after, ¬ e.Removes r

structure Readable (trace : List ArtifactEvent) (g : ArtifactGet) (r : ArtifactRecord) : Prop where
  standing : Standing trace r
  id : r.ref.id = g.id
  tenant : r.ref.tenant = g.tenant
  run : r.ref.runId = g.runId
  fresh : r.expired g.now = false

variable {σ : Type} {A : ArtifactAdapter σ} {Good : σ → Prop} {s : ArtifactStore σ}
  {trace : List ArtifactEvent} {e : ArtifactEvent} {r q : ArtifactRecord} {p p' : ArtifactPut}
  {id : String} {now : Rat} {g : ArtifactGet} {ops : List ArtifactOp}

theorem Standing.stored (h : Standing trace r) : .stored r ∈ trace := by
  obtain ⟨before, after, rfl, -⟩ := h
  exact List.mem_append_right _ List.mem_cons_self

theorem standing_append (trace : List ArtifactEvent) (e : ArtifactEvent) (r : ArtifactRecord) :
    Standing (trace ++ [e]) r ↔ (Standing trace r ∧ ¬ e.Removes r) ∨ e = .stored r := by
  constructor
  · rintro ⟨before, after, heq, hafter⟩
    cases after using List.reverseRecOn with
    | nil =>
      obtain ⟨-, hlast⟩ := List.append_inj' heq rfl
      exact Or.inr (List.cons.inj hlast).1
    | append_singleton after e' =>
      rw [← List.cons_append, ← List.append_assoc] at heq
      obtain ⟨hinit, hlast⟩ := List.append_inj' heq rfl
      cases hlast
      left
      refine ⟨⟨before, after, hinit, fun e' he' => ?_⟩, ?_⟩
      · exact hafter e' (List.mem_append_left _ he')
      · exact hafter _ (List.mem_append_right _ (List.mem_singleton_self _))
  · rintro (⟨⟨before, after, rfl, hafter⟩, he⟩ | rfl)
    · refine ⟨before, after ++ [e], by rw [List.append_assoc, List.cons_append], ?_⟩
      intro e' he'
      rcases List.mem_append.1 he' with he' | he'
      · exact hafter e' he'
      · rw [List.mem_singleton.1 he']
        exact he
    · exact ⟨trace, [], rfl, fun e he => absurd he List.not_mem_nil⟩

theorem standing_stored : Standing (trace ++ [.stored q]) r ↔ Standing trace r ∨ q = r := by
  rw [standing_append]
  constructor
  · rintro (⟨h, -⟩ | h)
    · exact Or.inl h
    · cases h
      exact Or.inr rfl
  · rintro (h | rfl)
    · exact Or.inl ⟨h, fun hr => hr⟩
    · exact Or.inr rfl

theorem standing_purged :
    Standing (trace ++ [.purged now]) r ↔ Standing trace r ∧ r.expired now = false := by
  rw [standing_append, ← Bool.not_eq_true]
  constructor
  · rintro (h | h)
    · exact h
    · cases h
  · exact Or.inl

theorem standing_evicted (trace : List ArtifactEvent) (ids : List String) (tenant : String) :
    Standing (trace ++ ids.map (.evicted · tenant)) r ↔ Standing trace r ∧ r.ref.id ∉ ids := by
  induction ids using List.reverseRecOn with
  | nil => simp
  | append_singleton ids id ih =>
    rw [List.map_append, ← List.append_assoc, List.map_singleton, standing_append, ih,
      List.mem_append, List.mem_singleton, not_or]
    constructor
    · rintro (⟨⟨h, hids⟩, hid⟩ | h)
      · exact ⟨h, hids, fun heq => hid heq.symm⟩
      · cases h
    · rintro ⟨h, hids, hid⟩
      exact Or.inl ⟨⟨h, hids⟩, fun heq => hid heq.symm⟩

/-! Adapters. -/

/-- An adapter stores new records, and loses what it evicts and what has expired. -/
structure ArtifactAdapter.Lawful (A : ArtifactAdapter σ) (Good : σ → Prop) : Prop where
  keyed : ∀ b id r, Good b → A.load b id = some r → r.ref.id = id
  save : ∀ b r, Good b → A.load b r.ref.id = none → ∃ b' evicted, A.save b r = .ok (b', evicted) ∧
    Good b' ∧ ∀ id q, A.load b' id = some q ↔
      (A.load b id = some q ∨ id = r.ref.id ∧ q = r) ∧ id ∉ evicted
  purge : ∀ b now, Good b → Good (A.deleteExpired b now).1 ∧
    ∀ id q, A.load (A.deleteExpired b now).1 id = some q ↔
      A.load b id = some q ∧ q.expired now = false

namespace ArtifactMemory

theorem mem_expiredIds {m : ArtifactMemory} (h : m.records.get? id = some q) :
    id ∈ m.expiredIds now ↔ q.expired now = true := by
  rw [expiredIds, List.mem_map]
  constructor
  · rintro ⟨e, he, rfl⟩
    obtain ⟨hmem, hexpired⟩ := List.mem_filter.1 he
    rw [Dict.get?_eq_some.2 hmem] at h
    cases h
    exact hexpired
  · intro hexpired
    exact ⟨(id, q), List.mem_filter.2 ⟨Dict.get?_eq_some.1 h, hexpired⟩, rfl⟩

theorem lawful : adapter.Lawful Sound := by
  constructor
  · intro m id r h hr
    exact h.indexed.keyed id r hr
  · intro m r h hnone
    obtain ⟨hsound, hrecords⟩ := h.save (Dict.get?_eq_none.1 hnone)
    refine ⟨(m.save r).1, (m.save r).2, rfl, hsound, ?_⟩
    intro id q
    have hload : ∀ m : ArtifactMemory, adapter.load m id = m.records.get? id := fun _ => rfl
    rw [hload, hload, hrecords, get?_without, Dict.get?_set]
    apply and_congr_left
    intro _
    split
    · next heq =>
      subst heq
      constructor
      · intro hq
        cases hq
        exact Or.inr ⟨rfl, rfl⟩
      · rintro (hq | ⟨-, rfl⟩)
        · cases hnone.symm.trans hq
        · rfl
    · next hne =>
      constructor
      · exact Or.inl
      · rintro (hq | ⟨heq, -⟩)
        · exact hq
        · exact absurd heq.symm hne
  · intro m now h
    refine ⟨h.forgetAll (m.expiredIds now), ?_⟩
    intro id q
    obtain ⟨-, hrecords⟩ := h.indexed.forgetAll (m.expiredIds now)
    have hload : adapter.load (adapter.deleteExpired m now).1 id =
        (without m.records (m.expiredIds now)).get? id := by
      rw [← hrecords]
      rfl
    rw [hload, get?_without]
    apply and_congr_right
    intro hq
    rw [mem_expiredIds hq, Bool.not_eq_true]

end ArtifactMemory

namespace ArtifactTable

def Keyed (rows : List ArtifactRow) : Prop := (rows.map ArtifactRow.id).Nodup

variable {rows : List ArtifactRow}

theorem load_eq_some (h : Keyed rows) :
    load rows id = some q ↔ ∃ row ∈ rows, row.id = id ∧ recordOf row = q := by
  induction rows with
  | nil => simp [load]
  | cons row rows ih =>
    obtain ⟨hnew, hrest⟩ := List.nodup_cons.1 h
    by_cases hid : row.id = id
    · have hfound : load (row :: rows) id = some (recordOf row) := by
        rw [load, List.find?_cons, beq_iff_eq.2 hid]
        rfl
      rw [hfound, Option.some.injEq]
      constructor
      · intro hq
        exact ⟨row, List.mem_cons_self, hid, hq⟩
      · rintro ⟨other, hother, hid', rfl⟩
        rcases List.mem_cons.1 hother with rfl | hother
        · rfl
        · rw [← hid] at hid'
          exact absurd (hid' ▸ List.mem_map_of_mem hother) hnew
    · have hskip : load (row :: rows) id = load rows id := by
        rw [load, List.find?_cons, beq_eq_false_iff_ne.2 hid]
        rfl
      rw [hskip, ih hrest]
      constructor
      · rintro ⟨other, hother, hq⟩
        exact ⟨other, List.mem_cons_of_mem row hother, hq⟩
      · rintro ⟨other, hother, hid', hq⟩
        rcases List.mem_cons.1 hother with rfl | hother
        · exact absurd hid' hid
        · exact ⟨other, hother, hid', hq⟩

theorem load_eq_none : load rows id = none ↔ ∀ row ∈ rows, row.id ≠ id := by
  rw [load, Option.map_eq_none_iff, List.find?_eq_none]
  simp only [beq_iff_eq, ne_eq]

theorem lawful : adapter.Lawful Keyed := by
  constructor
  · intro rows id r h hr
    obtain ⟨row, -, hid, rfl⟩ := (load_eq_some h).1 hr
    exact hid
  · intro rows r h hnone
    have hnew := load_eq_none.1 hnone
    have hsave : adapter.save rows r = .ok (rows ++ [rowOf r], []) := by
      apply if_neg
      rw [List.any_eq_true]
      rintro ⟨row, hrow, hid⟩
      exact hnew row hrow (beq_iff_eq.1 hid)
    have hkeyed : Keyed (rows ++ [rowOf r]) := by
      rw [Keyed, List.map_append, List.nodup_append]
      refine ⟨h, List.nodup_singleton _, ?_⟩
      intro id hid id' hid'
      obtain ⟨row, hrow, rfl⟩ := List.mem_map.1 hid
      rw [List.map_singleton, List.mem_singleton] at hid'
      rw [hid']
      exact hnew row hrow
    refine ⟨_, _, hsave, hkeyed, ?_⟩
    intro id q
    have hleft : adapter.load (rows ++ [rowOf r]) id = some q ↔
        ∃ row ∈ rows ++ [rowOf r], row.id = id ∧ recordOf row = q := load_eq_some hkeyed
    have hright : adapter.load rows id = some q ↔
        ∃ row ∈ rows, row.id = id ∧ recordOf row = q := load_eq_some h
    rw [hleft, hright, and_iff_left List.not_mem_nil]
    constructor
    · rintro ⟨row, hrow, hid, hq⟩
      rcases List.mem_append.1 hrow with hrow | hrow
      · exact Or.inl ⟨row, hrow, hid, hq⟩
      · cases List.mem_singleton.1 hrow
        exact Or.inr ⟨hid.symm, hq.symm⟩
    · rintro (⟨row, hrow, hq⟩ | ⟨rfl, rfl⟩)
      · exact ⟨row, List.mem_append_left _ hrow, hq⟩
      · exact ⟨rowOf q, List.mem_append_right _ (List.mem_singleton_self _), rfl, rfl⟩
  · intro rows now h
    have hkeyed : Keyed (adapter.deleteExpired rows now).1 :=
      h.sublist ((List.filter_sublist).map ArtifactRow.id)
    refine ⟨hkeyed, ?_⟩
    intro id q
    have hleft : adapter.load (adapter.deleteExpired rows now).1 id = some q ↔
        ∃ row ∈ (adapter.deleteExpired rows now).1, row.id = id ∧ recordOf row = q :=
      load_eq_some hkeyed
    have hright : adapter.load rows id = some q ↔
        ∃ row ∈ rows, row.id = id ∧ recordOf row = q := load_eq_some h
    rw [hleft, hright]
    constructor
    · rintro ⟨row, hrow, hid, rfl⟩
      obtain ⟨hmem, hkept⟩ := List.mem_filter.1 hrow
      exact ⟨⟨row, hmem, hid, rfl⟩, Bool.not_eq_true' _ ▸ hkept⟩
    · rintro ⟨⟨row, hrow, hid, rfl⟩, hkept⟩
      refine ⟨row, List.mem_filter.2 ⟨hrow, ?_⟩, hid, rfl⟩
      rw [Bool.not_eq_true']
      exact hkept

end ArtifactTable

/-! Runs. -/

def WasPut (ttl : Int) (ops : List ArtifactOp) (r : ArtifactRecord) : Prop :=
  ∃ p, .put p ∈ ops ∧ 0 ≤ p.ttlS.getD ttl ∧ r = p.record (p.ttlS.getD ttl)

theorem drawnIds_concat_put (ops : List ArtifactOp) (p : ArtifactPut) :
    drawnIds (ops ++ [.put p]) = drawnIds ops ++ [p.id] := List.filterMap_append

theorem mem_drawnIds : id ∈ drawnIds ops ↔ ∃ p, .put p ∈ ops ∧ p.id = id := by
  rw [drawnIds, List.mem_filterMap]
  constructor
  · rintro ⟨op, hop, hid⟩
    cases op with
    | put p => exact ⟨p, hop, Option.some.inj hid⟩
    | get g => cases hid
    | purgeExpired now => cases hid
  · rintro ⟨p, hp, rfl⟩
    exact ⟨.put p, hp, rfl⟩

theorem put_unique (hfresh : (drawnIds ops).Nodup) (hp : .put p ∈ ops) (hp' : .put p' ∈ ops)
    (hid : p.id = p'.id) : p = p' := by
  induction ops with
  | nil => cases hp
  | cons op ops ih =>
    have hrest : (drawnIds ops).Nodup :=
      hfresh.sublist ((List.sublist_cons_self op ops).filterMap _)
    rcases List.mem_cons.1 hp with rfl | hmem
    · rcases List.mem_cons.1 hp' with heq | hmem'
      · exact (ArtifactOp.put.inj heq).symm
      · exact absurd (mem_drawnIds.2 ⟨p', hmem', hid.symm⟩) (List.nodup_cons.1 hfresh).1
    · rcases List.mem_cons.1 hp' with rfl | hmem'
      · exact absurd (mem_drawnIds.2 ⟨p, hmem, hid⟩) (List.nodup_cons.1 hfresh).1
      · exact ih hrest hmem hmem'

namespace ArtifactStore

/-- The adapter has what stands, and what was stored was put. -/
structure Faithful (A : ArtifactAdapter σ) (Good : σ → Prop) (ops : List ArtifactOp)
    (s : ArtifactStore σ) : Prop where
  good : Good s.backend
  loads : ∀ id r, A.load s.backend id = some r ↔ Standing s.trace r ∧ r.ref.id = id
  stored : ∀ r, .stored r ∈ s.trace ↔ WasPut s.artifactTtlS ops r

theorem Faithful.drawn (h : Faithful A Good ops s) (hr : .stored r ∈ s.trace) :
    r.ref.id ∈ drawnIds ops := by
  obtain ⟨p, hp, -, rfl⟩ := (h.stored r).1 hr
  exact mem_drawnIds.2 ⟨p, hp, rfl⟩

theorem Faithful.load_new (h : Faithful A Good ops s) (hnew : id ∉ drawnIds ops) :
    A.load s.backend id = none := by
  rw [Option.eq_none_iff_forall_ne_some]
  intro q hq
  obtain ⟨hstanding, hid⟩ := (h.loads _ q).1 hq
  have hdrawn := h.drawn hstanding.stored
  rw [hid] at hdrawn
  exact hnew hdrawn

theorem Faithful.unique (h : Faithful A Good ops s) (hfresh : (drawnIds ops).Nodup)
    (hr : .stored r ∈ s.trace) (hq : .stored q ∈ s.trace) (hid : r.ref.id = q.ref.id) : r = q := by
  obtain ⟨p, hp, -, rfl⟩ := (h.stored r).1 hr
  obtain ⟨p', hp', -, rfl⟩ := (h.stored q).1 hq
  have hsame : p = p' := put_unique hfresh hp hp' hid
  rw [hsame]

theorem Faithful.get (h : Faithful A Good ops s) (g : ArtifactGet) :
    (∀ r, Readable s.trace g r → s.get A g = .ok (r.slice g.start g.stop)) ∧
      ((∀ r, ¬ Readable s.trace g r) → s.get A g = .error .notFound) := by
  constructor
  · intro r hr
    have hload := (h.loads g.id r).2 ⟨hr.standing, hr.id⟩
    have hkeep : (some r).filter (fun r => !r.expired g.now) = some r :=
      Option.filter_some_pos (by rw [hr.fresh]; rfl)
    rw [ArtifactStore.get, hload, hkeep]
    apply if_neg
    rintro (htenant | hrun)
    · exact htenant hr.tenant
    · exact hrun hr.run
  · intro hnone
    rw [ArtifactStore.get]
    split
    · rfl
    · next r hload =>
      obtain ⟨hload, hfresh⟩ := Option.filter_eq_some_iff.1 hload
      obtain ⟨hstanding, hid⟩ := (h.loads g.id r).1 hload
      split
      · rfl
      · next hscope =>
        rw [not_or, not_not, not_not] at hscope
        exact absurd ⟨hstanding, hid, hscope.1, hscope.2, Bool.not_eq_true' _ ▸ hfresh⟩ (hnone r)

theorem Faithful.purgeExpired (h : Faithful A Good ops s) (hA : A.Lawful Good) (now : Rat) :
    Faithful A Good ops (s.purgeExpired A now) := by
  obtain ⟨hgood, hloads⟩ := hA.purge s.backend now h.good
  have htrace : (s.purgeExpired A now).trace = s.trace ++ [.purged now] := rfl
  constructor
  · exact hgood
  · intro id r
    have hsame : A.load (s.purgeExpired A now).backend id =
        A.load (A.deleteExpired s.backend now).1 id := rfl
    rw [hsame, hloads, h.loads, htrace, standing_purged]
    exact and_right_comm
  · intro r
    have hsame : (s.purgeExpired A now).artifactTtlS = s.artifactTtlS := rfl
    rw [hsame, ← h.stored, htrace, List.mem_append, List.mem_singleton]
    constructor
    · rintro (hr | hr)
      · exact hr
      · cases hr
    · exact Or.inl

theorem Faithful.maybePurge (h : Faithful A Good ops s) (hA : A.Lawful Good) (now : Rat) :
    Faithful A Good ops (s.maybePurge A now) := by
  rw [ArtifactStore.maybePurge]
  split
  · have hpurged := h.purgeExpired hA now
    exact ⟨hpurged.good, hpurged.loads, hpurged.stored⟩
  · exact h

theorem artifactTtlS_maybePurge (s : ArtifactStore σ) (now : Rat) :
    (s.maybePurge A now).artifactTtlS = s.artifactTtlS := by
  rw [ArtifactStore.maybePurge]
  split <;> rfl

theorem Faithful.concat_idle (h : Faithful A Good ops s) {op : ArtifactOp}
    (hop : ∀ p, op = .put p → p.ttlS.getD s.artifactTtlS < 0) :
    Faithful A Good (ops ++ [op]) s := by
  refine ⟨h.good, h.loads, fun r => ?_⟩
  rw [h.stored]
  constructor
  · rintro ⟨p, hp, hputs⟩
    exact ⟨p, List.mem_append_left _ hp, hputs⟩
  · rintro ⟨p, hp, hpos, hr⟩
    rcases List.mem_append.1 hp with hp | hp
    · exact ⟨p, hp, hpos, hr⟩
    · exact absurd (hop p (List.mem_singleton.1 hp).symm) (not_lt.2 hpos)

theorem Faithful.put_cases (h : Faithful A Good ops s) (hA : A.Lawful Good)
    (hnew : p.id ∉ drawnIds ops) :
    (p.ttlS.getD s.artifactTtlS < 0 ∧ (s.put A p).1 = s) ∨
      0 ≤ p.ttlS.getD s.artifactTtlS ∧ ∃ backend evicted,
        A.save (s.maybePurge A p.now).backend (p.record (p.ttlS.getD s.artifactTtlS)) =
          .ok (backend, evicted) ∧
        (s.put A p).1 =
          { s.maybePurge A p.now with
            backend := backend
            trace := (s.maybePurge A p.now).trace ++
              .stored (p.record (p.ttlS.getD s.artifactTtlS)) ::
                evicted.map (.evicted · p.tenant) } ∧
        Good backend ∧ ∀ id q, A.load backend id = some q ↔
          (A.load (s.maybePurge A p.now).backend id = some q ∨
            id = p.id ∧ q = p.record (p.ttlS.getD s.artifactTtlS)) ∧ id ∉ evicted := by
  have hpurged := h.maybePurge hA p.now
  rw [ArtifactStore.put]
  dsimp only
  split
  · next hneg => exact Or.inl ⟨hneg, rfl⟩
  · next hpos =>
    obtain ⟨backend, evicted, hsave, hgood, hloads⟩ := hA.save
      (s.maybePurge A p.now).backend (p.record (p.ttlS.getD s.artifactTtlS)) hpurged.good
      (hpurged.load_new hnew)
    right
    refine ⟨not_lt.1 hpos, backend, evicted, hsave, ?_, hgood, hloads⟩
    rw [hsave]

theorem Faithful.put (h : Faithful A Good ops s) (hA : A.Lawful Good)
    (hnew : p.id ∉ drawnIds ops) : Faithful A Good (ops ++ [.put p]) (s.put A p).1 := by
  rcases h.put_cases hA hnew with ⟨hneg, hsame⟩ | ⟨hpos, backend, evicted, -, hput, hgood, hloads⟩
  · rw [hsame]
    apply h.concat_idle
    rintro p' ⟨⟩
    exact hneg
  · have hpurged := h.maybePurge hA p.now
    rw [hput]
    refine ⟨hgood, ?_, ?_⟩
    · intro id q
      dsimp only
      rw [hloads, hpurged.loads, List.append_cons, standing_evicted, standing_stored]
      constructor
      · rintro ⟨⟨hstanding, hid⟩ | ⟨hid, rfl⟩, hkept⟩
        · exact ⟨⟨Or.inl hstanding, hid ▸ hkept⟩, hid⟩
        · rw [hid] at hkept ⊢
          exact ⟨⟨Or.inr rfl, hkept⟩, rfl⟩
      · rintro ⟨⟨hstanding | rfl, hkept⟩, rfl⟩
        · exact ⟨Or.inl ⟨hstanding, rfl⟩, hkept⟩
        · exact ⟨Or.inr ⟨rfl, rfl⟩, hkept⟩
    · intro r
      dsimp only
      rw [List.mem_append, List.mem_cons, hpurged.stored, artifactTtlS_maybePurge]
      constructor
      · rintro (⟨q, hq, hputs⟩ | hr | hr)
        · exact ⟨q, List.mem_append_left _ hq, hputs⟩
        · exact ⟨p, List.mem_append_right _ (List.mem_singleton_self _), hpos,
            ArtifactEvent.stored.inj hr⟩
        · obtain ⟨id, -, hid⟩ := List.mem_map.1 hr
          cases hid
      · rintro ⟨q, hq, hpos', rfl⟩
        rcases List.mem_append.1 hq with hq | hq
        · exact Or.inl ⟨q, hq, hpos', rfl⟩
        · cases List.mem_singleton.1 hq
          exact Or.inr (Or.inl rfl)

theorem run_concat (s : ArtifactStore σ) (ops : List ArtifactOp) (op : ArtifactOp) :
    s.run A (ops ++ [op]) = (s.run A ops).step A op := List.foldl_append

theorem artifactTtlS_run (A : ArtifactAdapter σ) (s : ArtifactStore σ) (ops : List ArtifactOp) :
    (s.run A ops).artifactTtlS = s.artifactTtlS := by
  induction ops generalizing s with
  | nil => rfl
  | cons op ops ih =>
    refine (ih (s.step A op)).trans ?_
    cases op with
    | put p =>
      rw [step, ArtifactStore.put]
      dsimp only
      split
      · rfl
      · split <;> exact artifactTtlS_maybePurge s p.now
    | get g => rfl
    | purgeExpired now => rfl

theorem Faithful.run (h : Faithful A Good [] s) (hA : A.Lawful Good)
    (hfresh : (drawnIds ops).Nodup) : Faithful A Good ops (s.run A ops) := by
  induction ops using List.reverseRecOn with
  | nil => exact h
  | append_singleton ops op ih =>
    rw [run_concat]
    cases op with
    | put p =>
      rw [drawnIds_concat_put, List.nodup_append] at hfresh
      apply (ih hfresh.1).put hA
      intro hdrawn
      exact hfresh.2.2 p.id hdrawn p.id (List.mem_singleton_self _) rfl
    | get g =>
      rw [drawnIds, List.filterMap_append, List.filterMap_cons_none rfl, List.filterMap_nil,
        List.append_nil] at hfresh
      exact (ih hfresh).concat_idle fun _ hop => by cases hop
    | purgeExpired now =>
      rw [drawnIds, List.filterMap_append, List.filterMap_cons_none rfl, List.filterMap_nil,
        List.append_nil] at hfresh
      exact ((ih hfresh).purgeExpired hA now).concat_idle fun _ hop => by cases hop

structure Exact (A : ArtifactAdapter σ) (s : ArtifactStore σ) : Prop where
  found : ∀ g r, Readable s.trace g r → s.get A g = .ok (r.slice g.start g.stop)
  missing : ∀ g, (∀ r, ¬ Readable s.trace g r) → s.get A g = .error .notFound

theorem Faithful.exact (h : Faithful A Good ops s) : Exact A s :=
  ⟨fun g r => (h.get g).1 r, fun g => (h.get g).2⟩

end ArtifactStore

end Prismal.Agents
