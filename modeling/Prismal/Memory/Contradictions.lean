import Prismal.Memory.Consolidation

namespace Prismal.Memory
open Prismal.Lib Prismal.Lib.Run
set_option autoImplicit true

/-! The second step of a consolidation run: contradictions are decided. -/

variable {p p₀ : Process} {host : Host} {scope : MemoryScope}

theorem contest_cases (src dst : MemoryRecord) :
    contest src dst = (src, dst) ∨ contest src dst = (dst, src) := by
  rw [contest, inOrder]
  split
  · exact byPrecedence_cases src dst
  · exact (byPrecedence_cases dst src).symm

theorem byPrecedence_prevails (h : Records.Earlier older newer) :
    Prevails (byPrecedence older newer).1 (byPrecedence older newer).2 := by
  rw [byPrecedence]
  split
  next hr => exact Or.inr ⟨h, hr⟩
  next hr => exact Or.inl ⟨h, Nat.le_of_not_lt hr⟩

theorem contest_prevails (src dst : MemoryRecord) :
    Prevails (contest src dst).1 (contest src dst).2 := by
  apply byPrecedence_prevails
  rw [inOrder]
  split
  next h => exact h
  next h => exact (earlier_total src dst).resolve_left h

theorem SameOrigin.earlier (ha : SameOrigin a a') (hb : SameOrigin b b') :
    Records.Earlier a b ↔ Records.Earlier a' b' := by
  rw [Records.Earlier, Records.Earlier, ha.1, hb.1, ha.2.2.1, hb.2.2.1]

theorem SameOrigin.prevails (hw : SameOrigin w' w) (hl : SameOrigin l' l) (h : Prevails w l) :
    Prevails w' l' := by
  rw [Prevails, hw.earlier hl, hl.earlier hw, hw.rank, hl.rank]
  exact h

theorem SameOrigin.maySupersede (hw : SameOrigin w w') (hl : SameOrigin l l') :
    maySupersede w l = maySupersede w' l' := by
  rw [Memory.maySupersede, Memory.maySupersede, supersedeBlockReason, supersedeBlockReason, hw.1,
    hl.1, hw.2.1, hl.2.1, hw.isTainted, hl.isTainted, hw.rank, hl.rank]

theorem SameOrigin.byPrecedence (ha : SameOrigin a a') (hb : SameOrigin b b') :
    SameOrigin (byPrecedence a b).1 (byPrecedence a' b').1 ∧
      SameOrigin (byPrecedence a b).2 (byPrecedence a' b').2 := by
  have hrank : Memory.rank b < Memory.rank a ↔ Memory.rank b' < Memory.rank a' := by
    rw [Memory.rank, Memory.rank, Memory.rank, Memory.rank, ha.rank, hb.rank]
  by_cases h : Memory.rank b < Memory.rank a
  · rw [Memory.byPrecedence, Memory.byPrecedence, if_pos h, if_pos (hrank.1 h)]
    exact ⟨ha, hb⟩
  · rw [Memory.byPrecedence, Memory.byPrecedence, if_neg h, if_neg fun h' => h (hrank.2 h')]
    exact ⟨hb, ha⟩

theorem contest_congr (ha : SameOrigin a a') (hb : SameOrigin b b') :
    maySupersede (contest a b).1 (contest a b).2 =
      maySupersede (contest a' b').1 (contest a' b').2 := by
  have hboth : SameOrigin (contest a b).1 (contest a' b').1 ∧
      SameOrigin (contest a b).2 (contest a' b').2 := by
    by_cases h : Records.Earlier a b
    · rw [contest, contest, inOrder, inOrder, if_pos h, if_pos ((ha.earlier hb).1 h)]
      exact ha.byPrecedence hb
    · rw [contest, contest, inOrder, inOrder, if_neg h, if_neg fun h' => h ((ha.earlier hb).2 h')]
      exact hb.byPrecedence ha
  exact hboth.1.maySupersede hboth.2

theorem closeEdges_inherited (now : Rat) (hd : Decided v edge)
    (he : e ∈ closeEdges now edge r.edges) :
    Inherited v r e := by
  obtain ⟨q, hq, rfl⟩ := List.mem_map.1 he
  split
  next hsame =>
    rw [MemoryEdge.same, Bool.and_eq_true, Bool.and_eq_true, decide_eq_true_eq,
      decide_eq_true_eq] at hsame
    refine Or.inr ⟨⟨rfl, ?_⟩, q, hq, rfl, rfl⟩
    obtain ⟨w, l, hw, hl, hends, hrest⟩ := hd
    refine ⟨w, l, hw, hl, ?_, hrest⟩
    rw [← hsame.1.1, ← hsame.1.2] at hends
    exact hends
  next => exact Or.inl hq

theorem closeOn_spec (holder : String) (edge : MemoryEdge) :
    Spec (fun p => Steady p₀ p ∧ Decided p.vault edge) (closeOn host scope holder edge)
      (fun _ p => Steady p₀ p ∧ Decided p.vault edge) (fun _ _ => False) := by
  apply Spec.bind (Q := fun found p => (Steady p₀ p ∧ Decided p.vault edge) ∧
    p.vault.records.get holder scope = found)
  · exact fun _ h => ⟨h, rfl⟩
  intro found
  split
  · exact Spec.pure fun _ h => h.1
  next fresh =>
    apply Spec.bind (Q := fun _ p => (Steady p₀ p ∧ Decided p.vault edge) ∧
      p.vault.records.get? fresh.id = some fresh)
    · apply (readClock_spec fun p h => ⟨⟨h.1.1.tick, h.1.2⟩, h.2⟩).pre
      rintro p ⟨⟨hs, hd⟩, hget⟩
      have hstored := (Records.get_eq_some.1 hget).1
      exact ⟨⟨hs, hd⟩, by rw [hs.reach.keyed _ _ hstored]; exact hstored⟩
    · rintro now p ⟨⟨hs, hd⟩, hf⟩
      rw [update_ok (r := fresh.withEdges (closeEdges now edge fresh.edges)) hf]
      have hclose := Proper.edges hf fun e he => closeEdges_inherited now hd he
      exact ⟨hs.touch (t := .store _) hclose rfl, hd.later (.of_touch hclose)⟩

theorem active_of_not_truthy {id : String} (h : Reach v) (hr : v.records.get? id = some r)
    (ht : truthy r.supersededBy = false) : r.supersededBy = none := by
  cases hw : r.supersededBy with
  | none => rfl
  | some w =>
    rw [hw, truthy, Option.any_some, decide_eq_false_iff_not, not_not] at ht
    exact absurd (ht ▸ hw) (h.link_ne_empty hr)

def Settled (v : Vault) (e : MemoryEdge) : Prop :=
  ∀ src dst, v.records.get? e.srcId = some src → v.records.get? e.dstId = some dst →
    src.supersededBy = none → dst.supersededBy = none → src.scope = dst.scope →
    maySupersede (contest src dst).1 (contest src dst).2 = false

theorem Decided.settled (h : Decided v e) : Settled v e := by
  obtain ⟨w, l, -, -, hends, -, hs⟩ := h
  intro src dst hsrc hdst has had _
  rcases hends with ⟨-, hl⟩ | ⟨-, hl⟩
  · rw [← hl] at hdst
    rw [hs dst hdst] at had
    cases had
  · rw [← hl] at hsrc
    rw [hs src hsrc] at has
    cases has

theorem decided_of_supersede (h : Reach v) (hw : v.records.get? w.id = some w)
    (hl : v.records.get? l.id = some l) (hp : Prevails w l)
    (hends : w.id = e.srcId ∧ l.id = e.dstId ∨ w.id = e.dstId ∧ l.id = e.srcId) :
    Decided (v.store (l.supersede w.id)) e := by
  obtain ⟨w', hw', how⟩ := h.origin hw
  obtain ⟨l', hl', hol⟩ := h.origin hl
  refine ⟨w', l', ?_, ?_, ?_, how.prevails hol hp, fun r hr => ?_⟩
  · rw [how.1]
    exact hw'
  · rw [hol.1]
    exact hl'
  · rw [how.1, hol.1]
    exact hends
  · change (v.records.put (l.supersede w.id)).get? l'.id = some r at hr
    have hid : (l.supersede w.id).id = l'.id := hol.1.symm
    rw [Records.get?_put, if_pos hid] at hr
    cases hr
    rw [how.1]
    rfl

theorem not_truthy_of_active {r : MemoryRecord} (h : r.supersededBy = none) :
    truthy r.supersededBy = false := by
  rw [h]
  rfl

theorem resolveEdge_spec (holder : String) (edge : MemoryEdge) :
    Spec (Steady p₀) (resolveEdge host scope holder edge)
      (fun _ p => Steady p₀ p ∧ (resolvable edge = true → Visible p₀.vault scope edge.srcId →
        Settled p.vault edge)) (fun _ _ => False) := by
  apply Spec.bind (Spec.get (Q := fun q p => q = p ∧ Steady p₀ p) fun _ h => ⟨rfl, h⟩)
  intro q
  split
  next src dst hsrc hdst =>
    have hs := (Records.get_eq_some.1 hsrc).1
    have hd := (Records.get_eq_some.1 hdst).1
    split
    next hgo =>
      rw [Bool.and_eq_true, contested] at hgo
      simp only [Bool.and_eq_true, Bool.not_eq_true', decide_eq_true_eq] at hgo
      obtain ⟨-, ⟨⟨hts, htd⟩, -⟩, hmay⟩ := hgo
      apply Spec.bind (Q := fun _ p => Steady p₀ p ∧ Decided p.vault edge)
      · rintro p ⟨rfl, h⟩
        have hk := h.reach.keyed
        have has := active_of_not_truthy h.reach hs hts
        have had := active_of_not_truthy h.reach hd htd
        have hsid := hk _ _ hs
        have hdid := hk _ _ hd
        rw [← hsid] at hs
        rw [← hdid] at hd
        have hwins := contest_prevails src dst
        rcases contest_cases src dst with hc | hc
        · rw [hc] at hmay hwins ⊢
          rw [update_ok (r := dst.supersede src.id) hd]
          exact ⟨h.supersede hs hd has had hmay,
            decided_of_supersede h.reach hs hd hwins (Or.inl ⟨hsid, hdid⟩)⟩
        · rw [hc] at hmay hwins ⊢
          rw [update_ok (r := src.supersede dst.id) hs]
          exact ⟨h.supersede hd hs had has hmay,
            decided_of_supersede h.reach hd hs hwins (Or.inr ⟨hdid, hsid⟩)⟩
      · intro _
        apply Spec.bind (closeOn_spec holder edge)
        exact fun _ => Spec.pure fun _ h => ⟨h.1, fun _ _ => h.2.settled⟩
    next hstop =>
      apply Spec.pure
      rintro p ⟨rfl, h⟩
      refine ⟨h, fun hr _ src' dst' hsrc' hdst' has had hscope => ?_⟩
      obtain rfl := Option.some.inj (hs.symm.trans hsrc')
      obtain rfl := Option.some.inj (hd.symm.trans hdst')
      simpa [hr, contested, not_truthy_of_active has, not_truthy_of_active had, hscope] using hstop
  next hnone =>
    apply Spec.pure
    rintro p ⟨rfl, h⟩
    refine ⟨h, fun _ hvis src dst hsrc hdst _ _ hscope => ?_⟩
    obtain ⟨w, hw, hcov⟩ := hvis
    obtain ⟨w', hw', ho⟩ := h.reach.origin hsrc
    obtain rfl := Option.some.inj ((h.written _ _ hw).symm.trans hw')
    rw [ho.2.1] at hcov
    exact (hnone src dst (Records.get_eq_some.2 ⟨hsrc, hcov⟩)
      (Records.get_eq_some.2 ⟨hdst, hscope ▸ hcov⟩)).elim

def Edged (v : Vault) : Prop :=
  ∀ id r, v.records.get? id = some r → ∀ e ∈ r.edges,
    e.srcId = id ∧ Visible v r.scope e.dstId ∧ (e.validTo ≠ none → Decided v e)

theorem edged_empty : Edged {} := by
  intro id r hr
  cases hr

theorem Edged.store (h : Edged v) (hl : Later v (v.store r'))
    (hedges : ∀ e ∈ r'.edges, e.srcId = r'.id ∧ Visible v r'.scope e.dstId ∧
      (e.validTo ≠ none → Decided v e)) : Edged (v.store r') := by
  intro id r hr e he
  change (v.records.put r').get? id = some r at hr
  rw [Records.get?_put] at hr
  split at hr
  next hid =>
    cases hr
    obtain ⟨hs, hd, hc⟩ := hedges e he
    exact ⟨hs.trans hid, hd, fun hv => (hc hv).later hl⟩
  next =>
    obtain ⟨hs, hd, hc⟩ := h id r hr e he
    exact ⟨hs, hd, fun hv => (hc hv).later hl⟩

theorem Edged.put (h : Edged v) (hl : Later v (v.put r')) (ha : Anchored v r') :
    Edged (v.put r') := by
  intro id r hr e he
  change (v.records.put r').get? id = some r at hr
  rw [Records.get?_put] at hr
  split at hr
  next hid =>
    cases hr
    obtain ⟨hs, hd, hc⟩ := ha e he
    exact ⟨hs.trans hid, hd.later hl, fun hv => absurd hc hv⟩
  next =>
    obtain ⟨hs, hd, hc⟩ := h id r hr e he
    exact ⟨hs, hd.later hl, fun hv => (hc hv).later hl⟩

theorem Edged.touch (h : Edged v) (ht : Proper v t) : Edged (v.touch t) := by
  have hl := Later.of_touch ht
  cases ht with
  | draw hn => exact h
  | put hid hnew hg ha => exact h.put hl ha
  | @putSummary _ r hid hnew hg he =>
    have ha : Anchored v r := by
      intro e hm
      rw [he] at hm
      cases hm
    exact h.put (Later.of_put hnew) ha
  | supersede hw hlo => exact h.store hl fun e he => h _ _ hlo e he
  | edges hst hes =>
    apply h.store hl
    intro e he
    rcases hes e he with hold | ⟨⟨-, hd⟩, q, hq, hs, hdst⟩
    · exact h _ _ hst e hold
    · obtain ⟨hsrc, hw, -⟩ := h _ _ hst q hq
      exact ⟨hs.trans hsrc, hdst ▸ hw, fun _ => hd⟩
  | purge =>
    intro id r hst e he
    obtain ⟨hs, hd, hc⟩ := h id r ((Records.get?_purge _ _ _).1 hst).1 e he
    exact ⟨hs, hd, fun hv => (hc hv).later hl⟩

theorem Moves.edged (h : Moves v v') (he : Edged v) : Edged v' := by
  obtain ⟨ts, ht, rfl⟩ := h
  exact final_of_along he (fun _ _ hu hp => hu.touch hp) ht

theorem Settled.later (h : Settled v e) (hs : e.srcId ∈ v.written) (hd : e.dstId ∈ v.written)
    (hl : Later v v') : Settled v' e := by
  intro src' dst' hsrc' hdst' has' had' hscope
  obtain ⟨src, hsrc, hos⟩ := hl.stored _ src' hs hsrc'
  obtain ⟨dst, hdst, hod⟩ := hl.stored _ dst' hd hdst'
  have hscope' : src.scope = dst.scope := by
    rw [hos.origin.2.1, hod.origin.2.1]
    exact hscope
  have hno := h src dst hsrc hdst (hos.active has') (hod.active had') hscope'
  rw [← contest_congr hos.origin hod.origin]
  exact hno

def Resolved (v : Vault) (id : String) : Prop :=
  ∀ r, v.records.get? id = some r → ∀ e ∈ r.edges, resolvable e = true → Settled v e

theorem open_of_resolvable (h : resolvable e = true) : e.validTo = none := by
  rw [resolvable, Bool.and_eq_true] at h
  simpa using h.2

theorem Resolved.later {id : String} (h : Resolved v id) (he : Edged v) (hid : id ∈ v.written)
    (hl : Later v v') : Resolved v' id := by
  intro r' hr' e hmem hres
  obtain ⟨r, hr, ha⟩ := hl.stored id r' hid hr'
  have hold := ha.opens e hmem (open_of_resolvable hres)
  obtain ⟨hsrc, hdst, -⟩ := he id r hr e hold
  exact (h r hr e hold hres).later (hsrc ▸ hid) hdst.mem_written hl

def Resolving (q : Process) (edges rest : List MemoryEdge) (p : Process) : Prop :=
  Steady q p ∧ ∀ e ∈ edges, e ∈ rest ∨ (resolvable e = true → Settled p.vault e)

theorem resolving_spec {q : Process} (hvis : Visible q.vault scope holder)
    (hends : ∀ e ∈ edges, e.srcId = holder ∧ e.dstId ∈ q.vault.written) (edge : MemoryEdge)
    (rest : List MemoryEdge) :
    Spec (Resolving q edges (edge :: rest)) (resolveEdge host scope holder edge)
      (fun _ => Resolving q edges rest) (fun _ _ => False) := by
  obtain ⟨w, hw, hcov⟩ := hvis
  rintro p ⟨hs, hdone⟩
  have hstep := fun p₀ => @resolveEdge_spec p₀ host scope holder edge
  apply (hstep p).post _ p (Steady.refl hs.reach)
  rintro _ p' ⟨hs', hedge⟩
  refine ⟨hs.trans hs', fun e he => ?_⟩
  obtain ⟨hsrc, hdst⟩ := hends e he
  rcases hdone e he with hrest | hsettled
  · rcases List.mem_cons.1 hrest with rfl | hrest
    · refine Or.inr fun hres => hedge hres ⟨w, ?_, hcov⟩
      rw [hsrc]
      exact hs.written _ w hw
    · exact Or.inl hrest
  · refine Or.inr fun hres => (hsettled hres).later ?_ ?_ hs'.moves.later
    · rw [hsrc]
      exact hs.moves.later.mem_written (Dict.mem_of_get? hw)
    · exact hs.moves.later.mem_written hdst

theorem Visible.steady {id : String} (h : Visible p₀.vault scope id) (hs : Steady p₀ p) :
    Visible p.vault scope id := h.later hs.moves.later

theorem Visible.get {id : String} (h : Visible v scope id) (hv : Reach v)
    (hr : v.records.get? id = some r) : v.records.get id scope = some r := by
  obtain ⟨w, hw, hcov⟩ := h
  obtain ⟨w', hw', ho⟩ := hv.origin hr
  obtain rfl := Option.some.inj (hw.symm.trans hw')
  rw [ho.2.1] at hcov
  exact Records.get_eq_some.2 ⟨hr, hcov⟩

theorem resolveContradictions_spec (hedged : Edged p₀.vault) (r : MemoryRecord)
    (hvis : Visible p₀.vault scope r.id) :
    Spec (Steady p₀) (resolveContradictions host scope r)
      (fun _ p => Steady p₀ p ∧ Resolved p.vault r.id) (fun _ _ => False) := by
  apply Spec.bind (fetch_spec scope r.id)
  intro found
  split
  · apply Spec.pure
    rintro p ⟨hs, hnone⟩
    refine ⟨hs, fun h hh => ?_⟩
    rw [(hvis.steady hs).get hs.reach hh] at hnone
    cases hnone
  next holder =>
    rintro q ⟨hs, hfound⟩
    have hh := (Records.get_eq_some.1 hfound).1
    have hid := hs.reach.keyed _ _ hh
    have hvis' := hvis.steady hs
    rw [← hid] at hvis' hh ⊢
    have hends : ∀ e ∈ holder.edges, e.srcId = holder.id ∧ e.dstId ∈ q.vault.written := by
      intro e he
      obtain ⟨hsrc, hdst, -⟩ := hs.moves.edged hedged _ _ hh e he
      exact ⟨hsrc, hdst.mem_written⟩
    have hloop : Spec (Resolving q holder.edges holder.edges)
        (countM (resolveEdge host scope holder.id) holder.edges)
        (fun _ => Resolving q holder.edges []) (fun _ _ => False) :=
      countM_spec fun edge rest => resolving_spec hvis' hends edge rest
    apply hloop.post _ q ⟨Steady.refl hs.reach, fun e he => Or.inl he⟩
    rintro _ p ⟨hs', hdone⟩
    refine ⟨hs.trans hs', fun h hr e he hres => ?_⟩
    obtain ⟨w, hw, -⟩ := hvis'
    obtain ⟨holder', hh', ha⟩ := hs'.moves.later.stored _ h (Dict.mem_of_get? hw) hr
    obtain rfl := Option.some.inj (hh.symm.trans hh')
    have hold := ha.opens e he (open_of_resolvable hres)
    exact (hdone e hold).resolve_left List.not_mem_nil hres

/-- Records of a window that are still to be looked at; the edges of the others are settled. -/
structure Scanning (p₀ : Process) (window rest : List MemoryRecord) (p : Process) : Prop where
  steady : Steady p₀ p
  pending : ∀ r ∈ rest, r ∈ window
  resolved : ∀ r ∈ window, r ∈ rest ∨ Resolved p.vault r.id

theorem scanning_spec (hedged : Edged p₀.vault) (hvis : ∀ r ∈ window, Visible p₀.vault scope r.id)
    (r : MemoryRecord) (rest : List MemoryRecord) :
    Spec (Scanning p₀ window (r :: rest)) (resolveContradictions host scope r)
      (fun _ => Scanning p₀ window rest) (fun _ _ => False) := by
  rintro p ⟨hs, hpending, hdone⟩
  have hp := hs.moves.edged hedged
  have hrvis := (hvis r (hpending r List.mem_cons_self)).steady hs
  apply (resolveContradictions_spec hp r hrvis).post _ p (Steady.refl hs.reach)
  rintro _ p' ⟨hs', hr⟩
  refine ⟨hs.trans hs', fun q hq => hpending q (List.mem_cons_of_mem _ hq), fun q hq => ?_⟩
  rcases hdone q hq with hrest | hres
  · rcases List.mem_cons.1 hrest with rfl | hrest
    · exact Or.inr hr
    · exact Or.inl hrest
  · obtain ⟨w, hw, -⟩ := (hvis q hq).steady hs
    exact Or.inr (hres.later hp (Dict.mem_of_get? hw) hs'.moves.later)

theorem contradictions_spec (hedged : Edged p₀.vault)
    (hvis : ∀ r ∈ window, Visible p₀.vault scope r.id) :
    Spec (Steady p₀) (countM (resolveContradictions host scope) window)
      (fun _ p => Steady p₀ p ∧ ∀ r ∈ window, Resolved p.vault r.id) (fun _ _ => False) := by
  have hloop : Spec (Scanning p₀ window window)
      (countM (resolveContradictions host scope) window) (fun _ => Scanning p₀ window [])
      (fun _ _ => False) := countM_spec fun r rest => scanning_spec hedged hvis r rest
  apply hloop.conseq _ _ fun _ _ h => h
  · exact fun p h => ⟨h, fun _ hr => hr, fun _ hr => Or.inl hr⟩
  · exact fun _ p h => ⟨h.steady, fun r hr => (h.resolved r hr).resolve_left List.not_mem_nil⟩

end Prismal.Memory
