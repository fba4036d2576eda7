import Prismal.Memory.System

namespace Prismal.Memory
open Prismal.Lib Prismal.Lib.Run Prismal.Lib.Roots
set_option autoImplicit true

/-! The `superseded_by` pointers over all calls of a run. -/

/-- `loser` is stored and points at `winner`. -/
def Points (v : Vault) (loser winner : String) : Prop :=
  ∃ r, v.records.get? loser = some r ∧ r.supersededBy = some winner

def Active (v : Vault) (id : String) : Prop :=
  ∃ r, v.records.get? id = some r ∧ r.supersededBy = none

theorem Active.not_points {id : String} (h : Active v id) : ¬ Points v id w := by
  rintro ⟨r, hr, hw⟩
  obtain ⟨r', hr', ha⟩ := h
  obtain rfl := Option.some.inj (hr.symm.trans hr')
  rw [ha] at hw
  cases hw

theorem points_put (h : Points (v.put r) l w) (hr : r.supersededBy = none) : Points v l w := by
  obtain ⟨q, hq, hw⟩ := h
  change (v.records.put r).get? l = some q at hq
  rw [Records.get?_put] at hq
  split at hq
  · cases hq
    rw [hr] at hw
    cases hw
  · exact ⟨q, hq, hw⟩

theorem points_touch (ht : Proper v t) (h : Points (v.touch t) l w) :
    Points v l w ∨ Active v l ∧ Active v w ∧ l ≠ w ∧
      ∀ l' w', Points (v.touch t) l' w' → Points v l' w' ∨ l' = l ∧ w' = w := by
  cases ht with
  | draw hn => exact Or.inl h
  | put hid hnew hr => exact Or.inl (points_put h hr.active)
  | putSummary hid hnew hr => exact Or.inl (points_put h hr.active)
  | @supersede winner loser hw hl hactive hopen hmay =>
    have hcases : ∀ l' w', Points (v.store (loser.supersede winner.id)) l' w' →
        Points v l' w' ∨ l' = loser.id ∧ w' = winner.id := by
      rintro l' w' ⟨q, hq, hw'⟩
      change (v.records.put (loser.supersede winner.id)).get? l' = some q at hq
      rw [Records.get?_put] at hq
      split at hq
      next hid =>
        cases hq
        exact Or.inr ⟨hid.symm, (Option.some.inj hw').symm⟩
      next => exact Or.inl ⟨q, hq, hw'⟩
    rcases hcases l w h with hold | ⟨rfl, rfl⟩
    · exact Or.inl hold
    · exact Or.inr ⟨⟨loser, hl, hopen⟩, ⟨winner, hw, hactive⟩,
        (supersedes_of_may hmay).other.symm, hcases⟩
  | @edges r es hr hes =>
    obtain ⟨q, hq, hw⟩ := h
    change (v.records.put (r.withEdges es)).get? l = some q at hq
    rw [Records.get?_put] at hq
    split at hq
    next hid =>
      cases hq
      exact Or.inl ⟨r, hid ▸ hr, hw⟩
    next => exact Or.inl ⟨q, hq, hw⟩
  | purge =>
    obtain ⟨q, hq, hw⟩ := h
    exact Or.inl ⟨q, ((Records.get?_purge _ _ _).1 hq).1, hw⟩

theorem acyclic_touch (h : Acyclic (Points v)) (ht : Proper v t) :
    Acyclic (Points (v.touch t)) := by
  by_cases hnew : ∃ l w, Points (v.touch t) l w ∧ ¬ Points v l w
  · obtain ⟨l, w, hp, hn⟩ := hnew
    rcases points_touch ht hp with hold | ⟨-, hw, hne, hcases⟩
    · exact absurd hold hn
    · exact h.link hne (fun _ => hw.not_points) hcases
  · apply h.mono
    intro l w hp
    by_contra hn
    exact hnew ⟨l, w, hp, hn⟩

/-- What was superseded stays so or is gone, and no record comes to point at it. -/
structure Lasting (v v' : Vault) : Prop where
  superseded : ∀ l w, Points v l w → ∀ r, v'.records.get? l = some r → r.supersededBy = some w
  loses : ∀ l w, Points v l w → ∀ l', Points v' l' l → Points v l' l

theorem Lasting.inactive (h : Lasting v v') (hp : Points v l w) : ¬ Active v' l := by
  rintro ⟨r, hr, ha⟩
  rw [h.superseded l w hp r hr] at ha
  cases ha

theorem Lasting.refl (v : Vault) : Lasting v v where
  superseded l w h r hr := by
    obtain ⟨q, hq, hw⟩ := h
    obtain rfl := Option.some.inj (hq.symm.trans hr)
    exact hw
  loses _ _ _ _ h := h

theorem Lasting.touch (h : Lasting v u) (hr : Reach v) (hl : Later v (u.touch t))
    (ht : Proper u t) : Lasting v (u.touch t) where
  superseded l w hp r hstored := by
    obtain ⟨q, hq, hw⟩ := hp
    obtain ⟨o, ho, -⟩ := hr.origin hq
    obtain ⟨q', hq', ha⟩ := hl.stored l r (Dict.mem_of_get? ho) hstored
    obtain rfl := Option.some.inj (hq.symm.trans hq')
    exact ha.superseded w hw
  loses l w hp l' hp' := by
    rcases points_touch ht hp' with hold | ⟨-, hactive, -⟩
    · exact h.loses l w hp l' hold
    · exact absurd hactive (h.inactive hp)

theorem lasting_final (hr : Reach v) (h : Along Vault.touch (fun v t _ => Proper v t) v ts) :
    Lasting v (final Vault.touch v ts) := by
  have hboth := final_of_along (I := fun u => Lasting v u ∧ Later v u) ⟨.refl v, .refl v⟩
    (fun u t hu hp => ?_) h
  · exact hboth.1
  · have hl := hu.2.trans (.of_touch hp)
    exact ⟨hu.1.touch hr hl hp, hl⟩

structure Orderly (v : Vault) (t : Touch) (rest : List Touch) : Prop where
  acyclic : Acyclic (Points v)
  /-- a new pointer leads from an active record to one that is active -/
  active : ∀ l w, Points (v.touch t) l w → ¬ Points v l w → Active v l ∧ Active v w
  /-- whatever calls come next -/
  lasting : ∀ now later, t :: rest = now ++ later → Lasting v (final Vault.touch v now)

theorem orderly_along (hr : Reach v) (ha : Acyclic (Points v))
    (h : Along Vault.touch (fun v t _ => Proper v t) v ts) : Along Vault.touch Orderly v ts := by
  induction ts generalizing v with
  | nil => exact along_nil
  | cons t rest ih =>
    refine ⟨⟨ha, fun l w hp hn => ?_, fun now later he => ?_⟩,
      ih (hr.touch h.1) (acyclic_touch ha h.1) h.2⟩
    · rcases points_touch h.1 hp with hold | ⟨hl, hw, -⟩
      · exact absurd hold hn
      · exact ⟨hl, hw⟩
    · apply lasting_final hr
      rw [he] at h
      exact (along_append.1 h).1

def Logged (host : Host) : Process → List Action → List (List Touch) → Prop
  | _, [], [] => True
  | p, a :: acts, ts :: logs =>
    final Vault.touch p.vault ts = (step host p a).vault ∧ Logged host (step host p a) acts logs
  | _, _, _ => False

theorem logged_of_outcome (host : Host) (h : Outcome {} p) (acts : List Action) :
    ∃ logs, Logged host p acts logs ∧
      Along Vault.touch (fun v t _ => Proper v t) p.vault logs.flatten := by
  induction acts generalizing p with
  | nil => exact ⟨[], trivial, trivial⟩
  | cons a acts ih =>
    have hstep := outcome_step host h a
    obtain ⟨ts, hts, hfinal⟩ := hstep.moves
    obtain ⟨logs, hlogs, hproper⟩ := ih (h.trans hstep)
    refine ⟨ts :: logs, ⟨hfinal, hlogs⟩, ?_⟩
    rw [List.flatten_cons]
    apply along_append.2
    rw [hfinal]
    exact ⟨hts, hproper⟩

theorem acyclic_empty : Acyclic (Points {}) := by
  intro x hx
  obtain ⟨y, ⟨r, hr, -⟩, -⟩ := Relation.TransGen.head'_iff.1 hx
  cases hr

/-- Over any sequence of writes, consolidation runs and deletions, call by call: the pointers form
a forest, a winner is active when it supersedes, and what was superseded never comes back. -/
theorem superseded_forest (host : Host) (acts : List Action) :
    Acyclic (Points (final (step host) {} acts).vault) ∧
      ∃ logs, Logged host {} acts logs ∧ Along Vault.touch Orderly {} logs.flatten := by
  have houtcome := outcome_final host acts
  constructor
  · obtain ⟨ts, hts, hfinal⟩ := houtcome.moves
    rw [← hfinal]
    exact final_of_along (I := fun v => Acyclic (Points v)) acyclic_empty
      (fun _ _ ha hp => acyclic_touch ha hp) hts
  · obtain ⟨logs, hlogs, hproper⟩ := logged_of_outcome host ⟨Sound.start, .refl _⟩ acts
    exact ⟨logs, hlogs, orderly_along .empty acyclic_empty hproper⟩

theorem Prevails.asymm (h : Prevails a b) (h' : Prevails b a) : a.id = b.id := by
  have hids : Records.Earlier a b → Records.Earlier b a → a.id = b.id := by
    intro hab hba
    rcases hab with hlt | ⟨heq, hid⟩
    · rcases hba with hlt' | ⟨heq, -⟩
      · exact absurd hlt' (lt_asymm hlt)
      · exact absurd heq (ne_of_gt hlt)
    · rcases hba with hlt' | ⟨-, hid'⟩
      · exact absurd heq (ne_of_gt hlt')
      · exact String.le_antisymm hid hid'
  rcases h with ⟨hba, hr⟩ | ⟨hab, hr⟩
  · rcases h' with ⟨hab, -⟩ | ⟨-, hr'⟩
    · exact hids hab hba
    · exact absurd hr' (Nat.not_lt.2 hr)
  · rcases h' with ⟨-, hr'⟩ | ⟨-, hr'⟩
    · exact absurd hr (Nat.not_lt.2 hr')
    · exact absurd hr (Nat.lt_asymm hr')

def Undecidable (v : Vault) (e : MemoryEdge) : Prop :=
  ∀ winner loser, v.records.get? winner.id = some winner → v.records.get? loser.id = some loser →
    (winner.id = e.srcId ∧ loser.id = e.dstId ∨ winner.id = e.dstId ∧ loser.id = e.srcId) →
    winner.supersededBy = none → loser.supersededBy = none → winner.scope = loser.scope →
    Prevails winner loser → maySupersede winner loser = false

theorem maySupersede_self {winner loser : MemoryRecord} (h : winner.id = loser.id) :
    maySupersede winner loser = false := by
  cases hmay : maySupersede winner loser with
  | false => rfl
  | true => exact absurd h (supersedes_of_may hmay).other

theorem contest_eq_false (h : maySupersede (contest a b).1 (contest a b).2 = false)
    (hwins : Prevails winner loser) (hends : winner = a ∧ loser = b ∨ winner = b ∧ loser = a) :
    maySupersede winner loser = false := by
  have hcontest := contest_prevails a b
  rcases contest_cases a b with hc | hc
  · rw [hc] at h hcontest
    rcases hends with ⟨rfl, rfl⟩ | ⟨rfl, rfl⟩
    · exact h
    · exact maySupersede_self (hwins.asymm hcontest)
  · rw [hc] at h hcontest
    rcases hends with ⟨rfl, rfl⟩ | ⟨rfl, rfl⟩
    · exact maySupersede_self (hwins.asymm hcontest)
    · exact h

theorem Settled.undecidable (h : Settled v e) : Undecidable v e := by
  intro winner loser hw hl hends haw hal hscope hwins
  rcases hends with ⟨hsrc, hdst⟩ | ⟨hdst, hsrc⟩
  · rw [hsrc] at hw
    rw [hdst] at hl
    exact contest_eq_false (h winner loser hw hl haw hal hscope) hwins (Or.inl ⟨rfl, rfl⟩)
  · rw [hdst] at hw
    rw [hsrc] at hl
    exact contest_eq_false (h loser winner hl hw hal haw hscope.symm) hwins (Or.inr ⟨rfl, rfl⟩)

/-- After a run from any reachable memory no open contradiction of its window can still be
decided, and in every closed one the record that prevails has superseded the other. -/
theorem contradictions_decided (host : Host) (acts : List Action) (c : Consolidator)
    (scope : MemoryScope) (env : ConsolidationEnv) :
    (∀ r ∈ windowOf c (final (step host) {} acts) scope, ∀ holder,
      (step host (final (step host) {} acts) (.consolidate c scope env)).vault.records.get? r.id =
        some holder →
      ∀ e ∈ holder.edges, e.relation = .contradicts ∨ e.relation = .updates → e.validTo = none →
        Undecidable (step host (final (step host) {} acts) (.consolidate c scope env)).vault e) ∧
    ∀ id holder,
      (step host (final (step host) {} acts) (.consolidate c scope env)).vault.records.get? id =
        some holder →
      ∀ e ∈ holder.edges, e.validTo ≠ none →
        Decided (step host (final (step host) {} acts) (.consolidate c scope env)).vault e := by
  have hreached := outcome_final host acts
  have hran := ran_step host c scope env hreached
  constructor
  · intro r hr holder hh e he hrel hopen
    have hres : resolvable e = true := by
      rw [resolvable, hopen, Bool.and_eq_true, Bool.or_eq_true, decide_eq_true_eq,
        decide_eq_true_eq]
      exact ⟨hrel, rfl⟩
    exact (hran.resolved r hr holder hh e he hres).undecidable
  · intro id holder hh e he hclosed
    have hedged := (hreached.trans hran.toOutcome).edged
    exact (hedged id holder hh e he).2.2 hclosed

end Prismal.Memory
