import Prismal.Memory.Approvals
import Prismal.Memory.System

namespace Prismal.Memory
open Prismal.Lib Prismal.Lib.Run
set_option autoImplicit true

/-! What a deletion with derived records is about to purge, and what it leaves. -/

def Fits (records : Records) (scope : MemoryScope) : Prop :=
  (records.values.filter fun r => scope.covers r.scope).length ≤ listLimit

variable {v v' : Vault} {scope : MemoryScope} {rs rest : List MemoryRecord}
  {gone ids ts : List String} {id : String} {r : MemoryRecord}

def Dropped (gone : List String) (todo : MemoryRecord → Prop) (r r' : MemoryRecord) : Prop :=
  r' = r ∧ (todo r ∨ r.id ∈ gone ∨ keptEdges gone r = r.edges) ∨
    r' = r.withEdges (keptEdges gone r)

/-- The records of `v` while the edges of `rs` are dropped; `rest` is still to do. -/
structure Dropping (v : Vault) (gone : List String) (rs rest : List MemoryRecord) (p : Process) :
    Prop where
  todo : ∀ r ∈ rest, r ∈ rs ∧ p.vault.records.get? r.id = some r
  nodup : (rest.map MemoryRecord.id).Nodup
  came : ∀ id r', p.vault.records.get? id = some r' → ∃ r, v.records.get? id = some r ∧
    Dropped gone (fun r => r ∉ rs ∨ r ∈ rest) r r'
  stays : ∀ id ∈ v.records, id ∈ p.vault.records

theorem dropEdges_dropping (hk : v.records.Keyed) (hrs : ∀ r ∈ rs, v.records.get? r.id = some r)
    (r : MemoryRecord) (rest : List MemoryRecord) :
    Spec (Dropping v gone rs (r :: rest)) (dropEdges gone r) (fun _ => Dropping v gone rs rest)
      (fun _ _ => False) := by
  rintro p ⟨htodo, hn, hcame, hstays⟩
  rw [List.forall_mem_cons] at htodo
  rw [List.map_cons, List.nodup_cons] at hn
  obtain ⟨⟨hr, hp⟩, htodo⟩ := htodo
  have hother : ∀ {id q r'}, v.records.get? id = some q →
      Dropped gone (fun q => q ∉ rs ∨ q ∈ r :: rest) q r' →
      (q = r → r.id ∈ gone ∨ keptEdges gone r = r.edges) →
      Dropped gone (fun q => q ∉ rs ∨ q ∈ rest) q r' := by
    intro id q r' _ hd hhead
    apply hd.imp_left
    rintro ⟨rfl, hd⟩
    refine ⟨rfl, ?_⟩
    rcases hd with (hout | hin) | hd
    · exact Or.inl (Or.inl hout)
    · rcases List.mem_cons.1 hin with rfl | hin
      · exact Or.inr (hhead rfl)
      · exact Or.inl (Or.inr hin)
    · exact Or.inr hd
  rw [dropEdges]
  split
  next hskip =>
    refine ⟨htodo, hn.2, fun id r' hr' => ?_, hstays⟩
    obtain ⟨q, hq, hd⟩ := hcame id r' hr'
    exact ⟨q, hq, hother hq hd fun _ => hskip⟩
  next hdrop =>
    rw [update_ok (r := r.withEdges (keptEdges gone r)) hp]
    refine ⟨fun q hq => ⟨(htodo q hq).1, ?_⟩, hn.2, fun id r' hr' => ?_,
      fun id hid => mem_put _ (hstays id hid)⟩
    · have hne : r.id ≠ q.id := fun he => hn.1 (List.mem_map.2 ⟨q, hq, he.symm⟩)
      exact (Dict.get?_set_ne _ hne).trans (htodo q hq).2
    · change (Records.put _ _).get? id = some r' at hr'
      rw [Records.get?_put] at hr'
      split at hr'
      next he =>
        cases hr'
        exact ⟨r, he ▸ hrs r hr, Or.inr rfl⟩
      next hne =>
        obtain ⟨q, hq, hd⟩ := hcame id r' hr'
        refine ⟨q, hq, hother hq hd fun he => absurd ?_ hne⟩
        exact he ▸ hk id q hq

theorem dropAll_dropping (gone : List String) (hk : v.records.Keyed)
    (hrs : ∀ r ∈ rs, v.records.get? r.id = some r) :
    Spec (Dropping v gone rs rs) (rs.forM (dropEdges gone)) (fun _ => Dropping v gone rs [])
      (fun _ _ => False) :=
  Spec.forM fun r rest => dropEdges_dropping hk hrs r rest

theorem listed_all (scope : MemoryScope) :
    Records.listed scope none = fun r => scope.covers r.scope := by
  funext r
  exact Bool.and_true _

theorem mem_inScope (hfit : Fits v.records scope) (hr : v.records.get? id = some r)
    (hc : scope.covers r.scope = true) : r ∈ inScope v.records scope := by
  have hperm := (List.perm_insertionSort Records.Earlier v.records.values).filter
    (Records.listed scope none)
  have hlen : ((v.records.values.insertionSort Records.Earlier).filter
      (Records.listed scope none)).length ≤ listLimit := by
    rw [hperm.length_eq, listed_all]
    exact hfit
  rw [inScope, Records.list, List.take_of_length_le hlen]
  refine List.mem_filter.2 ⟨hperm.mem_iff.2 (List.mem_filter.2 ⟨?_, ?_⟩), hc⟩
  · exact Dict.mem_values.2 ⟨id, hr⟩
  · rw [listed_all]
    exact hc

theorem latest_not_listed {d : Records} (hk : d.Keyed)
    (hlatest : ∀ id q, d.get? id = some q → id ≠ r.id →
      q.provenance.createdAt < r.provenance.createdAt)
    (hmany : ¬ Fits d scope) : r ∉ inScope d scope := by
  intro hmem
  have hperm := List.perm_insertionSort Records.Earlier d.values
  refine not_mem_take_of_last ((sorted_values d).filter _) ?_ ?_ ?_ (List.mem_filter.1 hmem).1
  · have hids := (hperm.map MemoryRecord.id).nodup_iff.2 hk.ids_nodup
    exact (List.Nodup.of_map _ hids).filter _
  · intro b hb hne hearlier
    have hstored := hk.stored ((List.mem_insertionSort _).1 (List.mem_filter.1 hb).1)
    have hr := (Records.mem_list hk (List.mem_filter.1 hmem).1).1
    have hid : b.id ≠ r.id := by
      intro he
      rw [he] at hstored
      exact hne (Option.some.inj (hstored.symm.trans hr))
    have hlt := hlatest b.id b hstored hid
    rcases hearlier with h | ⟨h, -⟩
    · exact absurd (h.trans hlt) (lt_irrefl _)
    · exact absurd h (ne_of_gt hlt)
  · rw [(hperm.filter _).length_eq, listed_all]
    exact Nat.lt_of_not_le hmany

def Stems (ids : List String) (r : MemoryRecord) : Prop :=
  (∃ m ∈ r.provenance.sourceMessageIds, m ∈ ids) ∨ ∃ w, r.supersededBy = some w ∧ w ∈ ids

theorem cites_of_stems {c : Closure} (hids : ∀ id ∈ ids, id ∈ c.gone) (h : Stems ids r) :
    c.cites r = true := by
  rw [Closure.cites, Bool.or_eq_true, List.any_eq_true]
  rcases h with ⟨m, hm, hg⟩ | ⟨w, hw, hg⟩
  · exact Or.inl ⟨m, hm, decide_eq_true (hids m hg)⟩
  · right
    rw [hw]
    exact decide_eq_true (hids w hg)

theorem keptEdges_congr (h : ∀ id, id ∈ gone ↔ id ∈ ids) (r : MemoryRecord) :
    keptEdges gone r = keptEdges ids r := by
  rw [keptEdges, keptEdges]
  simp only [h]

/-- Ids that name no record of `v` outside the scope. -/
def Named (v : Vault) (scope : MemoryScope) (ids : List String) : Prop :=
  ∀ id ∈ ids, ∀ r, v.records.get? id = some r → withinErasureScope scope r.scope = true

/-- What a deletion of `ts` with derived records is about to purge: the ids are closed under what
stems from them, as far as the listing shows it, and no edge leads to them any more. -/
structure Closes (v : Vault) (scope : MemoryScope) (ts ids : List String) (p : Process) :
    Prop where
  came : ∀ id r', p.vault.records.get? id = some r' → ∃ r, v.records.get? id = some r ∧
    Dropped ids (fun r => r ∉ inScope v.records scope) r r'
  stays : ∀ id ∈ v.records, id ∈ p.vault.records
  named : Named v scope ids
  targets : ∀ id ∈ ts, id ∈ ids
  listed : ∀ id ∈ ids, id ∈ ts ∨ ∃ r ∈ inScope v.records scope, r.id = id
  closed : ∀ r ∈ inScope v.records scope, withinErasureScope scope r.scope = true →
    Stems ids r → r.id ∈ ids

theorem targets_named (hk : v.records.Keyed) :
    Named v scope (targets v.records selector scope) := by
  intro id hid r hr
  obtain ⟨q, hq, rfl⟩ := List.mem_map.1 hid
  obtain ⟨hq, ht⟩ := List.mem_filter.1 hq
  obtain rfl := Option.some.inj (hr.symm.trans (candidates_stored hk hq))
  rw [targeted] at ht
  simp only [Bool.and_eq_true] at ht
  exact ht.1.1.1.1

theorem mem_sortedIds : id ∈ sortedIds ts derived ↔ id ∈ ts ∨ id ∈ derived := by
  rw [sortedIds, List.mem_insertionSort, List.mem_dedup, List.mem_append]

theorem inScope_stored (hk : v.records.Keyed) :
    ∀ r ∈ inScope v.records scope, v.records.get? r.id = some r :=
  fun _ hr => (Records.mem_list hk (List.mem_filter.1 hr).1).1

theorem inScope_nodup (hk : v.records.Keyed) :
    ((inScope v.records scope).map MemoryRecord.id).Nodup :=
  (Records.list_nodup hk).sublist (List.filter_sublist.map _)

theorem Dropping.closes (hk : v.records.Keyed) (hts : Named v scope ts)
    (hc : closure scope (inScope v.records scope) ts = c)
    (h : Dropping v c.gone (inScope v.records scope) [] p) :
    Closes v scope ts (sortedIds ts c.derived) p := by
  have hnames := closure_names scope (inScope v.records scope) ts
  rw [hc] at hnames
  have hgone : ∀ id, id ∈ c.gone ↔ id ∈ sortedIds ts c.derived := by
    intro id
    rw [hnames.gone, mem_sortedIds]
  refine ⟨fun id r' hr' => ?_, h.stays, fun id hid r hr => ?_,
    fun id hid => mem_sortedIds.2 (Or.inl hid), fun id hid => ?_, fun r hr hin hstems => ?_⟩
  · obtain ⟨r, hr, hd⟩ := h.came id r' hr'
    refine ⟨r, hr, ?_⟩
    rw [Dropped, keptEdges_congr hgone, hgone] at hd
    apply hd.imp_left
    rintro ⟨rfl, htodo⟩
    refine ⟨rfl, htodo.imp_left ?_⟩
    rintro (hout | hnil)
    · exact hout
    · cases hnil
  · rcases mem_sortedIds.1 hid with hid | hid
    · exact hts id hid r hr
    · obtain ⟨q, hq, rfl, hw⟩ := hnames.derived id hid
      obtain rfl := Option.some.inj (hr.symm.trans (inScope_stored hk q hq))
      exact hw
  · apply (mem_sortedIds.1 hid).imp_right
    intro hd
    obtain ⟨q, hq, hqid, -⟩ := hnames.derived id hd
    exact ⟨q, hq, hqid⟩
  · have hcites := cites_of_stems (fun id hid => (hgone id).2 hid) hstems
    rw [← hgone, ← hc]
    rw [← hc] at hcites
    exact closure_closed (inScope_nodup hk) hr hin hcites

theorem derivedOf_closes (hk : v.records.Keyed) (hts : Named v scope ts) :
    Spec (fun p => p.vault = v) (derivedOf ts scope)
      (fun d => Closes v scope ts (sortedIds ts d.1)) (fun _ _ => False) := by
  apply Spec.bind (Spec.get (P := fun p : Process => p.vault = v)
    (Q := fun q p => q = p ∧ p.vault = v) fun _ h => ⟨rfl, h⟩)
  intro q
  apply Spec.bind (Q := fun _ p => q.vault = v ∧
    Dropping v (closure scope (inScope v.records scope) ts).gone (inScope v.records scope) [] p)
  · rintro p ⟨rfl, rfl⟩
    have hstart : Dropping q.vault (closure scope (inScope q.vault.records scope) ts).gone
        (inScope q.vault.records scope) (inScope q.vault.records scope) q := by
      refine ⟨fun r hr => ⟨hr, inScope_stored hk r hr⟩, inScope_nodup hk,
        fun id r hr => ⟨r, hr, Or.inl ⟨rfl, Or.inl (Classical.em _).symm⟩⟩, fun _ h => h⟩
    exact ((dropAll_dropping _ hk (inScope_stored hk)).post fun _ _ h => ⟨rfl, h⟩) q hstart
  · intro _
    apply Spec.pure
    rintro p ⟨rfl, hp⟩
    exact hp.closes hk hts rfl

theorem deriveTargets_closes (hd : selector.includeDerived = true) (hk : v.records.Keyed)
    (hts : Named v scope ts) :
    Spec (fun p => p.vault = v) (deriveTargets selector scope ts)
      (fun d => Closes v scope ts (sortedIds ts d.1)) (fun _ _ => False) := by
  rw [deriveTargets, hd, Bool.true_and]
  cases ts with
  | cons => exact derivedOf_closes hk hts
  | nil =>
    apply Spec.pure
    rintro p rfl
    have hnil : sortedIds [] [] = [] := rfl
    rw [hnil]
    refine ⟨fun id r hr => ⟨r, hr, Or.inl ⟨rfl, Or.inr (Or.inr ?_)⟩⟩, fun _ h => h, ?_,
      fun _ h => h, fun _ h => Or.inl h, ?_⟩
    · exact List.filter_eq_self.2 fun e _ => rfl
    · exact List.forall_mem_nil _
    · rintro r - - (⟨m, -, hm⟩ | ⟨w, -, hm⟩)
      · cases hm
      · cases hm

def Purged (v : Vault) (scope : MemoryScope) (ts ids : List String) (p : Process) : Prop :=
  ∃ q, Closes v scope ts ids q ∧ ∀ id r, p.vault.records.get? id = some r ↔
    q.vault.records.get? id = some r ∧ (id ∉ ids ∨ scope.covers r.scope = false)

theorem purgeAll_purged (ids : List String) :
    Spec (Closes v scope ts ids) (purgeAll selector scope actor ids)
      (fun _ => Purged v scope ts ids) (fun _ _ => False) := by
  rw [purgeAll]
  split
  next hnil =>
    apply Spec.pure
    intro p hp
    refine ⟨p, hp, fun id r => ?_⟩
    rw [List.isEmpty_iff.1 hnil]
    simp
  next =>
    intro p hp
    exact ⟨p, hp, fun id r => Records.get?_purge _ _ _⟩

def ForgetEnv.Quiet (env : ForgetEnv) : Prop := ∀ hooks ids, env.derivedErrors hooks ids = 0

theorem ForgetEnv.Quiet.groupErrors {env : ForgetEnv} (h : env.Quiet) (work : Dict String Bool)
    (hooks : Bool) : groupErrors env work hooks = 0 := by
  rw [Memory.groupErrors, h]
  split <;> rfl

theorem settle_vault (selector : ForgetSelector) (scope : MemoryScope)
    (request : Option ForgetRequest) (env : ForgetEnv) (ids : List String) (count : Nat)
    {P : Process → Prop} (hP : ∀ p f, P p → P (p.onForget f)) :
    Spec P (settle selector scope request env ids count) (fun _ => P)
      (fun _ _ => ¬ env.Quiet) := by
  apply Spec.bind (Spec.get (Q := fun _ => P) fun _ h => h)
  intro q
  apply Spec.bind (Spec.modify (Q := fun _ => P) fun _ h => hP _ _ h)
  intro _
  split
  next herr =>
    apply Spec.bind (Spec.modify (Q := fun _ => P) fun _ h => hP _ _ h)
    intro _
    apply Spec.throw
    intro p _ hquiet
    exact herr (by rw [hquiet.groupErrors, hquiet.groupErrors])
  next =>
    split
    · exact Spec.pure fun _ h => h
    · apply Spec.bind (Spec.modify (Q := fun _ => P) fun _ h => hP _ _ h)
      exact fun _ => Spec.pure fun _ h => h

theorem authorize_vault (selector : ForgetSelector) (actor : ForgetActor) (env : ForgetEnv)
    {P : Process → Prop} (hP : ∀ p f, P p → P (p.onForget f)) :
    Spec P (authorize selector actor env) (fun _ => P) (fun _ => P) := by
  rw [authorize]
  split
  · apply Spec.bind (Q := fun _ => P)
    · apply Spec.bind (Spec.get (Q := fun _ => P) fun _ h => h)
      intro q
      split
      · exact Spec.modify fun _ h => hP _ _ h
      · exact Spec.throw fun _ h => h
    · exact fun _ => Spec.pure fun _ h => h
  · apply Spec.bind (Q := fun _ => P)
    · apply Spec.bind (Spec.get (Q := fun _ => P) fun _ h => h)
      intro q
      split
      · exact Spec.throw fun _ h => h
      · split
        · exact Spec.throw fun _ h => h
        · split
          · exact Spec.pure fun _ h => h
          · exact Spec.throw fun _ h => h
    · exact fun _ => Spec.pure fun _ h => h
  · exact Spec.throw fun _ h => h

theorem perform_purged (hd : selector.includeDerived = true) (hk : v.records.Keyed)
    (request : Option ForgetRequest) (env : ForgetEnv) :
    Spec (fun p => p.vault = v) (perform selector scope actor request env)
      (fun _ p => ∃ ids, Purged v scope (targets v.records selector scope) ids p)
      (fun _ _ => ¬ env.Quiet) := by
  apply Spec.bind (Spec.get (P := fun p : Process => p.vault = v)
    (Q := fun q p => q = p ∧ p.vault = v) fun _ h => ⟨rfl, h⟩)
  intro q
  apply Spec.bind (Q := fun d => Closes v scope (targets v.records selector scope)
    (sortedIds (targets q.vault.records selector scope) d.1))
  · rintro p ⟨rfl, rfl⟩
    exact ((deriveTargets_closes hd hk (targets_named hk)).conseq (fun _ h => h)
      (fun _ _ h => h) fun _ _ h => h.elim) q rfl
  · intro derived
    apply Spec.bind ((purgeAll_purged _).conseq (fun _ h => h) (fun _ _ h => h)
      fun _ _ h => h.elim)
    intro count
    apply (settle_vault selector scope request env _ count _).post fun _ _ h => ⟨_, h⟩
    exact fun p f h => h

theorem execute_purged (hscope : selector.scope = some scope)
    (hd : selector.includeDerived = true) (hk : v.records.Keyed) (actor : Option ForgetActor)
    (env : ForgetEnv) :
    Spec (fun p => p.vault = v) (execute selector actor env)
      (fun _ p => ∃ ids, Purged v scope (targets v.records selector scope) ids p)
      (fun _ _ => True) := by
  cases actor with
  | none => exact Spec.throw fun _ _ => trivial
  | some actor =>
    simp only [execute, hscope]
    apply Spec.bind ((authorize_vault selector actor env fun p f h => h).conseq (fun _ h => h)
      (fun _ _ h => h) fun _ _ _ => trivial)
    exact fun request => (perform_purged hd hk request env).conseq (fun _ h => h)
      (fun _ _ h => h) fun _ _ _ => trivial

theorem execute_ok (selector : ForgetSelector) (actor : ForgetActor) (env : ForgetEnv)
    (hscope : selector.scope = some scope)
    (hd : selector.includeDerived = true) (hk : p.vault.records.Keyed)
    (hkind : actor.kind = .human)
    (hreq : p.forget.requests.get? (actor.approvalId.getD "") = some req)
    (hmay : mayExecute req selector actor = none) (hperm : env.permitted = true)
    (hquiet : env.Quiet) :
    ∃ n p' ids, execute selector (some actor) env p = .ok n p' ∧
      Purged p.vault scope (targets p.vault.records selector scope) ids p' := by
  have hrun : execute selector (some actor) env p =
      perform selector scope actor (some req) env p := by
    have hstart : executeUntilAwait selector actor p = .ok req p := by
      rw [executeUntilAwait_eq, hreq]
      dsimp only
      rw [hmay]
    rw [execute_parts hscope hkind, bind_of_ok hstart, executeAfterAwait, if_pos hperm]
  have hspec : Spec (fun q => q.vault = p.vault) (perform selector scope actor (some req) env)
      (fun _ q => ∃ ids, Purged p.vault scope (targets p.vault.records selector scope) ids q)
      (fun _ _ => ¬ env.Quiet) := perform_purged hd hk (some req) env
  have hres := hspec p rfl
  rw [hrun]
  cases h : perform selector scope actor (some req) env p with
  | ok n p' =>
    rw [h] at hres
    obtain ⟨ids, hids⟩ := hres
    exact ⟨n, p', ids, rfl, hids⟩
  | error e p' =>
    rw [h] at hres
    exact absurd hquiet hres

end Prismal.Memory
