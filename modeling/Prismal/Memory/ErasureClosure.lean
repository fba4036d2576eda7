import Prismal.Memory.Erasing

namespace Prismal.Memory
open Prismal.Lib Prismal.Lib.Run
set_option autoImplicit true

/-! What is derived from erased records goes with them. -/

def Erased (v v' : Vault) (id : String) : Prop := id ∈ v.records ∧ id ∉ v'.records

/-- The record cites one of these ids, or a record that may be passed and cites one itself. -/
inductive Cites (records : Records) (passes : MemoryRecord → Prop) (gone : String → Prop) :
    MemoryRecord → Prop
  | direct (hm : m ∈ r.provenance.sourceMessageIds) (hg : gone m) : Cites records passes gone r
  | through (hm : q.id ∈ r.provenance.sourceMessageIds) (hq : records.get? q.id = some q)
      (hp : passes q) (h : Cites records passes gone q) : Cites records passes gone r

/-- Nothing that is left inside the scope stems from what was erased, and no edge leads there. -/
structure ErasureClosed (passes : MemoryRecord → Prop) (scope : MemoryScope) (v v' : Vault) :
    Prop where
  citations : ∀ id r, v'.records.get? id = some r → withinErasureScope scope r.scope = true →
    ¬ Cites v.records passes (Erased v v') r
  superseded : ∀ id r, v'.records.get? id = some r → withinErasureScope scope r.scope = true →
    ∀ w, r.supersededBy = some w → ¬ Erased v v' w
  edges : ∀ id r, v'.records.get? id = some r → ∀ e ∈ r.edges, ¬ Erased v v' e.dstId

section

variable {v v' : Vault} {scope : MemoryScope} {ids ts : List String} {id : String}
  {r : MemoryRecord} {p : Process}

theorem Purged.mem (h : Purged v scope ts ids p) (hid : Erased v p.vault id) : id ∈ ids := by
  obtain ⟨q, hq, hp⟩ := h
  by_contra hnot
  obtain ⟨r, hr⟩ := Dict.mem_iff_get?.1 (hq.stays id hid.1)
  exact hid.2 (Dict.mem_of_get? ((hp id r).2 ⟨hr, Or.inl hnot⟩))

theorem Dropped.same (h : Dropped ids todo r r') : r'.scope = r.scope ∧
    r'.provenance = r.provenance ∧ r'.supersededBy = r.supersededBy := by
  rcases h with ⟨rfl, -⟩ | rfl
  · exact ⟨rfl, rfl, rfl⟩
  · exact ⟨rfl, rfl, rfl⟩

theorem Purged.came (h : Purged v scope ts ids p) (hr' : p.vault.records.get? id = some r') :
    id ∉ ids ∧ ∃ r, v.records.get? id = some r ∧
      Dropped ids (fun r => r ∉ inScope v.records scope) r r' := by
  obtain ⟨q, hq, hp⟩ := h
  obtain ⟨hr', hout⟩ := (hp id r').1 hr'
  obtain ⟨r, hr, hd⟩ := hq.came id r' hr'
  refine ⟨fun hid => ?_, r, hr, hd⟩
  rw [hd.same.1, covers_of_within (hq.named id hid r hr)] at hout
  rcases hout with hout | hout
  · exact hout hid
  · cases hout

theorem Purged.erased (h : Purged v scope ts ids p) (hid : id ∈ ts) (hr : id ∈ v.records) :
    Erased v p.vault id := by
  refine ⟨hr, fun hleft => ?_⟩
  obtain ⟨r', hr'⟩ := Dict.mem_iff_get?.1 hleft
  have hnot := (h.came hr').1
  obtain ⟨q, hq, -⟩ := h
  exact hnot (hq.targets id hid)

theorem Purged.left (h : Purged v scope ts ids p) (hk : v.records.Keyed)
    (hr : v.records.get? id = some r) (hts : id ∉ ts) (hout : r ∉ inScope v.records scope) :
    ∃ r', p.vault.records.get? id = some r' ∧ r'.scope = r.scope ∧
      r'.provenance = r.provenance := by
  obtain ⟨q, hq, hp⟩ := h
  have hnot : id ∉ ids := by
    intro hid
    obtain ⟨q', hq', rfl⟩ := (hq.listed id hid).resolve_left hts
    obtain rfl := Option.some.inj (hr.symm.trans (inScope_stored hk q' hq'))
    exact hout hq'
  obtain ⟨r', hr'⟩ := Dict.mem_iff_get?.1 (hq.stays id (Dict.mem_of_get? hr))
  obtain ⟨r₀, hr₀, hd⟩ := hq.came id r' hr'
  obtain rfl := Option.some.inj (hr.symm.trans hr₀)
  exact ⟨r', (hp id r').2 ⟨hr', Or.inl hnot⟩, hd.same.1, hd.same.2.1⟩

theorem Purged.stems (h : Purged v scope ts ids p) (hk : v.records.Keyed)
    (hfit : Fits v.records scope) (hr : v.records.get? id = some r)
    (hin : withinErasureScope scope r.scope = true) (hstems : Stems ids r) : id ∈ ids := by
  obtain ⟨q, hq, -⟩ := h
  rw [← hk id r hr]
  exact hq.closed r (mem_inScope hfit hr (covers_of_within hin)) hin hstems

theorem Purged.cites (h : Purged v scope ts ids p) (hk : v.records.Keyed)
    (hfit : Fits v.records scope)
    (hc : Cites v.records (fun q => withinErasureScope scope q.scope = true)
      (Erased v p.vault) r') (hr : v.records.get? id = some r)
    (hsame : r'.provenance = r.provenance) (hin : withinErasureScope scope r.scope = true) :
    id ∈ ids := by
  induction hc generalizing id r with
  | direct hm hg =>
    rw [hsame] at hm
    exact h.stems hk hfit hr hin (Or.inl ⟨_, hm, h.mem hg⟩)
  | through hm hq hp _ ih =>
    rw [hsame] at hm
    exact h.stems hk hfit hr hin (Or.inl ⟨_, hm, ih hq rfl hp⟩)

theorem Purged.closed (h : Purged v scope ts ids p) (hfit : Fits v.records scope)
    (he : Edged v) (hv : Reach v) :
    ErasureClosed (fun q => withinErasureScope scope q.scope = true) scope v p.vault where
  citations id r' hr' hin hc := by
    obtain ⟨hnot, r, hr, hd⟩ := h.came hr'
    rw [hd.same.1] at hin
    exact hnot (h.cites hv.keyed hfit hc hr hd.same.2.1 hin)
  superseded id r' hr' hin w hw herased := by
    obtain ⟨hnot, r, hr, hd⟩ := h.came hr'
    rw [hd.same.1] at hin
    rw [hd.same.2.2] at hw
    exact hnot (h.stems hv.keyed hfit hr hin (Or.inr ⟨w, hw, h.mem herased⟩))
  edges id r' hr' e hmem herased := by
    have hdst := h.mem herased
    have hno : ∀ {q}, e ∈ keptEdges ids q → False := by
      intro q he
      have hboth := (List.mem_filter.1 he).2
      rw [Bool.and_eq_true, decide_eq_true_eq, decide_eq_true_eq] at hboth
      exact hboth.2 hdst
    obtain ⟨hnot, r, hr, ⟨rfl, hout | hgone | hkept⟩ | rfl⟩ := h.came hr'
    · -- whoever holds an edge to an erased record is visible to the scope
      apply hout
      apply mem_inScope hfit hr
      obtain ⟨-, ⟨w, hw, hsees⟩, -⟩ := he id r' hr e hmem
      obtain ⟨d, hd⟩ := Dict.mem_iff_get?.1 herased.1
      obtain ⟨w', hw', ho⟩ := hv.origin hd
      obtain rfl := Option.some.inj (hw.symm.trans hw')
      rw [ho.2.1] at hsees
      obtain ⟨q, hq, -⟩ := h
      exact covers_of_within_of_covers (hq.named _ hdst d hd) hsees
    · rw [hv.keyed id r' hr] at hgone
      exact hnot hgone
    · exact hno (hkept ▸ hmem)
    · exact hno hmem

end

/-- After a deletion with derived records that returns, nothing inside the scope cites an erased
record, directly or through records of the scope, or gave way to one, and no edge leads to one.
The loop of the closure ends on every graph of citations. -/
theorem erasure_closed (host : Host) (acts : List Action) (selector : ForgetSelector)
    (scope : MemoryScope) (actor : Option ForgetActor) (env : ForgetEnv)
    (hscope : selector.scope = some scope) (hderived : selector.includeDerived = true)
    (hfit : Fits (final (step host) {} acts).vault.records scope)
    (hok : execute selector actor env (final (step host) {} acts) = .ok count p) :
    ErasureClosed (fun q => withinErasureScope scope q.scope = true) scope
        (final (step host) {} acts).vault p.vault ∧
      ∀ (rs : List MemoryRecord) (ts : List String),
        (closure scope rs ts).changed = false ∧ ∀ fuel, rs.length < fuel →
          Closure.run scope rs fuel ⟨ts, [], [], true⟩ = closure scope rs ts := by
  have h := outcome_final host acts
  have hv := h.reach
  have hres := execute_purged hscope hderived hv.keyed actor env
    (final (step host) {} acts) rfl
  rw [hok] at hres
  obtain ⟨ids, hids⟩ := hres
  exact ⟨hids.closed hfit h.edged hv, fun rs ts => closure_ends scope rs ts⟩

def userScope : MemoryScope := { acme with userId := some "u1" }

def userContext : MemoryContext := { acmeContext with scope := userScope }

def dash (sources : List String) : MemoryCandidate := ⟨"-", sources, .conversation, none⟩

theorem neighborsOf_dash (records : Records) :
    neighborsOf plainHost openGate.policy "-" userContext records = [] := by
  have htokens : tokens plainHost.unicode "-" = ∅ := by rfl
  have hnone : ∀ r, Records.hit plainHost.unicode "-" userContext.scope none false r = none := by
    intro r
    simp [Records.hit, overlapScore, htokens]
  rw [neighborsOf, Records.search, List.filterMap_eq_nil_iff.2 fun r _ => hnone r]
  rfl

def noted (sources : List String) (p : Process) : MemoryRecord :=
  built (dash sources) userContext (gateOff (dash sources) false) .episodic false []
    (plainHost.clock p.clockReads) (recordId (max p.idDraws (p.vault.lastId + 1)) 0)

def noteDash (sources : List String) : Action :=
  .write openGate (dash sources) userContext false [] {}

theorem step_dash (sources : List String) (p : Process) :
    step plainHost p (noteDash sources) =
      (p.tick.drew (max p.idDraws (p.vault.lastId + 1))).onVault fun v =>
        v.put (noted sources p) := by
  have hb : bound openGate.policy (dash sources).content
    (plainHost.sanitize (dash sources).content) = "" := by
    change bound openGate.policy "-" "-" = ""
    rfl
  have hrun : openGate.evaluate plainHost (dash sources) userContext false [] {} =
      (do
        let p ← get
        openGate.admit plainHost (dash sources) userContext false [] {}
          (neighborsOf plainHost openGate.policy "-" userContext p.vault.records)) := by
    rw [WriteGate.evaluate]
    simp only [hb]
    rfl
  rw [step, noteDash, Action.run, hrun]
  simp only [neighborsOf_dash]
  rfl

/-- `n` notes were written, one after the other. -/
structure Flooded (f : ForgetPolicy) (n : Nat) (p : Process) : Prop where
  outcome : Outcome {} p
  forget : p.forget = f
  draws : p.idDraws = n
  last : p.vault.lastId = n
  count : p.vault.records.keys.length = n
  first : 0 < n → recordId 1 0 ∈ p.vault.records
  all : ∀ id r, p.vault.records.get? id = some r →
    r.scope = userScope ∧ r.provenance.createdAt < p.clockReads

theorem noted_fresh (sources : List String) (hv : Reach p.vault) :
    (noted sources p).id ∉ p.vault.records := by
  intro hm
  obtain ⟨r, hr⟩ := Dict.mem_iff_get?.1 hm
  obtain ⟨q, hq, -⟩ := hv.origin hr
  have hlt : p.vault.lastId < max p.idDraws (p.vault.lastId + 1) := by omega
  exact hv.fresh hlt (Dict.mem_of_get? hq)

theorem Flooded.step (h : Flooded f n p) (sources : List String) :
    Flooded f (n + 1) (Memory.step plainHost p (noteDash sources)) := by
  have hout := h.outcome.trans (outcome_step plainHost h.outcome (noteDash sources))
  have hmax : max p.idDraws (p.vault.lastId + 1) = n + 1 := by
    rw [h.draws, h.last]
    omega
  rw [step_dash] at hout ⊢
  refine ⟨hout, h.forget, congrArg (· + 1) h.draws, hmax, ?_, fun _ => ?_, fun id r hr => ?_⟩
  · change (Dict.set p.vault.records _ _).keys.length = n + 1
    rw [Dict.keys_set_new (noted_fresh sources h.outcome.reach), List.length_append, h.count]
    rfl
  · apply (Dict.mem_set _).2
    cases n with
    | zero =>
      rw [noted, built, hmax]
      exact Or.inl rfl
    | succ n => exact Or.inr (h.first (Nat.succ_pos n))
  · change (Records.put _ (noted sources p)).get? id = some r at hr
    have hclock : (p.clockReads : Rat) < (p.clockReads + 1 : Nat) := by
      exact_mod_cast Nat.lt_succ_self p.clockReads
    rw [Records.get?_put] at hr
    split at hr
    · cases hr
      exact ⟨rfl, hclock⟩
    · obtain ⟨hs, ht⟩ := h.all id r hr
      exact ⟨hs, ht.trans hclock⟩

def eraseFirst : ForgetSelector where
  recordIds := [recordId 1 0]
  scope := some userScope

def filed : List Action :=
  [.request eraseFirst "agent" "1", .approve "fgt_1" "anna" .agrees]

theorem filed_approved : ∃ req,
    (final (step plainHost) {} filed).forget.requests.get? "fgt_1" = some req ∧
      mayExecute req eraseFirst anna = none := by
  have hany : ((final (step plainHost) {} filed).forget.requests.get? "fgt_1").any
      (fun req => decide (mayExecute req eraseFirst anna = none)) = true := by rfl
  obtain ⟨req, hreq, hmay⟩ := (Option.any_eq_true _ _).1 hany
  exact ⟨req, hreq, of_decide_eq_true hmay⟩

theorem flooded_dashes (n : Nat) :
    Flooded (final (step plainHost) {} filed).forget n
      (final (step plainHost) {} (filed ++ List.replicate n (noteDash []))) := by
  induction n with
  | zero =>
    rw [List.replicate_zero, List.append_nil]
    refine ⟨outcome_final plainHost filed, rfl, by rfl, by rfl,
      by rfl, fun h => absurd h (Nat.lt_irrefl 0), fun id r hr => ?_⟩
    have hnone : (final (step plainHost) {} filed).vault.records.keys = [] := by rfl
    have hmem := Dict.mem_iff_keys.1 (Dict.mem_of_get? hr)
    rw [hnone] at hmem
    cases hmem
  | succ n ih =>
    rw [List.replicate_succ', ← List.append_assoc, final_append, final_singleton]
    exact ih.step []

/-- `n` notes and one more, which cites the first. -/
def crowd (n : Nat) : List Action :=
  filed ++ List.replicate n (noteDash []) ++ [noteDash [recordId 1 0]]

theorem flooded_crowd (n : Nat) : Flooded (final (step plainHost) {} filed).forget (n + 1)
    (final (step plainHost) {} (crowd n)) := by
  rw [crowd, final_append, final_singleton]
  exact (flooded_dashes n).step _

theorem Flooded.latest (h : Flooded f n p) (hn : 0 < n) :
    ∃ r, (Memory.step plainHost p (noteDash [recordId 1 0])).vault.records.get? r.id = some r ∧
      r.scope = userScope ∧ recordId 1 0 ∈ r.provenance.sourceMessageIds ∧ r.id ≠ recordId 1 0 ∧
      ∀ id q, (Memory.step plainHost p (noteDash [recordId 1 0])).vault.records.get? id = some q →
        id ≠ r.id → q.provenance.createdAt < r.provenance.createdAt := by
  rw [step_dash]
  refine ⟨noted [recordId 1 0] p, Dict.get?_set_self _ _ _, rfl, List.mem_singleton_self _, ?_,
    fun id q hq hne => ?_⟩
  · intro he
    have hfresh := noted_fresh [recordId 1 0] h.outcome.reach
    rw [he] at hfresh
    exact hfresh (h.first hn)
  · have hold := (Dict.get?_set_ne _ hne.symm).symm.trans hq
    exact (h.all id q hold).2

theorem crowd_latest (hn : 0 < n) :
    ∃ r, (final (step plainHost) {} (crowd n)).vault.records.get? r.id = some r ∧
      r.scope = userScope ∧ recordId 1 0 ∈ r.provenance.sourceMessageIds ∧ r.id ≠ recordId 1 0 ∧
      ∀ id q, (final (step plainHost) {} (crowd n)).vault.records.get? id = some q →
        id ≠ r.id → q.provenance.createdAt < r.provenance.createdAt := by
  rw [crowd, final_append, final_singleton]
  exact (flooded_dashes n).latest hn

theorem Flooded.not_fits (h : Flooded f n p) (hn : listLimit < n) :
    ¬ Fits p.vault.records userScope := by
  have hall : (p.vault.records.values.filter fun r => userScope.covers r.scope) =
      p.vault.records.values := by
    apply List.filter_eq_self.2
    intro r hr
    obtain ⟨id, hid⟩ := Dict.mem_values.1 hr
    rw [(h.all id r hid).1]
    rfl
  have hlen : p.vault.records.values.length = n := by
    rw [← h.count, Dict.values, Dict.keys, List.length_map, List.length_map]
  rw [Fits, hall, hlen]
  exact Nat.not_le_of_lt hn

theorem Flooded.target (h : Flooded f n p) (hn : 0 < n) :
    recordId 1 0 ∈ targets p.vault.records eraseFirst userScope := by
  obtain ⟨r, hr⟩ := Dict.mem_iff_get?.1 (h.first hn)
  have hscope := (h.all _ r hr).1
  have hself : userScope.covers userScope = true := by rfl
  have hin : withinErasureScope userScope userScope = true := by rfl
  have hget : p.vault.records.get (recordId 1 0) userScope = some r :=
    Records.get_eq_some.2 ⟨hr, hscope ▸ hself⟩
  have hcand : candidates p.vault.records eraseFirst userScope = [r] := by
    change ([recordId 1 0].filterMap fun id => p.vault.records.get id userScope) = [r]
    simp only [List.filterMap_cons, hget, List.filterMap_nil]
  rw [targets, hcand]
  have htargeted : targeted p.vault.records eraseFirst userScope r = true := by
    rw [targeted, hscope, hin]
    rfl
  rw [List.filter_cons_of_pos htargeted]
  exact List.mem_singleton.2 (h.outcome.reach.keyed _ r hr).symm

theorem Flooded.target_eq (h : Flooded f n p) {id : String}
    (hid : id ∈ targets p.vault.records eraseFirst userScope) : id = recordId 1 0 := by
  obtain ⟨r, hr, rfl⟩ := List.mem_map.1 hid
  have hcand := (List.mem_filter.1 hr).1
  obtain ⟨i, hi, hget⟩ := List.mem_filterMap.1 hcand
  rw [h.outcome.reach.keyed i r (Records.get_eq_some.1 hget).1]
  exact List.mem_singleton.1 hi

theorem crowd_left (hn : listLimit ≤ n) (hpos : 0 < n) : ∃ count p,
    execute eraseFirst (some anna) {} (final (step plainHost) {} (crowd n)) = .ok count p ∧
      ¬ ErasureClosed (fun q => withinErasureScope userScope q.scope = true) userScope
        (final (step plainHost) {} (crowd n)).vault p.vault := by
  have h := flooded_crowd n
  have hk := h.outcome.reach.keyed
  obtain ⟨req, hreq, hmay⟩ := filed_approved
  rw [← h.forget] at hreq
  obtain ⟨count, p, ids, hok, hp⟩ := execute_ok eraseFirst anna {} rfl rfl hk rfl hreq hmay rfl
    (fun _ _ => rfl)
  refine ⟨count, p, hok, fun hclosed => ?_⟩
  obtain ⟨r, hr, hscope, hcites, hne, hlatest⟩ := crowd_latest hpos
  have hout := latest_not_listed hk hlatest (h.not_fits (Nat.lt_succ_of_le hn))
  obtain ⟨r', hr', hscope', hprov⟩ := hp.left hk hr (fun ht => hne (h.target_eq ht)) hout
  have hin : withinErasureScope userScope r'.scope = true := by
    rw [hscope', hscope]
    rfl
  have herased := hp.erased (h.target (Nat.succ_pos n)) (h.first (Nat.succ_pos n))
  apply hclosed.citations _ r' hr' hin
  apply Cites.direct _ herased
  rw [hprov]
  exact hcites

def noteIn (scope : MemoryScope) (content : String) (sources : List String) : Action :=
  .write openGate ⟨content, sources, .conversation, none⟩ { acmeContext with scope := scope } false
    [] {}

def citingNotes : List Action :=
  filed ++ [noteIn userScope "tea" [], noteIn userScope "milk" [recordId 1 0]]

def wideNotes : List Action :=
  filed ++ [noteIn userScope "tea" [], noteIn acme "milk" [recordId 1 0],
    noteIn userScope "oats" [recordId 2 0]]

def firstErased (acts : List Action) : EStateM.Result Fault Process Nat :=
  execute eraseFirst (some anna) {} (final (step plainHost) {} acts)

theorem firstErased_ok (acts : List Action) (h : raises (firstErased acts) = false) :
    ∃ count, firstErased acts = .ok count (after (firstErased acts)) := by
  cases hres : firstErased acts with
  | ok count p => exact ⟨count, rfl⟩
  | error e p =>
    rw [hres] at h
    cases h

/-- Both notes of the user are erased. -/
theorem erasure_closed_citing : ∃ count p, firstErased citingNotes = .ok count p ∧
    ErasureClosed (fun q => withinErasureScope userScope q.scope = true) userScope
      (final (step plainHost) {} citingNotes).vault p.vault := by
  obtain ⟨count, hok⟩ := firstErased_ok citingNotes (by decide +kernel)
  refine ⟨count, _, hok, ?_⟩
  have hfit : Fits (final (step plainHost) {} citingNotes).vault.records userScope := by
    rw [Fits]
    decide +kernel
  exact (erasure_closed plainHost citingNotes eraseFirst userScope (some anna) {} rfl rfl hfit
    hok).1

theorem wide_left : ∃ count p, firstErased wideNotes = .ok count p ∧
    ¬ ErasureClosed (fun _ => True) userScope (final (step plainHost) {} wideNotes).vault
      p.vault := by
  obtain ⟨count, hok⟩ := firstErased_ok wideNotes (by decide +kernel)
  refine ⟨count, _, hok, fun hclosed => ?_⟩
  have hmid : ((final (step plainHost) {} wideNotes).vault.records.get? (recordId 2 0)).any
      (fun q => decide (q.id = recordId 2 0 ∧ recordId 1 0 ∈ q.provenance.sourceMessageIds)) =
        true := by decide +kernel
  have hlast : ((after (firstErased wideNotes)).vault.records.get? (recordId 3 0)).any
      (fun r => decide (recordId 2 0 ∈ r.provenance.sourceMessageIds) &&
        withinErasureScope userScope r.scope) = true := by decide +kernel
  have hgone : recordId 1 0 ∈ (final (step plainHost) {} wideNotes).vault.records ∧
      recordId 1 0 ∉ (after (firstErased wideNotes)).vault.records := by decide +kernel
  obtain ⟨q, hq, hqfacts⟩ := (Option.any_eq_true _ _).1 hmid
  obtain ⟨r, hr, hrfacts⟩ := (Option.any_eq_true _ _).1 hlast
  obtain ⟨hid, hqcites⟩ := of_decide_eq_true hqfacts
  rw [Bool.and_eq_true, decide_eq_true_eq] at hrfacts
  apply hclosed.citations _ r hr hrfacts.2
  apply Cites.through _ _ trivial (.direct hqcites hgone)
  · rw [hid]
    exact hrfacts.1
  · rw [hid]
    exact hq

/-- A record that cites an erased one through a record outside the scope is left, and so is one
that a full listing does not show. -/
theorem erasure_left :
    (∃ count p, firstErased wideNotes = .ok count p ∧
      ¬ ErasureClosed (fun _ => True) userScope (final (step plainHost) {} wideNotes).vault
        p.vault) ∧
    ∃ count p, firstErased (crowd listLimit) = .ok count p ∧
      ¬ ErasureClosed (fun q => withinErasureScope userScope q.scope = true) userScope
        (final (step plainHost) {} (crowd listLimit)).vault p.vault :=
  ⟨wide_left, crowd_left (Nat.le_refl _) (by decide +kernel)⟩

end Prismal.Memory
