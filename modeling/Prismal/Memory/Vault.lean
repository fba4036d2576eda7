import Prismal.Lib.Run
import Prismal.Memory.InMemoryBackend

namespace Prismal.Memory
open Prismal.Lib
set_option autoImplicit true

/-- The backend and the last id number of the process. Nothing reads the other fields: every
record as it was put, the ids that consolidation put, and the ids given to `purge`. -/
structure Vault where
  records : Records := ∅
  lastId : Nat := 0
  written : Records := ∅
  summaries : List String := []
  purged : List String := []

namespace Vault

def draw (v : Vault) (n : Nat) : Vault := { v with lastId := n }

def put (v : Vault) (r : MemoryRecord) : Vault :=
  { v with records := v.records.put r, written := v.written.put r }

def putSummary (v : Vault) (r : MemoryRecord) : Vault :=
  { v.put r with summaries := r.id :: v.summaries }

/-- `update` of a record that is stored -/
def store (v : Vault) (r : MemoryRecord) : Vault := { v with records := v.records.put r }

def purge (v : Vault) (ids : List String) (scope : MemoryScope) : Vault :=
  { v with records := (v.records.purge ids scope).1, purged := ids ++ v.purged }

end Vault

structure Gated (r : MemoryRecord) : Prop where
  tainted_episodic : r.provenance.tainted = true → r.type = .episodic
  untrusted_iff : r.provenance.trust = .untrusted ↔ r.provenance.tainted = true
  active : r.supersededBy = none

/-- A record as consolidation builds it from stored ones. -/
structure Summarizes (v : Vault) (r : MemoryRecord) : Prop where
  untainted : r.provenance.tainted = false
  trust : r.provenance.trust ≠ .untrusted
  active : r.supersededBy = none
  cites : ∀ c ∈ r.provenance.sourceMessageIds,
    ∃ q, v.records.get? c = some q ∧ q.provenance.tainted = false

/-- The states of the vault: everything that the program does to it, one effect at a time. -/
inductive Reach : Vault → Prop where
  | empty : Reach {}
  | drawn (h : Reach v) (n : Nat) (hn : v.lastId < n) : Reach (v.draw n)
  | gated (h : Reach v) (r : MemoryRecord) (hid : r.id = recordId v.lastId rand)
      (hnew : r.id ∉ v.written) (hr : Gated r) : Reach (v.put r)
  | summary (h : Reach v) (r : MemoryRecord) (hid : r.id = recordId v.lastId rand)
      (hnew : r.id ∉ v.written) (hr : Summarizes v r) : Reach (v.putSummary r)
  | superseded (h : Reach v) (winner loser : MemoryRecord)
      (hw : v.records.get? winner.id = some winner) (hl : v.records.get? loser.id = some loser)
      (hactive : winner.supersededBy = none) (hopen : loser.supersededBy = none)
      (hmay : maySupersede winner loser = true) : Reach (v.store (loser.supersede winner.id))
  | edges (h : Reach v) (r : MemoryRecord) (es : List MemoryEdge)
      (hr : v.records.get? r.id = some r) : Reach (v.store (r.withEdges es))
  | purged (h : Reach v) (ids : List String) (scope : MemoryScope) : Reach (v.purge ids scope)

def SameOrigin (q r : MemoryRecord) : Prop :=
  q.id = r.id ∧ q.scope = r.scope ∧ q.provenance = r.provenance ∧ q.type = r.type

theorem SameOrigin.refl (r : MemoryRecord) : SameOrigin r r := ⟨rfl, rfl, rfl, rfl⟩

theorem SameOrigin.isTainted (h : SameOrigin q r) : isTainted q = isTainted r := by
  rw [Memory.isTainted, Memory.isTainted, h.2.2.1]

theorem SameOrigin.rank (h : SameOrigin q r) : provenanceRank q = provenanceRank r := by
  rw [provenanceRank, provenanceRank, h.2.2.1]

theorem Supersedes.of_sameOrigin (h : Supersedes w l) (hw : SameOrigin w' w)
    (hl : SameOrigin l' l) : Supersedes w' l' where
  other := by rw [hw.1, hl.1]; exact h.other
  scope := by rw [hw.2.1, hl.2.1]; exact h.scope
  taint := by rw [hw.isTainted, hl.isTainted]; exact h.taint
  rank := by rw [hw.rank, hl.rank]; exact h.rank

namespace Reach

variable {v : Vault} {r q : MemoryRecord} {id : String}

theorem keyed (h : Reach v) : v.records.Keyed := by
  induction h with
  | empty => exact Records.keyed_empty
  | drawn _ _ _ ih => exact ih
  | gated _ r _ _ _ ih => exact ih.put r
  | summary _ r _ _ _ ih => exact ih.put r
  | superseded _ _ _ _ _ _ _ _ ih => exact ih.put _
  | edges _ _ _ _ ih => exact ih.put _
  | purged _ ids scope ih =>
    exact ih.of_subset fun _ _ hr => ((Records.get?_purge _ ids scope).1 hr).1

theorem numbered (h : Reach v) (hid : id ∈ v.written) :
    ∃ n rand, id = recordId n rand ∧ n ≤ v.lastId := by
  induction h with
  | empty => exact absurd hid Dict.not_mem_empty
  | drawn _ n hn ih =>
    obtain ⟨m, rand, he, hm⟩ := ih hid
    exact ⟨m, rand, he, Nat.le_of_lt (Nat.lt_of_le_of_lt hm hn)⟩
  | gated _ r hr _ _ ih | summary _ r hr _ _ ih =>
    rcases (Dict.mem_set _).1 hid with rfl | hid
    · exact ⟨_, _, hr, Nat.le_refl _⟩
    · exact ih hid
  | superseded _ _ _ _ _ _ _ _ ih => exact ih hid
  | edges _ _ _ _ ih => exact ih hid
  | purged _ _ _ ih => exact ih hid

theorem fresh (h : Reach v) (hn : v.lastId < n) : recordId n rand ∉ v.written := by
  intro hm
  obtain ⟨m, rand', he, hle⟩ := h.numbered hm
  have hnm := recordId_injective he
  omega

theorem origin (h : Reach v) (hr : v.records.get? id = some r) :
    ∃ q, v.written.get? id = some q ∧ SameOrigin q r := by
  induction h generalizing id r with
  | empty => cases hr
  | drawn _ _ _ ih => exact ih hr
  | gated _ r' _ _ _ ih | summary _ r' _ _ _ ih =>
    change (Records.put _ r').get? id = some r at hr
    rw [Records.get?_put] at hr
    change ∃ q, (Records.put _ r').get? id = some q ∧ _
    rw [Records.get?_put]
    split at hr
    next he =>
      cases hr
      exact ⟨r', by rw [if_pos he], .refl _⟩
    next hne =>
      rw [if_neg hne]
      exact ih hr
  | superseded _ w l _ hl _ _ _ ih =>
    change (Records.put _ (l.supersede w.id)).get? id = some r at hr
    rw [Records.get?_put] at hr
    split at hr
    next he =>
      cases hr
      obtain ⟨q, hq, hs⟩ := ih hl
      exact ⟨q, he ▸ hq, hs⟩
    next => exact ih hr
  | edges _ r' es hr' ih =>
    change (Records.put _ (r'.withEdges es)).get? id = some r at hr
    rw [Records.get?_put] at hr
    split at hr
    next he =>
      cases hr
      obtain ⟨q, hq, hs⟩ := ih hr'
      exact ⟨q, he ▸ hq, hs⟩
    next => exact ih hr
  | purged _ ids scope ih => exact ih ((Records.get?_purge _ ids scope).1 hr).1

theorem written_put (hnew : r.id ∉ v.written) (hq : v.written.get? id = some q) :
    (v.put r).written.get? id = some q := by
  have hne : r.id ≠ id := fun he => hnew (he ▸ Dict.mem_of_get? hq)
  exact (Dict.get?_set_ne _ hne).trans hq

theorem linked (h : Reach v) (hr : v.records.get? id = some r) (hw : r.supersededBy = some w) :
    ∃ q, v.written.get? w = some q ∧ Supersedes q r := by
  induction h generalizing id r with
  | empty => cases hr
  | drawn _ _ _ ih => exact ih hr hw
  | gated _ r' _ hnew hg ih =>
    change (Records.put _ r').get? id = some r at hr
    rw [Records.get?_put] at hr
    split at hr
    · cases hr
      rw [hg.active] at hw
      cases hw
    · obtain ⟨q, hq, hs⟩ := ih hr hw
      exact ⟨q, written_put hnew hq, hs⟩
  | summary _ r' _ hnew hg ih =>
    change (Records.put _ r').get? id = some r at hr
    rw [Records.get?_put] at hr
    split at hr
    · cases hr
      rw [hg.active] at hw
      cases hw
    · obtain ⟨q, hq, hs⟩ := ih hr hw
      exact ⟨q, written_put hnew hq, hs⟩
  | superseded h winner loser hwin hl _ _ hmay ih =>
    change (Records.put _ (loser.supersede winner.id)).get? id = some r at hr
    rw [Records.get?_put] at hr
    split at hr
    · cases hr
      cases hw
      obtain ⟨q, hq, hs⟩ := h.origin hwin
      exact ⟨q, hq, (supersedes_of_may hmay).of_sameOrigin hs ⟨rfl, rfl, rfl, rfl⟩⟩
    · exact ih hr hw
  | edges _ r' es hr' ih =>
    change (Records.put _ (r'.withEdges es)).get? id = some r at hr
    rw [Records.get?_put] at hr
    split at hr
    · cases hr
      obtain ⟨q, hq, hs⟩ := ih hr' hw
      exact ⟨q, hq, hs.of_sameOrigin (.refl q) ⟨rfl, rfl, rfl, rfl⟩⟩
    · exact ih hr hw
  | purged _ ids scope ih => exact ih ((Records.get?_purge _ ids scope).1 hr).1 hw

theorem link_ne_empty (h : Reach v) (hr : v.records.get? id = some r) :
    r.supersededBy ≠ some "" := by
  intro hw
  obtain ⟨q, hq, -⟩ := h.linked hr hw
  obtain ⟨n, rand, he, -⟩ := h.numbered (Dict.mem_of_get? hq)
  exact recordId_ne_empty n rand he.symm

end Reach

end Prismal.Memory

namespace Prismal.Memory
open Prismal.Lib Prismal.Lib.Run
set_option autoImplicit true

/-! The calls that the program makes to the vault, and what they leave of its records. -/

/-- One call to the backend, or to the counter of ids. -/
inductive Touch where
  | draw (n : Nat)
  | put (r : MemoryRecord)
  | putSummary (r : MemoryRecord)
  | store (r : MemoryRecord)
  | purge (ids : List String) (scope : MemoryScope)

def Vault.touch (v : Vault) : Touch → Vault
  | .draw n => v.draw n
  | .put r => v.put r
  | .putSummary r => v.putSummary r
  | .store r => v.store r
  | .purge ids scope => v.purge ids scope

def Prevails (winner loser : MemoryRecord) : Prop :=
  Records.Earlier loser winner ∧ provenanceRank loser ≤ provenanceRank winner ∨
    Records.Earlier winner loser ∧ provenanceRank loser < provenanceRank winner

def Decided (v : Vault) (e : MemoryEdge) : Prop :=
  ∃ winner loser, v.written.get? winner.id = some winner ∧ v.written.get? loser.id = some loser ∧
    (winner.id = e.srcId ∧ loser.id = e.dstId ∨ winner.id = e.dstId ∧ loser.id = e.srcId) ∧
    Prevails winner loser ∧
    ∀ r, v.records.get? loser.id = some r → r.supersededBy = some winner.id

def Visible (v : Vault) (scope : MemoryScope) (id : String) : Prop :=
  ∃ q, v.written.get? id = some q ∧ scope.covers q.scope = true

def Anchored (v : Vault) (r : MemoryRecord) : Prop :=
  ∀ e ∈ r.edges, e.srcId = r.id ∧ Visible v r.scope e.dstId ∧ e.validTo = none

def Inherited (v : Vault) (r : MemoryRecord) (e : MemoryEdge) : Prop :=
  e ∈ r.edges ∨ (e.validTo.isSome ∧ Decided v e) ∧
    ∃ q ∈ r.edges, e.srcId = q.srcId ∧ e.dstId = q.dstId

inductive Proper (v : Vault) : Touch → Prop where
  | draw (hn : v.lastId < n) : Proper v (.draw n)
  | put (hid : r.id = recordId v.lastId rand) (hnew : r.id ∉ v.written) (hr : Gated r)
      (he : Anchored v r) : Proper v (.put r)
  | putSummary (hid : r.id = recordId v.lastId rand) (hnew : r.id ∉ v.written)
      (hr : Summarizes v r) (he : r.edges = []) : Proper v (.putSummary r)
  | supersede (hw : v.records.get? winner.id = some winner)
      (hl : v.records.get? loser.id = some loser) (hactive : winner.supersededBy = none)
      (hopen : loser.supersededBy = none) (hmay : maySupersede winner loser = true) :
      Proper v (.store (loser.supersede winner.id))
  | edges (hr : v.records.get? r.id = some r) (hes : ∀ e ∈ es, Inherited v r e) :
      Proper v (.store (r.withEdges es))
  | purge : Proper v (.purge ids scope)

theorem Reach.touch (h : Reach v) (ht : Proper v t) : Reach (v.touch t) := by
  cases ht with
  | draw hn => exact h.drawn _ hn
  | put hid hnew hr => exact h.gated _ hid hnew hr
  | putSummary hid hnew hr => exact h.summary _ hid hnew hr
  | supersede hw hl hactive hopen hmay => exact h.superseded _ _ hw hl hactive hopen hmay
  | edges hr => exact h.edges _ _ hr
  | purge => exact h.purged _ _

def Moves (v v' : Vault) : Prop :=
  ∃ ts, Along Vault.touch (fun v t _ => Proper v t) v ts ∧ final Vault.touch v ts = v'

namespace Moves

theorem refl (v : Vault) : Moves v v := ⟨[], trivial, rfl⟩

theorem trans (h : Moves v v') (h' : Moves v' v'') : Moves v v'' := by
  obtain ⟨ts, ht, rfl⟩ := h
  obtain ⟨us, hu, rfl⟩ := h'
  exact ⟨ts ++ us, along_append.2 ⟨ht, hu⟩, final_append _ _ _ _⟩

theorem touch (h : Moves v v') (ht : Proper v' t) : Moves v (v'.touch t) :=
  h.trans ⟨[t], ⟨ht, trivial⟩, rfl⟩

end Moves

/-- What may become of a record that stays stored. -/
structure Aged (r r' : MemoryRecord) : Prop where
  origin : SameOrigin r r'
  superseded : ∀ w, r.supersededBy = some w → r'.supersededBy = some w
  opens : ∀ e ∈ r'.edges, e.validTo = none → e ∈ r.edges

theorem Aged.refl (r : MemoryRecord) : Aged r r := ⟨.refl r, fun _ h => h, fun _ h _ => h⟩

theorem SameOrigin.trans (h : SameOrigin q r) (h' : SameOrigin r s) : SameOrigin q s :=
  ⟨h.1.trans h'.1, h.2.1.trans h'.2.1, h.2.2.1.trans h'.2.2.1, h.2.2.2.trans h'.2.2.2⟩

theorem Aged.trans (h : Aged q r) (h' : Aged r s) : Aged q s where
  origin := h.origin.trans h'.origin
  superseded w hw := h'.superseded w (h.superseded w hw)
  opens e he ho := h.opens e (h'.opens e he ho) ho

theorem Aged.active (h : Aged r r') (ha : r'.supersededBy = none) : r.supersededBy = none := by
  cases hr : r.supersededBy with
  | none => rfl
  | some w =>
    rw [h.superseded w hr] at ha
    cases ha

/-- Nothing that was written is lost, and what is stored of it was stored before. -/
structure Later (v v' : Vault) : Prop where
  written : ∀ id q, v.written.get? id = some q → v'.written.get? id = some q
  stored : ∀ id r', id ∈ v.written → v'.records.get? id = some r' →
    ∃ r, v.records.get? id = some r ∧ Aged r r'

namespace Later

theorem refl (v : Vault) : Later v v := ⟨fun _ _ h => h, fun _ r _ hr => ⟨r, hr, .refl r⟩⟩

theorem mem_written {id : String} (h : Later v v') (hid : id ∈ v.written) : id ∈ v'.written := by
  obtain ⟨q, hq⟩ := Dict.mem_iff_get?.1 hid
  exact Dict.mem_of_get? (h.written id q hq)

theorem trans (h : Later v v') (h' : Later v' v'') : Later v v'' where
  written id q hq := h'.written id q (h.written id q hq)
  stored id r'' hid hr := by
    obtain ⟨r', hr', ha'⟩ := h'.stored id r'' (h.mem_written hid) hr
    obtain ⟨r, hr, ha⟩ := h.stored id r' hid hr'
    exact ⟨r, hr, ha.trans ha'⟩

theorem of_put (hnew : r.id ∉ v.written) : Later v (v.put r) where
  written _ _ hq := Reach.written_put hnew hq
  stored id r' hid hr := by
    have hne : r.id ≠ id := fun he => hnew (he ▸ hid)
    exact ⟨r', (Dict.get?_set_ne _ hne).symm.trans hr, .refl r'⟩

theorem of_store (hr : v.records.get? r.id = some r) (ha : Aged r r') :
    Later v (v.store r') where
  written _ _ hq := hq
  stored id q _ hq := by
    change (Records.put _ r').get? id = some q at hq
    rw [Records.get?_put, ← ha.origin.1] at hq
    split at hq
    next he =>
      cases hq
      exact ⟨r, he ▸ hr, ha⟩
    next => exact ⟨q, hq, .refl q⟩

theorem of_touch (ht : Proper v t) : Later v (v.touch t) := by
  cases ht with
  | draw hn => exact ⟨fun _ _ h => h, fun _ r _ hr => ⟨r, hr, .refl r⟩⟩
  | put hid hnew => exact of_put hnew
  | putSummary hid hnew => exact ⟨(of_put hnew).written, (of_put hnew).stored⟩
  | supersede hw hl hactive hopen hmay =>
    apply of_store hl
    refine ⟨⟨rfl, rfl, rfl, rfl⟩, fun w h => ?_, fun _ h _ => h⟩
    rw [hopen] at h
    cases h
  | edges hr hes =>
    apply of_store hr
    refine ⟨⟨rfl, rfl, rfl, rfl⟩, fun _ h => h, fun e he ho => ?_⟩
    rcases hes e he with h | ⟨⟨h, -⟩, -⟩
    · exact h
    · rw [ho] at h
      cases h
  | purge =>
    refine ⟨fun _ _ h => h, fun id r _ hr => ⟨r, ?_, .refl r⟩⟩
    exact ((Records.get?_purge _ _ _).1 hr).1

end Later

theorem Visible.later {id : String} (h : Visible v scope id) (hl : Later v v') :
    Visible v' scope id := by
  obtain ⟨q, hq, hc⟩ := h
  exact ⟨q, hl.written id q hq, hc⟩

theorem Visible.mem_written {id : String} (h : Visible v scope id) : id ∈ v.written := by
  obtain ⟨q, hq, -⟩ := h
  exact Dict.mem_of_get? hq

theorem Decided.later (h : Decided v e) (hl : Later v v') : Decided v' e := by
  obtain ⟨w, l, hw, hlo, hends, hwins, hs⟩ := h
  refine ⟨w, l, hl.written _ w hw, hl.written _ l hlo, hends, hwins, fun r' hr' => ?_⟩
  obtain ⟨r, hr, ha⟩ := hl.stored _ r' (Dict.mem_of_get? hlo) hr'
  exact ha.superseded _ (hs r hr)

theorem Moves.later (h : Moves v v') : Later v v' := by
  obtain ⟨ts, ht, rfl⟩ := h
  exact final_of_along (I := Later v) (Later.refl v) (fun _ _ hl hp => hl.trans (.of_touch hp)) ht

/-- The ids that were given to `purge` between two vaults; what they do not name is kept. -/
def Spares (ids : List String) (v v' : Vault) : Prop :=
  v'.purged = ids ++ v.purged ∧ ∀ id ∈ v.records, id ∈ v'.records ∨ id ∈ ids

theorem mem_put (r : MemoryRecord) {d : Records} {id : String} (h : id ∈ d) : id ∈ d.put r :=
  (Dict.mem_set d).2 (Or.inr h)

theorem Spares.touch (h : Spares ids v u) (t : Touch) : ∃ ids', Spares ids' v (u.touch t) := by
  obtain ⟨hp, hkeep⟩ := h
  cases t with
  | draw n => exact ⟨ids, hp, hkeep⟩
  | put r => exact ⟨ids, hp, fun id hid => (hkeep id hid).imp_left (mem_put r)⟩
  | putSummary r => exact ⟨ids, hp, fun id hid => (hkeep id hid).imp_left (mem_put r)⟩
  | store r => exact ⟨ids, hp, fun id hid => (hkeep id hid).imp_left (mem_put r)⟩
  | purge gone scope =>
    refine ⟨gone ++ ids, ?_, fun id hid => ?_⟩
    · change gone ++ u.purged = gone ++ ids ++ v.purged
      rw [hp, List.append_assoc]
    · rw [List.mem_append]
      by_cases hgone : id ∈ gone
      · exact Or.inr (Or.inl hgone)
      · refine (hkeep id hid).imp (fun hu => ?_) Or.inr
        obtain ⟨r, hr⟩ := Dict.mem_iff_get?.1 hu
        exact Dict.mem_of_get? ((Records.get?_purge u.records gone scope).2 ⟨hr, Or.inl hgone⟩)

theorem Moves.spares (h : Moves v v') : ∃ ids, Spares ids v v' := by
  obtain ⟨ts, ht, rfl⟩ := h
  exact final_of_along (I := fun u => ∃ ids, Spares ids v u) ⟨[], rfl, fun _ h => Or.inl h⟩
    (fun _ t hs _ => hs.elim fun _ h => h.touch t) ht

theorem Moves.kept (h : Moves v v') (hp : v'.purged = v.purged) {id : String}
    (hid : id ∈ v.records) : id ∈ v'.records := by
  obtain ⟨ids, hids, hkeep⟩ := h.spares
  rw [hp] at hids
  have hnil : ids = [] := List.append_left_eq_self.1 hids.symm
  exact (hkeep id hid).resolve_right (by simp [hnil])

end Prismal.Memory
