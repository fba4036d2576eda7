import Prismal.Lib.Lists
import Prismal.Memory.Forget

namespace Prismal.Memory
open Prismal.Lib
set_option autoImplicit true

/-! Who may delete what, told by the history of the policy alone. -/

def outstanding (selector : ForgetSelector) : List Event → Bool
  | [] => false
  | .issued rules :: h => decide (selector ∈ rules) || outstanding selector h
  | .consumed s :: h => decide (s ≠ selector) && outstanding selector h
  | _ :: h => outstanding selector h

inductive Standing where
  | pending (selector : ForgetSelector) (requester : String)
  | approved (selector : ForgetSelector) (requester approver : String)
  | closed

def Standing.approve (approver : String) : Standing → Standing
  | pending selector requester => approved selector requester approver
  | s => s

def standing (id : String) : List Event → Option Standing
  | [] => none
  | .requested i selector requester :: h =>
    if i = id then some (.pending selector requester) else standing id h
  | .approved i approver :: h =>
    if i = id then (standing id h).map (Standing.approve approver) else standing id h
  | .rejected i :: h | .completed i :: h => if i = id then some .closed else standing id h
  | _ :: h => standing id h

/-- A rule actor may purge right after it consumed an outstanding selector; a human may while a
request for this very selector, filed by somebody else, stands approved by him. -/
def Authorized (selector : ForgetSelector) (actor : ForgetActor) (h : List Event) : Prop :=
  (actor.kind = .rule ∧ ∃ h', h = .consumed selector :: h' ∧ outstanding selector h' = true) ∨
    (actor.kind = .human ∧ ∃ id requester, actor.approvalId = some id ∧
      standing id h = some (.approved selector requester actor.principal) ∧
      actor.principal ≠ requester)

def ForgetRequest.standing (req : ForgetRequest) : Standing :=
  match req.status with
  | .pending => .pending req.selector req.requestedBy
  | .approved => .approved req.selector req.requestedBy (req.approvedBy.getD "")
  | .rejected | .executed => .closed

def purgedIds : List Event → List String
  | [] => []
  | .purged _ _ ids :: h => ids ++ purgedIds h
  | _ :: h => purgedIds h

def Inside (v : Vault) (selector : ForgetSelector) (ids : List String) : Prop :=
  ∃ scope, selector.scope = some scope ∧ ∀ id ∈ ids,
    ∃ q, v.written.get? id = some q ∧ withinErasureScope scope q.scope = true

def Justified (v : Vault) : List Event → Prop
  | [] => True
  | .purged selector actor ids :: h =>
    Authorized selector actor h ∧ Inside v selector ids ∧ Justified v h
  | _ :: h => Justified v h

/-- The invariant that ties the vault, the policy and its history. -/
structure Sound (p : Process) : Prop where
  reach : Reach p.vault
  issued : ∀ s, s ∈ p.forget.issuedRules ↔ outstanding s p.forget.history = true
  requests : ∀ id req, p.forget.requests.get? id = some req →
    req.requestId = id ∧ standing id p.forget.history = some req.standing
  justified : Justified p.vault p.forget.history
  purged : p.vault.purged = purgedIds p.forget.history

variable {p p₀ : Process} {h : List Event} {id : String}

theorem Inside.mono (hi : Inside v selector ids)
    (hw : ∀ id q, v.written.get? id = some q → v'.written.get? id = some q) :
    Inside v' selector ids := by
  obtain ⟨scope, hs, hids⟩ := hi
  refine ⟨scope, hs, fun id hid => ?_⟩
  obtain ⟨q, hq, hin⟩ := hids id hid
  exact ⟨q, hw id q hq, hin⟩

theorem Justified.mono (hj : Justified v h)
    (hw : ∀ id q, v.written.get? id = some q → v'.written.get? id = some q) :
    Justified v' h := by
  induction h with
  | nil => trivial
  | cons e h ih =>
    cases e with
    | purged => exact ⟨hj.1, hj.2.1.mono hw, ih hj.2.2⟩
    | requested => exact ih hj
    | approved => exact ih hj
    | rejected => exact ih hj
    | issued => exact ih hj
    | consumed => exact ih hj
    | completed => exact ih hj

theorem Sound.start : Sound {} where
  reach := .empty
  issued s := by
    refine ⟨fun h => ?_, fun h => ?_⟩
    · exact absurd h (Finset.notMem_empty s)
    · cases h
  requests id req h := by cases h
  justified := trivial
  purged := rfl

theorem Sound.steady (hs : Sound p₀) (h : Steady p₀ p) : Sound p where
  reach := h.reach
  issued := by rw [h.forget]; exact hs.issued
  requests := by rw [h.forget]; exact hs.requests
  justified := by rw [h.forget]; exact hs.justified.mono h.written
  purged := by rw [h.purged, h.forget]; exact hs.purged

/-- The invariant holds, and proper calls led here from `p₀`. -/
structure Outcome (p₀ p : Process) : Prop extends Sound p where
  moves : Moves p₀.vault p.vault

structure Kept (p₀ p : Process) : Prop extends Outcome p₀ p where
  watermarks : p.watermarks = p₀.watermarks

theorem Kept.refl (h : Sound p) : Kept p p := ⟨⟨h, .refl _⟩, rfl⟩

theorem Kept.steady (h : Kept p₀ p) (hs : Steady p q) : Kept p₀ q where
  toSound := h.toSound.steady hs
  moves := h.moves.trans hs.moves
  watermarks := hs.watermarks.trans h.watermarks

theorem Kept.onForget {f : ForgetPolicy → ForgetPolicy} (h : Kept p₀ p)
    (hs : Sound (p.onForget f)) : Kept p₀ (p.onForget f) := ⟨⟨hs, h.moves⟩, h.watermarks⟩

theorem kept_of_steady {m : MemoryM α} {E : Fault → Process → Prop}
    (hm : ∀ p₀, Spec (Steady p₀) m (fun _ => Steady p₀) E) :
    Spec (Kept p₀) m (fun _ => Kept p₀) E := by
  intro p hp
  exact ((hm p).post fun _ _ h => hp.steady h) p (Steady.refl hp.reach)

theorem Sound.tick (hs : Sound p) : Sound p.tick := ⟨hs.1, hs.2, hs.3, hs.4, hs.5⟩

theorem Kept.tick (h : Kept p₀ p) : Kept p₀ p.tick :=
  ⟨⟨h.toSound.tick, h.moves⟩, h.watermarks⟩

theorem Sound.record {req : ForgetRequest} {e : Event} (hs : Sound p)
    (hid : ∀ i, standing i (e :: p.forget.history) =
      if req.requestId = i then some req.standing else standing i p.forget.history)
    (hout : ∀ s, outstanding s (e :: p.forget.history) = outstanding s p.forget.history)
    (hj : Justified p.vault p.forget.history → Justified p.vault (e :: p.forget.history))
    (hp : purgedIds (e :: p.forget.history) = purgedIds p.forget.history) :
    Sound (p.onForget fun f => f.record req e) where
  reach := hs.reach
  issued s := by
    change s ∈ p.forget.issuedRules ↔ outstanding s (e :: p.forget.history) = true
    rw [hout]
    exact hs.issued s
  requests i q hq := by
    change (p.forget.requests.set req.requestId req).get? i = some q at hq
    change q.requestId = i ∧ standing i (e :: p.forget.history) = some q.standing
    rw [Dict.get?_set] at hq
    rw [hid]
    split at hq
    next he =>
      cases hq
      exact ⟨he, if_pos he⟩
    next hne =>
      rw [if_neg hne]
      exact hs.requests i q hq
  justified := hj hs.justified
  purged := hs.purged.trans hp.symm

theorem request_spec (host : Host) (selector : ForgetSelector) (requestedBy uuid : String) :
    Spec (Kept p₀) (request host selector requestedBy uuid) (fun _ => Kept p₀)
      (fun _ => Kept p₀) := by
  rw [request]
  split
  · exact Spec.throw fun _ h => h
  · apply Spec.bind (readClock_spec fun _ h => h.tick)
    intro now
    apply Spec.bind (Q := fun _ => Kept p₀)
    · apply Spec.modify
      intro p hp
      exact hp.onForget (hp.record (fun i => rfl) (fun _ => rfl) (fun h => h) rfl)
    · exact fun _ => Spec.pure fun _ h => h

theorem pendingOrDeny_spec (id : String) :
    Spec (Kept p₀) (pendingOrDeny id)
      (fun req p => Kept p₀ p ∧ p.forget.requests.get? id = some req ∧ req.status = .pending)
      (fun _ => Kept p₀) := by
  apply Spec.bind (Spec.get (Q := fun q p => q = p ∧ Kept p₀ p) fun _ h => ⟨rfl, h⟩)
  intro q
  split
  next req hreq =>
    split
    next hpending =>
      apply Spec.pure
      rintro p ⟨rfl, h⟩
      exact ⟨h, hreq, hpending⟩
    next => exact Spec.throw fun _ h => h.2
  next => exact Spec.throw fun _ h => h.2

theorem setRejected_spec (req : ForgetRequest) :
    Spec (Kept p₀) (setRejected req) (fun _ => Kept p₀) (fun _ => Kept p₀) := by
  apply Spec.bind (Q := fun _ => Kept p₀)
  · apply Spec.modify
    intro p hp
    exact hp.onForget (hp.record (fun i => rfl) (fun _ => rfl) (fun h => h) rfl)
  · exact fun _ => Spec.pure fun _ h => h

theorem setApproved_spec (req : ForgetRequest) (principal : String) :
    Spec (fun p => Kept p₀ p ∧ p.forget.requests.get? id = some req ∧ req.status = .pending)
      (setApproved req principal) (fun _ => Kept p₀) (fun _ => Kept p₀) := by
  apply Spec.bind (Q := fun _ => Kept p₀)
  · apply Spec.modify
    rintro p ⟨hp, hreq, hpending⟩
    obtain ⟨hid, hst⟩ := hp.requests id req hreq
    refine hp.onForget (hp.record (fun i => ?_) (fun _ => rfl) (fun h => h) rfl)
    rw [standing]
    by_cases he : req.requestId = i
    · subst he
      have hself : (req.approve principal).requestId = req.requestId := rfl
      rw [if_pos rfl, if_pos hself, hid, hst, ForgetRequest.standing, hpending]
      rfl
    · rw [if_neg he]
      exact (if_neg he).symm
  · exact fun _ => Spec.pure fun _ h => h

theorem approve_spec (id principal : String) (approver : Approver) :
    Spec (Kept p₀) (approve id principal approver) (fun _ => Kept p₀) (fun _ => Kept p₀) := by
  apply Spec.bind (pendingOrDeny_spec id)
  intro req
  split
  · exact Spec.throw fun _ h => h.1
  · split
    · exact (setRejected_spec req).pre fun _ h => h.1
    · exact Spec.throw fun _ h => h.1
    · exact setApproved_spec req principal

theorem reject_spec (id : String) :
    Spec (Kept p₀) (reject id) (fun _ => Kept p₀) (fun _ => Kept p₀) :=
  Spec.bind (pendingOrDeny_spec id) fun req => (setRejected_spec req).pre fun _ h => h.1

theorem retentionRules_spec (host : Host) (settings : RetentionSettings)
    (scope : Option MemoryScope) :
    Spec (Kept p₀) (retentionRules host settings scope) (fun _ => Kept p₀) (fun _ => Kept p₀) := by
  apply Spec.bind (readClock_spec fun _ h => h.tick)
  intro now
  apply Spec.bind (Q := fun _ => Kept p₀)
  · apply Spec.modify
    intro p hp
    refine hp.onForget ⟨hp.reach, fun s => ?_, hp.requests, hp.justified, hp.purged⟩
    change s ∈ p.forget.issuedRules ∪ List.toFinset _ ↔ outstanding s (.issued _ :: _) = true
    rw [Finset.mem_union, List.mem_toFinset, outstanding, Bool.or_eq_true, decide_eq_true_eq,
      hp.issued, or_comm]
  · exact fun _ => Spec.pure fun _ h => h

end Prismal.Memory

namespace Prismal.Memory
open Prismal.Lib
set_option autoImplicit true

/-! The closure of a deletion: its loop ends, and misses nothing that it looks at. -/

variable {scope : MemoryScope} {rs : List MemoryRecord} {c : Closure} {r : MemoryRecord}

def Closure.lower (c : Closure) : Closure := { c with changed := false }

theorem Closure.run_eq (fuel : Nat) (c : Closure) :
    Closure.run scope rs fuel c =
      saturate (Closure.visit scope) Closure.changed Closure.lower rs fuel c := by
  induction fuel generalizing c with
  | zero => rfl
  | succ fuel ih =>
    rw [Closure.run, saturate, ih]
    rfl

def Closure.unsettled (rs : List MemoryRecord) (c : Closure) : Nat :=
  rs.countP fun r => !c.settled r

theorem Closure.settled_erase {q : MemoryRecord} (h : c.settled q = true) :
    (c.erase r).settled q = true := by
  rw [settled, Bool.or_eq_true, decide_eq_true_eq, decide_eq_true_eq] at h ⊢
  exact h.imp_left (List.mem_cons_of_mem _)

theorem Closure.settled_leave {q : MemoryRecord} (h : c.settled q = true) :
    (c.leave r).settled q = true := by
  rw [settled, Bool.or_eq_true, decide_eq_true_eq, decide_eq_true_eq] at h ⊢
  exact h.imp_right (List.mem_cons_of_mem _)

theorem Closure.unsettled_lt {c' : Closure} (hr : r ∈ rs) (hopen : c.settled r = false)
    (hdone : c'.settled r = true) (hkeep : ∀ q, c.settled q = true → c'.settled q = true) :
    c'.unsettled rs < c.unsettled rs := by
  apply countP_lt_countP _ hr
  · rw [hopen]
    rfl
  · rw [hdone]
    rfl
  · intro q _ hq
    rw [Bool.not_eq_true'] at hq ⊢
    by_contra hc
    rw [hkeep q (Bool.eq_true_of_not_eq_false hc)] at hq
    cases hq

theorem Closure.settling (scope : MemoryScope) (rs : List MemoryRecord) :
    Settling (Closure.visit scope) Closure.changed (Closure.unsettled rs) rs := by
  intro c r hr
  rw [Closure.visit]
  split
  · exact Or.inl rfl
  next h =>
    right
    rw [Bool.or_eq_true, not_or, Bool.not_eq_true] at h
    split
    · refine ⟨rfl, Closure.unsettled_lt hr h.1 ?_ fun _ => Closure.settled_erase⟩
      simp [Closure.settled, Closure.erase]
    · refine ⟨rfl, Closure.unsettled_lt hr h.1 ?_ fun _ => Closure.settled_leave⟩
      simp [Closure.settled, Closure.leave]

theorem Closure.lowers (rs : List MemoryRecord) :
    Lowers Closure.changed Closure.lower (Closure.unsettled rs) := fun _ => ⟨rfl, rfl⟩

theorem Closure.unsettled_le (rs : List MemoryRecord) (c : Closure) :
    c.unsettled rs < rs.length + 1 := Nat.lt_succ_of_le List.countP_le_length

theorem closure_ends (scope : MemoryScope) (rs : List MemoryRecord) (ts : List String) :
    (closure scope rs ts).changed = false ∧ ∀ fuel, rs.length < fuel →
      Closure.run scope rs fuel ⟨ts, [], [], true⟩ = closure scope rs ts := by
  have hs := Closure.settling scope rs
  have hl := Closure.lowers rs
  have hle := Closure.unsettled_le rs ⟨ts, [], [], true⟩
  refine ⟨?_, fun fuel hfuel => ?_⟩
  · rw [closure, Closure.run_eq]
    exact (hs.saturated hl hle).1
  · rw [closure, Closure.run_eq, Closure.run_eq]
    apply hs.saturate_congr hl _ hle
    omega

/-- What the closure knows about the ids that it collects. -/
structure Closure.Names (scope : MemoryScope) (rs : List MemoryRecord) (ts : List String)
    (c : Closure) : Prop where
  gone : ∀ id, id ∈ c.gone ↔ id ∈ ts ∨ id ∈ c.derived
  derived : ∀ id ∈ c.derived, ∃ r ∈ rs, r.id = id ∧ withinErasureScope scope r.scope = true
  outOfScope : ∀ id ∈ c.outOfScope,
    ∃ r ∈ rs, r.id = id ∧ withinErasureScope scope r.scope = false

theorem Closure.Names.visit (h : c.Names scope rs ts) (hr : r ∈ rs) :
    (Closure.visit scope c r).Names scope rs ts := by
  rw [Closure.visit]
  split
  · exact h
  · split
    next hin =>
      refine ⟨fun id => ?_, List.forall_mem_cons.2 ⟨⟨r, hr, rfl, hin⟩, h.derived⟩, h.outOfScope⟩
      simp only [Closure.erase, List.mem_cons, h.gone, or_left_comm]
    next hin =>
      refine ⟨h.gone, h.derived, List.forall_mem_cons.2 ⟨⟨r, hr, rfl, ?_⟩, h.outOfScope⟩⟩
      rwa [Bool.not_eq_true] at hin

theorem closure_names (scope : MemoryScope) (rs : List MemoryRecord) (ts : List String) :
    (closure scope rs ts).Names scope rs ts := by
  rw [closure, Closure.run_eq]
  apply saturate_of_visit (P := Closure.Names scope rs ts)
  · exact fun c hc => ⟨hc.gone, hc.derived, hc.outOfScope⟩
  · exact fun c r hr hc => hc.visit hr
  · refine ⟨fun id => ?_, List.forall_mem_nil _, List.forall_mem_nil _⟩
    simp

theorem closure_closed (hn : (rs.map MemoryRecord.id).Nodup) (hr : r ∈ rs)
    (hin : withinErasureScope scope r.scope = true) (hc : (closure scope rs ts).cites r = true) :
    r.id ∈ (closure scope rs ts).gone := by
  have hnames := closure_names scope rs ts
  have hfix : Closure.visit scope (closure scope rs ts) r = closure scope rs ts := by
    rw [closure, Closure.run_eq]
    exact ((Closure.settling scope rs).saturated (Closure.lowers rs) (Closure.unsettled_le rs _)).2
      r hr
  by_contra hgone
  have hout : r.id ∉ (closure scope rs ts).outOfScope := by
    intro hm
    obtain ⟨q, hq, hid, hq'⟩ := hnames.outOfScope r.id hm
    obtain rfl := List.inj_on_of_nodup_map hn hq hr hid
    rw [hin] at hq'
    cases hq'
  rw [Closure.visit, hc, Closure.settled, if_neg (by simp [hgone, hout]), if_pos hin] at hfix
  apply hgone
  rw [← hfix]
  exact List.mem_cons_self

end Prismal.Memory

namespace Prismal.Memory
open Prismal.Lib
set_option autoImplicit true

/-! One execution of the forget policy keeps the invariant. -/

variable {p p₀ : Process} {scope : MemoryScope} {records : Records} {id : String}

theorem authorizeRule_spec (hkind : actor.kind = .rule) :
    Spec (Kept p₀) (authorizeRule selector)
      (fun _ p => Kept p₀ p ∧ Authorized selector actor p.forget.history) (fun _ => Kept p₀) := by
  apply Spec.bind (Spec.get (Q := fun q p => q = p ∧ Kept p₀ p) fun _ h => ⟨rfl, h⟩)
  intro q
  split
  next hmem =>
    apply Spec.modify
    rintro p ⟨rfl, hp⟩
    refine ⟨hp.onForget ⟨hp.reach, fun s => ?_, hp.requests, hp.justified, hp.purged⟩,
      Or.inl ⟨hkind, _, rfl, (hp.issued selector).1 hmem⟩⟩
    change s ∈ q.forget.issuedRules.erase selector ↔ outstanding s (.consumed selector :: _) = true
    rw [Finset.mem_erase, outstanding, Bool.and_eq_true, decide_eq_true_eq, hp.issued, ne_comm]
  next => exact Spec.throw fun _ h => h.2

theorem mayExecute_none (h : mayExecute req selector actor = none) :
    req.standing = .approved selector req.requestedBy actor.principal ∧
      actor.principal ≠ req.requestedBy := by
  rw [mayExecute] at h
  split at h
  · cases h
  next hst =>
    split at h
    · cases h
    next hsel =>
      split at h
      · cases h
      next hp =>
        rw [not_or, ne_eq, not_not] at hp
        rw [ForgetRequest.standing, not_not.1 hst, not_not.1 hsel, hp.2]
        exact ⟨rfl, hp.1⟩

theorem approvalId_of_human {actor : ForgetActor} (h : actor.kind = .human) :
    actor.approvalId = some (actor.approvalId.getD "") := by
  have hv := actor.valid
  rw [validActor, h] at hv
  cases ha : actor.approvalId with
  | none =>
    rw [ha] at hv
    cases hv
  | some id => rfl

theorem authorizeHuman_spec (hkind : actor.kind = .human) :
    Spec (Kept p₀) (authorizeHuman selector actor env)
      (fun _ p => Kept p₀ p ∧ Authorized selector actor p.forget.history) (fun _ => Kept p₀) := by
  apply Spec.bind (Spec.get (Q := fun q p => q = p ∧ Kept p₀ p) fun _ h => ⟨rfl, h⟩)
  intro q
  split
  · exact Spec.throw fun _ h => h.2
  next req hreq =>
    split
    · exact Spec.throw fun _ h => h.2
    next hmay =>
      split
      · apply Spec.pure
        rintro p ⟨rfl, hp⟩
        obtain ⟨hst, hne⟩ := mayExecute_none hmay
        refine ⟨hp, Or.inr ⟨hkind, _, req.requestedBy, approvalId_of_human hkind, ?_, hne⟩⟩
        rw [(hp.requests _ req hreq).2, hst]
      · exact Spec.throw fun _ h => h.2

theorem authorize_spec (selector : ForgetSelector) (actor : ForgetActor) (env : ForgetEnv) :
    Spec (Kept p₀) (authorize selector actor env)
      (fun _ p => Kept p₀ p ∧ Authorized selector actor p.forget.history) (fun _ => Kept p₀) := by
  rw [authorize]
  split
  next hkind => exact Spec.bind (authorizeRule_spec hkind) fun _ => Spec.pure fun _ h => h
  next hkind => exact Spec.bind (authorizeHuman_spec hkind) fun _ => Spec.pure fun _ h => h
  next => exact Spec.throw fun _ h => h

def WrittenInside (v : Vault) (scope : MemoryScope) (id : String) : Prop :=
  ∃ q, v.written.get? id = some q ∧ withinErasureScope scope q.scope = true

theorem writtenInside_of_stored (h : Reach v) (hr : v.records.get? id = some r)
    (hin : withinErasureScope scope r.scope = true) : WrittenInside v scope id := by
  obtain ⟨q, hq, hs⟩ := h.origin hr
  exact ⟨q, hq, by rw [hs.2.1]; exact hin⟩

theorem WrittenInside.steady (h : WrittenInside p₀.vault scope id) (hs : Steady p₀ p) :
    WrittenInside p.vault scope id := by
  obtain ⟨q, hq, hin⟩ := h
  exact ⟨q, hs.written id q hq, hin⟩

theorem candidates_stored (hk : records.Keyed) (h : r ∈ candidates records selector scope) :
    records.get? r.id = some r := by
  rw [candidates] at h
  split at h
  · exact (Records.mem_list hk h).1
  · obtain ⟨id, -, hid⟩ := List.mem_filterMap.1 h
    have hget := (Records.get_eq_some.1 hid).1
    rw [hk id r hget]
    exact hget

theorem targets_inside (h : Reach v) (hid : id ∈ targets v.records selector scope) :
    WrittenInside v scope id := by
  obtain ⟨r, hr, rfl⟩ := List.mem_map.1 hid
  obtain ⟨hr, ht⟩ := List.mem_filter.1 hr
  rw [targeted] at ht
  simp only [Bool.and_eq_true] at ht
  exact writtenInside_of_stored h (candidates_stored h.keyed hr) ht.1.1.1.1

def Listed (p₀ : Process) (rs : List MemoryRecord) (p : Process) : Prop :=
  Steady p₀ p ∧ Holds rs p ∧ (rs.map MemoryRecord.id).Nodup

theorem dropEdges_spec (gone : List String) (r : MemoryRecord) (rest : List MemoryRecord) :
    Spec (Listed p₀ (r :: rest)) (dropEdges gone r) (fun _ => Listed p₀ rest)
      (fun _ _ => False) := by
  rintro p ⟨hs, hh, hn⟩
  rw [List.map_cons, List.nodup_cons] at hn
  rw [dropEdges]
  split
  · exact ⟨hs, hh.tail, hn.2⟩
  · rw [update_ok (r := r.withEdges (keptEdges gone r)) hh.head]
    have hkept : ∀ e ∈ keptEdges gone r, Inherited p.vault r e :=
      fun e he => Or.inl (List.mem_filter.1 he).1
    refine ⟨hs.touch (t := .store _) (.edges hh.head hkept) rfl, ?_, hn.2⟩
    apply hh.tail.store
    intro q hq he
    exact hn.1 (List.mem_map.2 ⟨q, hq, he.symm⟩)

theorem inScope_listed (h : Steady p₀ p) : Listed p₀ (inScope p.vault.records scope) p := by
  refine ⟨h, fun r hr => ?_, ?_⟩
  · exact (Records.mem_list h.reach.keyed (List.mem_filter.1 hr).1).1
  · exact (Records.list_nodup h.reach.keyed).sublist (List.filter_sublist.map _)

theorem derivedOf_spec (ts : List String) (scope : MemoryScope) :
    Spec (Steady p₀) (derivedOf ts scope)
      (fun d p => Steady p₀ p ∧ ∀ id ∈ d.1, WrittenInside p.vault scope id)
      (fun _ _ => False) := by
  apply Spec.bind (Spec.get (Q := fun q p => q = p ∧ Steady p₀ p) fun _ h => ⟨rfl, h⟩)
  intro q
  have hloop : Spec (Listed q (inScope q.vault.records scope))
      ((inScope q.vault.records scope).forM
        (dropEdges (closure scope (inScope q.vault.records scope) ts).gone))
      (fun _ => Listed q []) (fun _ _ => False) :=
    Spec.forM fun r rest => dropEdges_spec _ r rest
  apply Spec.bind (Q := fun _ p => Steady p₀ p ∧
    ∀ id ∈ (closure scope (inScope q.vault.records scope) ts).derived,
      WrittenInside p.vault scope id)
  · rintro p ⟨rfl, hp⟩
    have hin : ∀ id ∈ (closure scope (inScope q.vault.records scope) ts).derived,
        WrittenInside q.vault scope id := by
      intro id hid
      obtain ⟨r, hr, rfl, hw⟩ := (closure_names scope _ ts).derived id hid
      exact writtenInside_of_stored hp.reach ((inScope_listed hp).2.1 r hr) hw
    apply hloop.post _ q (inScope_listed (Steady.refl hp.reach))
    intro _ p h
    exact ⟨hp.trans h.1, fun id hid => (hin id hid).steady h.1⟩
  · exact fun _ => Spec.pure fun _ h => h

theorem purgeRecords_spec (hscope : selector.scope = some scope) (ids : List String) :
    Spec (fun p => (Kept p₀ p ∧ Authorized selector actor p.forget.history) ∧
        ∀ id ∈ ids, WrittenInside p.vault scope id)
      (purgeRecords selector scope actor ids) (fun _ => Kept p₀) (fun _ => Kept p₀) := by
  rintro p ⟨⟨hp, hauth⟩, hin⟩
  have hs : Sound ((p.onVault fun v => v.purge ids scope).onForget fun f =>
      f.logPurge selector actor ids) :=
    ⟨hp.reach.purged ids scope, hp.issued, hp.requests,
      ⟨hauth, ⟨scope, hscope, hin⟩, hp.justified.mono fun _ _ h => h⟩,
      congrArg (ids ++ ·) hp.purged⟩
  exact ⟨⟨hs, hp.moves.touch (t := .purge ids scope) .purge⟩, hp.watermarks⟩

theorem Sound.setPending (hs : Sound p) (pending : Dict MemoryScope (Dict String Bool)) :
    Sound (p.onForget fun f => f.setPending pending) := ⟨hs.1, hs.2, hs.3, hs.4, hs.5⟩

theorem settle_spec (selector : ForgetSelector) (scope : MemoryScope)
    (request : Option ForgetRequest) (env : ForgetEnv) (ids : List String) (count : Nat) :
    Spec (Kept p₀) (settle selector scope request env ids count) (fun _ => Kept p₀)
      (fun _ => Kept p₀) := by
  apply Spec.bind (Spec.get (Q := fun _ => Kept p₀) fun _ h => h)
  intro q
  apply Spec.bind (Spec.modify (Q := fun _ => Kept p₀) fun _ h => h.onForget (h.setPending _))
  intro _
  split
  · apply Spec.bind (Spec.modify (Q := fun _ => Kept p₀) fun _ h => h.onForget (h.setPending _))
    exact fun _ => Spec.throw fun _ h => h
  · split
    · exact Spec.pure fun _ h => h
    next req =>
      apply Spec.bind (Q := fun _ => Kept p₀)
      · apply Spec.modify
        intro p hp
        exact hp.onForget (hp.record (fun _ => rfl) (fun _ => rfl) (fun h => h) rfl)
      · exact fun _ => Spec.pure fun _ h => h

def Cleared (p₀ : Process) (selector : ForgetSelector) (scope : MemoryScope) (actor : ForgetActor)
    (ids : List String) (p : Process) : Prop :=
  (Kept p₀ p ∧ Authorized selector actor p.forget.history) ∧
    ∀ id ∈ ids, WrittenInside p.vault scope id

theorem deriveTargets_spec (hp : Kept p₀ p) (hauth : Authorized selector actor p.forget.history) :
    Spec (fun q => p = q)
      (deriveTargets selector scope (targets p.vault.records selector scope))
      (fun d => Cleared p₀ selector scope actor
        (sortedIds (targets p.vault.records selector scope) d.1)) (fun _ => Kept p₀) := by
  have ht : ∀ id ∈ targets p.vault.records selector scope, WrittenInside p.vault scope id :=
    fun id hid => targets_inside hp.reach hid
  have hsorted : ∀ {id : String} {ts ds : List String}, id ∈ sortedIds ts ds → id ∈ ts ∨ id ∈ ds := by
    intro id ts ds hid
    exact List.mem_append.1 (List.mem_dedup.1 ((List.mem_insertionSort (· ≤ ·)).1 hid))
  rw [deriveTargets]
  split
  · have hderived := fun ts => @derivedOf_spec p ts scope
    apply (hderived _).conseq _ _ fun _ _ h => h.elim
    · rintro q rfl
      exact Steady.refl hp.reach
    rintro d q ⟨hs, hd⟩
    refine ⟨⟨hp.steady hs, by rw [hs.forget]; exact hauth⟩, fun id hid => ?_⟩
    rcases hsorted hid with hid | hid
    · exact (ht id hid).steady hs
    · exact hd id hid
  · apply Spec.pure
    rintro q rfl
    refine ⟨⟨hp, hauth⟩, fun id hid => ?_⟩
    rcases hsorted hid with hid | hid
    · exact ht id hid
    · cases hid

theorem purgeAll_spec (hscope : selector.scope = some scope) (ids : List String) :
    Spec (Cleared p₀ selector scope actor ids) (purgeAll selector scope actor ids)
      (fun _ => Kept p₀) (fun _ => Kept p₀) := by
  rw [purgeAll]
  split
  · exact Spec.pure fun _ h => h.1.1
  · exact purgeRecords_spec hscope ids

theorem perform_spec (hscope : selector.scope = some scope) (request : Option ForgetRequest)
    (env : ForgetEnv) :
    Spec (fun p => Kept p₀ p ∧ Authorized selector actor p.forget.history)
      (perform selector scope actor request env) (fun _ => Kept p₀) (fun _ => Kept p₀) := by
  apply Spec.bind (Spec.get (Q := fun q p => q = p ∧ Kept p₀ p ∧
    Authorized selector actor p.forget.history) fun _ h => ⟨rfl, h⟩)
  intro q
  apply Spec.bind (Q := fun d => Cleared p₀ selector scope actor
    (sortedIds (targets q.vault.records selector scope) d.1))
  · rintro p ⟨rfl, hp, hauth⟩
    exact deriveTargets_spec hp hauth q rfl
  · intro derived
    apply Spec.bind (purgeAll_spec hscope _)
    exact fun count => settle_spec selector scope request env _ count

theorem execute_spec (selector : ForgetSelector) (actor : Option ForgetActor) (env : ForgetEnv) :
    Spec (Kept p₀) (execute selector actor env) (fun _ => Kept p₀) (fun _ => Kept p₀) := by
  cases actor with
  | none => exact Spec.throw fun _ h => h
  | some actor =>
    cases hscope : selector.scope with
    | none =>
      simp only [execute, hscope]
      exact Spec.throw fun _ h => h
    | some scope =>
      simp only [execute, hscope]
      exact Spec.bind (authorize_spec selector actor env) fun request =>
        perform_spec hscope request env

end Prismal.Memory
