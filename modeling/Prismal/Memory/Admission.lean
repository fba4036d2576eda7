import Prismal.Memory.Writes

namespace Prismal.Memory
open Prismal.Lib Prismal.Decisions
set_option autoImplicit true

/-! What the write gate answers and stores. -/

def WriteGate.duplicate (host : Host) (gate : WriteGate) (candidate : MemoryCandidate)
    (ctx : MemoryContext) (records : Records) : Option MemoryRecord :=
  (neighborsOf host gate.policy (host.sanitize candidate.content) ctx records).find? fun r =>
    decide (contentHash host r.content = contentHash host (host.sanitize candidate.content))

def WriteGate.bounded (host : Host) (gate : WriteGate) (candidate : MemoryCandidate) : Prop :=
  bound gate.policy candidate.content (host.sanitize candidate.content) = ""

def WriteGate.storedType (gate : WriteGate) (env : WriteEnv) (candidate : MemoryCandidate)
    (tainted : Bool) : Option MemoryType :=
  if gate.shadow then some (downgrade tainted (candidate.suggestedType.getD .episodic))
  else if (gate.verdict env candidate [] tainted).status = .stored then
    (gate.verdict env candidate [] tainted).type
  else none

abbrev PutsNothing (x : MemoryM α) : Prop :=
  Keeps (fun p : Process => p.vault.written) (fun _ => True) x

theorem update_putsNothing (r : MemoryRecord) : PutsNothing (update r) := by
  apply Keeps.bind Keeps.get
  intro p _
  split
  · exact Keeps.modify fun _ => rfl
  · exact Keeps.throw _

theorem supersedeNeighbor_putsNothing (record : MemoryRecord) (r : Relation) :
    PutsNothing (supersedeNeighbor record r) := by
  rw [supersedeNeighbor]
  split
  · exact update_putsNothing _
  · exact Keeps.pure trivial

theorem supersede_putsNothing (record : MemoryRecord) (rs : List Relation) :
    PutsNothing (rs.forM (supersedeNeighbor record)) := by
  induction rs with
  | nil => exact Keeps.pure trivial
  | cons r rs ih =>
    exact Keeps.bind (supersedeNeighbor_putsNothing record r) fun _ _ => ih

theorem store_fresh (hr : Reach p.vault)
    (h : store host candidate ctx verdict type tainted sources p = .ok r p') :
    r.id ∉ p.vault.written := by
  obtain ⟨now, p₁, h₁, h₂⟩ := bind_ok h
  obtain ⟨rid, p₂, h₃, h₄⟩ := bind_ok h₂
  obtain ⟨u, p₃, h₅, h₆⟩ := bind_ok h₄
  obtain ⟨rfl, rfl⟩ := pure_ok h₆
  have hclock : p₁.vault = p.vault := by
    cases h₁
    rfl
  have hlt : p₁.vault.lastId < max (host.timeNs p₁.idDraws) (p₁.vault.lastId + 1) := by omega
  have hid : rid = recordId (max (host.timeNs p₁.idDraws) (p₁.vault.lastId + 1))
      (host.urandom p₁.idDraws) := by
    cases h₃
    rfl
  rw [hclock] at hlt hid
  change rid ∉ p.vault.written
  rw [hid]
  exact hr.fresh hlt

theorem store_ok {verdict : Verdict}
    (h : store host candidate ctx verdict type tainted sources p = .ok r p') :
    (∃ now rid, r = built candidate ctx verdict type tainted sources now rid) ∧
      p'.vault.written = p.vault.written.put r := by
  obtain ⟨now, p₁, h₁, h₂⟩ := bind_ok h
  obtain ⟨rid, p₂, h₃, h₄⟩ := bind_ok h₂
  obtain ⟨u, p₃, h₅, h₆⟩ := bind_ok h₄
  obtain ⟨rfl, rfl⟩ := pure_ok h₆
  obtain ⟨u', p₄, h₇, h₈⟩ := bind_ok h₅
  have hclock : p₁.vault = p.vault := by
    cases h₁
    rfl
  have hid : p₂.vault.written = p₁.vault.written := by
    cases h₃
    rfl
  have hput : p₄.vault.written = p₂.vault.written.put
      (built candidate ctx verdict type tainted sources now rid) := by
    cases h₇
    rfl
  have hlinks := (supersede_putsNothing _ _ _ _ _ h₈).1
  refine ⟨⟨now, rid, rfl⟩, ?_⟩
  calc p'.vault.written = p₄.vault.written := hlinks
    _ = p₂.vault.written.put (built candidate ctx verdict type tainted sources now rid) := hput
    _ = _ := by rw [hid, hclock]

theorem relate_status (v : Verdict) (rs : List Relation) :
    (v.relate rs).status = v.status ∧ (v.relate rs).type = v.type := ⟨rfl, rfl⟩

theorem verdict_alone (gate : WriteGate) (env : WriteEnv) (candidate : MemoryCandidate)
    (content : String) (neighbors : List MemoryRecord) (tainted : Bool) :
    (gate.verdict env (candidate.withContent content) neighbors tainted).status =
        (gate.verdict env candidate [] tainted).status ∧
      (gate.verdict env (candidate.withContent content) neighbors tainted).type =
        (gate.verdict env candidate [] tainted).type := by
  rw [WriteGate.verdict, WriteGate.verdict]
  cases gate.mode with
  | off => exact ⟨rfl, rfl⟩
  | llm => exact ⟨rfl, rfl⟩
  | decision =>
    have hrelate : ∀ ns, (decisionVerdict gate.policy env ns tainted).status =
          (worthVerdict gate.policy env tainted).status ∧
        (decisionVerdict gate.policy env ns tainted).type =
          (worthVerdict gate.policy env tainted).type := by
      intro ns
      rw [decisionVerdict]
      split
      · exact relate_status _ _
      · exact ⟨rfl, rfl⟩
    exact ⟨(hrelate _).1.trans (hrelate _).1.symm, (hrelate _).2.trans (hrelate _).2.symm⟩

/-- What one call of the gate answers and does. -/
inductive Evaluated (host : Host) (gate : WriteGate) (candidate : MemoryCandidate)
    (ctx : MemoryContext) (tainted : Bool) (env : WriteEnv) (p : Process) :
    WriteOutcome → Option MemoryRecord → Process → Prop where
  | refused (hb : ¬ gate.bounded host candidate) (hs : out.status ≠ .merged) :
    Evaluated host gate candidate ctx tainted env p out none p
  | merged (hb : gate.bounded host candidate)
      (hd : gate.duplicate host candidate ctx p.vault.records = some dup)
      (hs : out.status = if gate.shadow then .shadow else .merged) :
    Evaluated host gate candidate ctx tainted env p out (some dup) p
  | skipped (hb : gate.bounded host candidate)
      (hd : gate.duplicate host candidate ctx p.vault.records = none)
      (ht : gate.storedType env candidate (tainted || env.scanTainted) = none)
      (hs : out.status ≠ .merged) :
    Evaluated host gate candidate ctx tainted env p out none p
  | stored (hb : gate.bounded host candidate)
      (hd : gate.duplicate host candidate ctx p.vault.records = none)
      (ht : gate.storedType env candidate (tainted || env.scanTainted) = some r.type)
      (htaint : r.provenance.tainted = (tainted || env.scanTainted))
      (htrust : r.provenance.trust = trustOf (tainted || env.scanTainted) candidate.origin)
      (hnew : Reach p.vault → r.id ∉ p.vault.written)
      (hw : p'.vault.written = p.vault.written.put r) (hs : out.status ≠ .merged) :
    Evaluated host gate candidate ctx tainted env p out (some r) p'

variable {host : Host} {gate : WriteGate} {candidate : MemoryCandidate} {ctx : MemoryContext}
  {tainted : Bool} {sources : List String} {env : WriteEnv} {verdict : Verdict}
  {out : WriteOutcome} {found : Option MemoryRecord} {p p' : Process}

theorem final_status (gate : WriteGate) (verdict : Verdict) (record : Option MemoryRecord)
    (shadowOf : Option Verdict) :
    (gate.final verdict record shadowOf).status =
    if gate.shadow then .shadow else verdict.status := by
  rw [WriteGate.final]
  split <;> rfl

theorem final_ne_merged (h : verdict.status ≠ .merged) (gate : WriteGate)
    (record : Option MemoryRecord) (shadowOf : Option Verdict) :
    (gate.final verdict record shadowOf).status ≠ .merged := by
  rw [final_status]
  split
  · decide
  · exact h

theorem status_ne_merged (gate : WriteGate) (env : WriteEnv) (candidate : MemoryCandidate)
    (neighbors : List MemoryRecord) (tainted : Bool) :
    (gate.verdict env candidate neighbors tainted).status ≠ .merged := by
  have hskip : ∀ backend reason, (skipped backend reason).status ≠ .merged := by
    intro backend reason h
    cases h
  have hllm : ∀ t reason, (llmVerdict env t reason).status ≠ .merged := by
    intro t reason
    rw [llmVerdict]
    split
    · exact hskip _ _
    · exact hskip _ _
    · exact hskip _ _
    · exact fun h => by cases h
  have hlow : ∀ t, (lowConfidence gate.policy env t).status ≠ .merged := by
    intro t
    rw [lowConfidence]
    split
    · exact hllm t _
    · exact hllm t _
    · exact hskip _ _
  have htype : ∀ worth, (typeVerdict gate.policy env worth).status ≠ .merged := by
    intro worth
    rw [typeVerdict]
    split
    · exact hlow _
    · split
      · exact hlow _
      · split
        · exact fun h => by cases h
        · exact hlow _
  have hworth : (worthVerdict gate.policy env tainted).status ≠ .merged := by
    rw [worthVerdict]
    split
    · exact hlow _
    · split
      · exact hlow _
      · split
        · exact fun h => by cases h
        · split
          · exact fun h => by cases h
          · exact htype _
  rw [WriteGate.verdict]
  cases gate.mode with
  | off => exact fun h => by cases h
  | llm => exact hllm _ _
  | decision =>
    change (decisionVerdict gate.policy env neighbors tainted).status ≠ .merged
    rw [decisionVerdict]
    split
    · exact hworth
    · exact hworth

theorem enforce_cases
    (h : gate.enforce host candidate ctx verdict tainted sources p = .ok (out, found) p')
    (hs : verdict.status ≠ .merged) : out.status ≠ .merged ∧
      ((verdict.status = .stored ∧ ∃ type r, verdict.type = some type ∧ found = some r ∧
          store host candidate ctx verdict type tainted sources p = .ok r p') ∨
        ((verdict.status = .stored → verdict.type = none) ∧ found = none ∧ p' = p)) := by
  have hnone : ∀ v : Verdict, (v.status = .stored → v.type = none) →
      gate.enforce host candidate ctx v tainted sources = pure (gate.final v none none, none) := by
    intro v hv
    rw [WriteGate.enforce]
    split
    next type hstatus htype =>
      rw [hv hstatus] at htype
      cases htype
    · rfl
  by_cases hstored : verdict.status = .stored
  · cases htype : verdict.type with
    | none =>
      rw [hnone verdict fun _ => htype] at h
      obtain ⟨hr, rfl⟩ := pure_ok h
      cases hr
      exact ⟨final_ne_merged hs gate _ _, .inr ⟨fun _ => rfl, rfl, rfl⟩⟩
    | some type =>
      have hrun : gate.enforce host candidate ctx verdict tainted sources = (do
          let record ← store host candidate ctx verdict type tainted sources
          pure (gate.final verdict (some record) none, some record)) := by
        rw [WriteGate.enforce, hstored, htype]
      rw [hrun] at h
      obtain ⟨r, p₁, h₁, h₂⟩ := bind_ok h
      obtain ⟨hr, rfl⟩ := pure_ok h₂
      cases hr
      exact ⟨final_ne_merged hs gate _ _, .inl ⟨hstored, type, r, rfl, rfl, h₁⟩⟩
  · rw [hnone verdict fun h => absurd h hstored] at h
    obtain ⟨hr, rfl⟩ := pure_ok h
    cases hr
    exact ⟨final_ne_merged hs gate _ _, .inr ⟨fun h => absurd h hstored, rfl, rfl⟩⟩

theorem shadowed_cases
    (h : gate.shadowed host candidate ctx verdict tainted sources p = .ok (out, found) p')
    (hshadow : gate.shadow = true) : out.status ≠ .merged ∧ ∃ r, found = some r ∧
      store host candidate ctx (gateOff candidate tainted)
        (downgrade tainted (candidate.suggestedType.getD .episodic)) tainted sources p =
        .ok r p' := by
  obtain ⟨r, p₁, h₁, h₂⟩ := bind_ok h
  obtain ⟨hr, rfl⟩ := pure_ok h₂
  cases hr
  refine ⟨?_, r, rfl, h₁⟩
  rw [final_status, if_pos hshadow]
  decide

theorem evaluate_cases
    (h : gate.evaluate host candidate ctx tainted sources env p = .ok (out, found) p') :
    Evaluated host gate candidate ctx tainted env p out found p' := by
  rw [WriteGate.evaluate] at h
  by_cases hb : gate.bounded host candidate
  · have hnot : ¬ bound gate.policy candidate.content (host.sanitize candidate.content) ≠ "" :=
      not_not.2 hb
    rw [if_neg hnot] at h
    obtain ⟨q, p₁, h₁, h₂⟩ := bind_ok h
    obtain ⟨hq, hp₁⟩ := get_ok h₁
    rw [hq, hp₁, WriteGate.admit] at h₂
    cases hd : gate.duplicate host candidate ctx p.vault.records with
    | some dup =>
      have hfind : (neighborsOf host gate.policy (host.sanitize candidate.content) ctx
          p.vault.records).find? (fun r => decide (contentHash host r.content = contentHash host
          (candidate.withContent (host.sanitize candidate.content)).content)) = some dup := hd
      rw [hfind] at h₂
      obtain ⟨hr, rfl⟩ := pure_ok h₂
      cases hr
      exact .merged hb hd (final_status gate _ _ _)
    | none =>
      have hfind : (neighborsOf host gate.policy (host.sanitize candidate.content) ctx
          p.vault.records).find? (fun r => decide (contentHash host r.content = contentHash host
          (candidate.withContent (host.sanitize candidate.content)).content)) = none := hd
      rw [hfind] at h₂
      obtain ⟨hstatus, htype⟩ := verdict_alone gate env candidate (host.sanitize candidate.content)
        ((neighborsOf host gate.policy (host.sanitize candidate.content) ctx
          p.vault.records).take gate.policy.relationK) (tainted || env.scanTainted)
      dsimp only at h₂
      by_cases hshadow : gate.shadow = true
      · rw [if_pos hshadow] at h₂
        obtain ⟨hne, r, rfl, hstore⟩ := shadowed_cases h₂ hshadow
        obtain ⟨⟨now, rid, hr⟩, hw⟩ := store_ok hstore
        refine .stored hb hd ?_ (by rw [hr]; rfl) (by rw [hr]; rfl)
          (fun hreach => store_fresh hreach hstore) hw hne
        rw [WriteGate.storedType, if_pos hshadow, hr]
        rfl
      · rw [if_neg hshadow] at h₂
        obtain ⟨hne, ⟨hs, type, r, ht, rfl, hstore⟩ | ⟨hs, rfl, rfl⟩⟩ := enforce_cases h₂
          (status_ne_merged gate env _ _ _)
        · obtain ⟨⟨now, rid, hr⟩, hw⟩ := store_ok hstore
          refine .stored hb hd ?_ (by rw [hr]; rfl) (by rw [hr]; rfl)
            (fun hreach => store_fresh hreach hstore) hw hne
          rw [WriteGate.storedType, if_neg hshadow, if_pos (hstatus.symm.trans hs), hr,
            ← htype, ht]
          rfl
        · refine .skipped hb hd ?_ hne
          rw [WriteGate.storedType, if_neg hshadow]
          split
          next hs' => exact htype.symm.trans (hs (hstatus.trans hs'))
          · rfl
  · have hwhy : bound gate.policy candidate.content (host.sanitize candidate.content) ≠ "" := hb
    rw [if_pos hwhy] at h
    obtain ⟨hr, rfl⟩ := pure_ok h
    cases hr
    apply Evaluated.refused hb
    exact final_ne_merged (fun hs => by cases hs) gate _ _

theorem mem_allowedTypes {prov : Provenance} : type ∈ allowedTypes prov ↔
    type = .episodic ∨ prov.tainted = false ∧ prov.trust = .trusted := by
  rw [allowedTypes]
  split
  next h =>
    rw [List.mem_singleton]
    refine ⟨.inl, fun h' => h'.resolve_right ?_⟩
    rintro ⟨ht, htrust⟩
    rw [ht, htrust] at h
    cases h
  next h =>
    rw [Bool.not_eq_true, Bool.or_eq_false_iff, decide_eq_false_iff_not, not_not] at h
    refine ⟨fun _ => .inr h, fun _ => ?_⟩
    cases type <;> decide

/-- The gate stores an untainted legacy candidate under another type than `EPISODIC`. -/
def Promoted (host : Host) (gate : WriteGate) (candidate : MemoryCandidate) (ctx : MemoryContext)
    (tainted : Bool) (env : WriteEnv) (records : Records) : Prop :=
  candidate.origin = .legacy ∧ (tainted || env.scanTainted) = false ∧
    gate.bounded host candidate ∧ gate.duplicate host candidate ctx records = none ∧
    ∃ type, gate.storedType env candidate false = some type ∧ type ≠ .episodic

theorem storedType_tainted (gate : WriteGate) (env : WriteEnv) (candidate : MemoryCandidate)
    (h : gate.storedType env candidate true = some type) : type = .episodic := by
  rw [WriteGate.storedType] at h
  split at h
  · rw [← Option.some.inj h]
    exact downgrade_tainted _
  · split at h
    · exact safe_verdict gate env candidate [] true rfl type h
    · cases h

theorem built_allowed {r : MemoryRecord}
    (ht : gate.storedType env candidate tainted = some r.type)
    (htaint : r.provenance.tainted = tainted)
    (htrust : r.provenance.trust = trustOf tainted candidate.origin) :
    r.type ∈ allowedTypes r.provenance ↔
      ¬ (candidate.origin = .legacy ∧ tainted = false ∧ r.type ≠ .episodic) := by
  rw [mem_allowedTypes, htaint, htrust]
  cases tainted with
  | true =>
    have hep := storedType_tainted gate env candidate ht
    exact ⟨fun _ h => h.2.2 hep, fun _ => .inl hep⟩
  | false =>
    rw [trustOf]
    by_cases hlegacy : candidate.origin = .legacy
    · constructor
      · rintro (hep | ⟨-, htrusted⟩) h
        · exact h.2.2 hep
        · rw [if_neg (by decide), if_pos hlegacy] at htrusted
          cases htrusted
      · intro h
        left
        by_contra hne
        exact h ⟨hlegacy, rfl, hne⟩
    · refine ⟨fun _ h => hlegacy h.1, fun _ => .inr ⟨rfl, ?_⟩⟩
      rw [if_neg (by decide), if_neg hlegacy]

/-- What a call of the gate stores is of an allowed type exactly when it promotes no untainted
legacy candidate. -/
theorem stored_type_allowed (hr : Reach p.vault)
    (h : gate.evaluate host candidate ctx tainted sources env p = .ok (out, found) p') :
    (∀ r, r.id ∉ p.vault.written → p'.vault.written.get? r.id = some r →
        r.type ∈ allowedTypes r.provenance) ↔
      ¬ Promoted host gate candidate ctx tainted env p.vault.records := by
  cases evaluate_cases h with
  | refused hb hs =>
    constructor
    · rintro - ⟨-, -, hb', -⟩
      exact hb hb'
    · exact fun _ r hn hg => absurd (Dict.mem_of_get? hg) hn
  | merged hb hd hs =>
    constructor
    · rintro - ⟨-, -, -, hd', -⟩
      rw [hd] at hd'
      cases hd'
    · exact fun _ r hn hg => absurd (Dict.mem_of_get? hg) hn
  | skipped hb hd ht hs =>
    constructor
    · rintro - ⟨-, hfalse, -, -, type, ht', -⟩
      rw [hfalse, ht'] at ht
      cases ht
    · exact fun _ r hn hg => absurd (Dict.mem_of_get? hg) hn
  | @stored r _ _ hb hd ht htaint htrust hfresh hw hs =>
    have hnew := hfresh hr
    have hall := built_allowed ht htaint htrust
    constructor
    · rintro hallowed ⟨hlegacy, hfalse, -, -, type, ht', hne⟩
      have hget : p'.vault.written.get? r.id = some r := by
        rw [hw, Records.get?_put, if_pos rfl]
      apply hall.1 (hallowed r hnew hget)
      rw [hfalse, ht'] at ht
      exact ⟨hlegacy, hfalse, Option.some.inj ht ▸ hne⟩
    · intro hnot q hq hget
      rw [hw, Records.get?_put] at hget
      split at hget
      · cases hget
        apply hall.2
        rintro ⟨hlegacy, hfalse, hne⟩
        rw [hfalse] at ht
        exact hnot ⟨hlegacy, hfalse, hb, hd, r.type, ht, hne⟩
      · exact absurd (Dict.mem_of_get? hget) hq

def legacyNote : MemoryCandidate where
  content := "the build runs on node 20"
  sourceMessageIds := ["m1"]
  origin := .legacy
  suggestedType := some .semantic

def toolNote : MemoryCandidate := { legacyNote with origin := .tool }

/-- A candidate of another origin is stored under the type that it suggests. -/
theorem stored_type_allowed_tool : ∃ out found p',
    openGate.evaluate plainHost toolNote acmeContext false [] {} {} = .ok (out, found) p' ∧
    ∀ r, p'.vault.written.get? r.id = some r → r.type ∈ allowedTypes r.provenance := by
  have hnot : ¬ Promoted plainHost openGate toolNote acmeContext false {} ∅ := by
    rintro ⟨horigin, -⟩
    cases horigin
  have hok : raises (openGate.evaluate plainHost toolNote acmeContext false [] {} {}) = false := by
    rfl
  cases h : openGate.evaluate plainHost toolNote acmeContext false [] {} {} with
  | error e p' =>
    rw [h] at hok
    cases hok
  | ok answer p' =>
    obtain ⟨out, found⟩ := answer
    refine ⟨out, found, p', rfl, fun r hget => ?_⟩
    exact (stored_type_allowed Reach.empty h).2 hnot r Dict.not_mem_empty hget

def storedLegacy : Option MemoryRecord :=
  match openGate.evaluate plainHost legacyNote acmeContext false [] {} {} with
  | .ok (_, found) p' => found.bind fun r => p'.vault.records.get? r.id
  | .error _ _ => none

theorem legacy_stored_semantic : ∃ r, storedLegacy = some r ∧ r.type = .semantic ∧
    r.provenance.trust = .unknown ∧ r.type ∉ allowedTypes r.provenance := by
  have hsome : (storedLegacy.any fun r => decide (r.type = .semantic) &&
      decide (r.provenance.trust = .unknown) && decide (r.type ∉ allowedTypes r.provenance)) =
      true := by rfl
  obtain ⟨r, hr, hfacts⟩ := (Option.any_eq_true _ _).1 hsome
  simp only [Bool.and_eq_true, decide_eq_true_eq] at hfacts
  exact ⟨r, hr, hfacts.1.1, hfacts.1.2, hfacts.2⟩

/-! What a merge keeps. -/

def MemoryCandidate.rank (c : MemoryCandidate) (tainted : Bool) : Nat :=
  if c.origin = .human then 3
  else
    match trustOf tainted c.origin with
    | .trusted => 2
    | .unknown => 1
    | .untrusted => 0

/-- Every request that sees a record of `scope` sees one of `kept`. -/
def SeenWherever (scope kept : MemoryScope) : Prop :=
  ∀ request : MemoryScope, request.covers scope = true → request.covers kept = true

def Looser (kept field : Option String) : Prop := kept = none ∨ kept = field

/-- `kept` is of the same tenant and narrows nothing that `scope` leaves open. -/
structure Wider (kept scope : MemoryScope) : Prop where
  org : kept.orgId = scope.orgId
  user : Looser kept.userId scope.userId
  agent : Looser kept.agent scope.agent
  thread : Looser kept.threadId scope.threadId

def TrustedAsMuch (r : MemoryRecord) (origin : Origin) (tainted : Bool) : Prop :=
  r.provenance.origin = .human ∨ origin ≠ .human ∧
    (tainted = true ∨ r.provenance.trust = .trusted ∨
      origin = .legacy ∧ r.provenance.trust = .unknown)

theorem compatible_of_looser (h : Looser kept field) (hc : compatible want field = true) :
    compatible want kept = true := by
  rcases h with rfl | rfl
  · rw [compatible, Option.isNone_none, Bool.or_true, Bool.true_or]
  · exact hc

theorem seenWherever_of_wider (h : Wider kept scope) : SeenWherever scope kept := by
  intro request hc
  simp only [MemoryScope.covers, Bool.and_eq_true, decide_eq_true_eq] at hc ⊢
  obtain ⟨⟨⟨horg, huser⟩, hagent⟩, hthread⟩ := hc
  exact ⟨⟨⟨h.org.trans horg, compatible_of_looser h.user huser⟩,
    compatible_of_looser h.agent hagent⟩, compatible_of_looser h.thread hthread⟩

theorem exists_compatible (h : ¬ Looser kept field) :
    ∃ want, compatible want field = true ∧ compatible want kept = false := by
  cases kept with
  | none => exact absurd (.inl rfl) h
  | some x =>
    cases field with
    | none =>
      refine ⟨some (x ++ "'"), rfl, ?_⟩
      have hne : some x ≠ some (x ++ "'") := by
        intro he
        have hlen := congrArg String.length (Option.some.inj he)
        rw [String.length_append] at hlen
        have hone : "'".length = 1 := by decide
        omega
      rw [compatible, Option.isNone_some, Option.isNone_some, Bool.false_or, Bool.false_or]
      exact decide_eq_false hne
    | some y =>
      refine ⟨some y, ?_, ?_⟩
      · rw [compatible, decide_eq_true rfl, Bool.or_true]
      · rw [compatible, Option.isNone_some, Option.isNone_some, Bool.false_or, Bool.false_or]
        exact decide_eq_false fun he => h (.inr he)

theorem wider_of_seenWherever (h : SeenWherever scope kept) : Wider kept scope := by
  have hopen : ∀ field, compatible none field = true := fun _ => rfl
  have hcovers : ∀ request : MemoryScope, request.covers scope = true →
      (kept.orgId = request.orgId ∧ compatible request.userId kept.userId = true) ∧
        compatible request.agent kept.agent = true ∧
        compatible request.threadId kept.threadId = true := by
    intro request hc
    have hk := h request hc
    simp only [MemoryScope.covers, Bool.and_eq_true, decide_eq_true_eq] at hk
    exact ⟨hk.1.1, hk.1.2, hk.2⟩
  have hsees : ∀ user agent thread, compatible user scope.userId = true →
      compatible agent scope.agent = true → compatible thread scope.threadId = true →
      ({ orgId := scope.orgId, userId := user, agent := agent, threadId := thread,
         nonEmpty := scope.nonEmpty } : MemoryScope).covers scope = true := by
    intro user agent thread hu ha ht
    simp only [MemoryScope.covers, Bool.and_eq_true, decide_eq_true_eq]
    exact ⟨⟨⟨trivial, hu⟩, ha⟩, ht⟩
  refine ⟨(hcovers _ (hsees none none none (hopen _) (hopen _) (hopen _))).1.1, ?_, ?_, ?_⟩
  · by_contra hl
    obtain ⟨want, hw, hk⟩ := exists_compatible hl
    have hsee := (hcovers _ (hsees want none none hw (hopen _) (hopen _))).1.2
    rw [hk] at hsee
    cases hsee
  · by_contra hl
    obtain ⟨want, hw, hk⟩ := exists_compatible hl
    have hsee := (hcovers _ (hsees none want none (hopen _) hw (hopen _))).2.1
    rw [hk] at hsee
    cases hsee
  · by_contra hl
    obtain ⟨want, hw, hk⟩ := exists_compatible hl
    have hsee := (hcovers _ (hsees none none want (hopen _) (hopen _) hw)).2.2
    rw [hk] at hsee
    cases hsee

theorem rank_le_iff (c : MemoryCandidate) (tainted : Bool) (r : MemoryRecord) :
    c.rank tainted ≤ provenanceRank r ↔ TrustedAsMuch r c.origin tainted := by
  rw [MemoryCandidate.rank, provenanceRank, TrustedAsMuch, trustOf]
  by_cases hr : r.provenance.origin = .human
  · rw [if_pos hr]
    refine ⟨fun _ => .inl hr, fun _ => ?_⟩
    split
    · exact le_rfl
    · split <;> omega
  · rw [if_neg hr]
    by_cases hc : c.origin = .human
    · rw [if_pos hc]
      constructor
      · intro h
        split at h <;> omega
      · rintro (h | h)
        · exact absurd h hr
        · exact absurd hc h.1
    · rw [if_neg hc]
      cases tainted with
      | true => exact ⟨fun _ => .inr ⟨hc, .inl rfl⟩, fun _ => Nat.zero_le _⟩
      | false =>
        by_cases hl : c.origin = .legacy
        · cases r.provenance.trust <;> simp [hr, hl]
        · cases r.provenance.trust <;> simp [hr, hc, hl]

theorem evaluate_merged (hb : gate.bounded host candidate)
    (hd : gate.duplicate host candidate ctx p.vault.records = some dup) :
    ∃ out, gate.evaluate host candidate ctx tainted sources env p = .ok (out, some dup) p ∧
      out.status = if gate.shadow then .shadow else .merged := by
  have hnot : ¬ bound gate.policy candidate.content (host.sanitize candidate.content) ≠ "" :=
    not_not.2 hb
  have hget : (get : MemoryM Process) p = .ok p p := rfl
  have hfind : (neighborsOf host gate.policy (host.sanitize candidate.content) ctx
      p.vault.records).find? (fun r => decide (contentHash host r.content = contentHash host
      (candidate.withContent (host.sanitize candidate.content)).content)) = some dup := hd
  refine ⟨_, ?_, final_status gate ⟨.merged, some dup.type, dup.confidence, "rule", "duplicate", []⟩
    (some dup) none⟩
  rw [WriteGate.evaluate, if_neg hnot, bind_of_ok hget, WriteGate.admit, hfind]
  rfl

/-- A merge keeps what the candidate would have been, for every reader, exactly when the duplicate
that the gate finds is of a scope as wide and trusted as much. -/
theorem merged_dominates (host : Host) (gate : WriteGate) (candidate : MemoryCandidate)
    (ctx : MemoryContext) (tainted : Bool) (sources : List String) (env : WriteEnv) (p : Process) :
    (∀ out dup p', gate.evaluate host candidate ctx tainted sources env p =
        .ok (out, some dup) p' → out.status = .merged →
        SeenWherever ctx.scope dup.scope ∧
          candidate.rank (tainted || env.scanTainted) ≤ provenanceRank dup) ↔
      (gate.shadow = false → gate.bounded host candidate →
        ∀ dup, gate.duplicate host candidate ctx p.vault.records = some dup →
          Wider dup.scope ctx.scope ∧
            TrustedAsMuch dup candidate.origin (tainted || env.scanTainted)) := by
  constructor
  · intro h hshadow hb dup hd
    obtain ⟨out, he, hs⟩ := evaluate_merged hb hd
    rw [hshadow] at hs
    obtain ⟨hseen, hrank⟩ := h out dup p he hs
    exact ⟨wider_of_seenWherever hseen, (rank_le_iff candidate _ dup).1 hrank⟩
  · intro h out dup p' he hs
    cases evaluate_cases he with
    | merged hb hd hstatus =>
      have hshadow : gate.shadow = false := by
        cases hsh : gate.shadow with
        | false => rfl
        | true =>
          rw [hsh, hs] at hstatus
          cases hstatus
      obtain ⟨hwide, htrust⟩ := h hshadow hb dup hd
      exact ⟨seenWherever_of_wider hwide, (rank_le_iff candidate _ dup).2 htrust⟩
    | stored _ _ _ _ _ _ _ hne => exact absurd hs hne

def threadContext (thread : String) : MemoryContext :=
  { acmeContext with scope := { acme with threadId := some thread } }

/-- What the gate answers to a note for the whole tenant that a thread has already stored, and
whether another thread sees what is kept. -/
def mergedAcrossThreads : Option (WriteStatus × MemoryScope) :=
  match openGate.evaluate plainHost toolNote (threadContext "t9") false [] {} {} with
  | .ok _ p =>
    match openGate.evaluate plainHost toolNote acmeContext false [] {} p with
    | .ok (out, some dup) _ => some (out.status, dup.scope)
    | _ => none
  | .error _ _ => none

theorem merged_into_thread : ∃ kept, mergedAcrossThreads = some (.merged, kept) ∧
    (threadContext "t1").scope.covers acme = true ∧
    (threadContext "t1").scope.covers kept = false := by
  have hsome : (mergedAcrossThreads.any fun m => decide (m.1 = .merged) &&
      decide ((threadContext "t1").scope.covers acme = true) &&
      decide ((threadContext "t1").scope.covers m.2 = false)) = true := by decide +kernel
  obtain ⟨m, hm, hfacts⟩ := (Option.any_eq_true _ _).1 hsome
  obtain ⟨status, kept⟩ := m
  simp only [Bool.and_eq_true, decide_eq_true_eq] at hfacts
  obtain ⟨⟨rfl, hseen⟩, hhidden⟩ := hfacts
  exact ⟨kept, hm, hseen, hhidden⟩

end Prismal.Memory
