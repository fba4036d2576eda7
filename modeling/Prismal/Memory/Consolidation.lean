import Prismal.Memory.Execution

namespace Prismal.Memory
open Prismal.Lib
set_option autoImplicit true

def duplicateSimilarity : Rat := 19 / 20

def clusterSimilarity : Rat := 1 / 2

def minCluster : Nat := 3

structure Consolidator where
  maxItems : Nat := 5000
  relationK : Nat := 5
  usesBatch : Bool := false
  /-- the settings of the forget policy, when there is one -/
  retention : Option RetentionSettings := none

/-- What one run is told: the `supports` decision about a pair, the text of a summary (`none` when
the summarizer failed, with its errors), the forget policy's surroundings and the curator. -/
structure ConsolidationEnv where
  supports : MemoryRecord → MemoryRecord → Bool := fun _ _ => false
  summary : List MemoryRecord → Option String := fun _ => none
  summaryErrors : List String := []
  forget : ForgetSelector → ForgetEnv := fun _ => {}
  curator : Except String Nat := .ok 0

structure ConsolidationReport where
  scope : MemoryScope
  merged : Nat
  superseded : Nat
  summarized : Nat
  playbookDeltas : Nat
  quarantined : Nat
  usedBatch : Bool
  errors : List String

def countM (f : α → MemoryM Nat) (xs : List α) : MemoryM Nat :=
  xs.foldlM (fun n x => do
    let k ← f x
    pure (n + k)) 0

def rank (r : MemoryRecord) : Nat := provenanceRank r

def byPrecedence (a b : MemoryRecord) : MemoryRecord × MemoryRecord :=
  if rank b < rank a then (a, b) else (b, a)

def duplicates (host : Host) (env : ConsolidationEnv) (current : MemoryRecord)
    (hit : MemoryRecord × Rat) : Bool :=
  decide (hit.1.id ≠ current.id) && hit.1.supersededBy.isNone &&
    decide (hit.1.scope = current.scope) && !decide (Records.Earlier current hit.1) &&
    (decide (normalizeContent host.unicode hit.1.content =
        normalizeContent host.unicode current.content) ||
      decide (duplicateSimilarity ≤ hit.2) && env.supports current hit.1)

def mergeHits (host : Host) (env : ConsolidationEnv) (current : MemoryRecord) :
    List (MemoryRecord × Rat) → MemoryM Nat
  | [] => pure 0
  | hit :: rest =>
    let pair := byPrecedence current hit.1
    if duplicates host env current hit && maySupersede pair.1 pair.2 then do
      update (pair.2.supersede pair.1.id)
      if pair.2.id = current.id then pure 1
      else do
        let n ← mergeHits host env current rest
        pure (n + 1)
    else mergeHits host env current rest

def mergeCurrent (host : Host) (c : Consolidator) (env : ConsolidationEnv) (scope : MemoryScope)
    (records : Records) (current : MemoryRecord) : MemoryM Nat :=
  if current.supersededBy.isSome then pure 0
  else mergeHits host env current
    (records.search host.unicode current.content scope (some [current.type]) c.relationK false)

def mergeDuplicates (host : Host) (c : Consolidator) (env : ConsolidationEnv)
    (scope : MemoryScope) (r : MemoryRecord) : MemoryM Nat := do
  let p ← get
  match p.vault.records.get r.id scope with
  | none => pure 0
  | some current => mergeCurrent host c env scope p.vault.records current

/-- `superseded_by` as a condition -/
def truthy (s : Option String) : Bool := s.any fun s => decide (s ≠ "")

/-- `sorted((src, dst), key=_order)` -/
def inOrder (src dst : MemoryRecord) : MemoryRecord × MemoryRecord :=
  if Records.Earlier src dst then (src, dst) else (dst, src)

def contest (src dst : MemoryRecord) : MemoryRecord × MemoryRecord :=
  byPrecedence (inOrder src dst).1 (inOrder src dst).2

def MemoryEdge.same (e edge : MemoryEdge) : Bool :=
  decide (e.srcId = edge.srcId) && decide (e.dstId = edge.dstId) &&
    decide (e.relation = edge.relation)

def MemoryEdge.close (e : MemoryEdge) (now : Rat) : MemoryEdge := { e with validTo := some now }

def closeEdges (now : Rat) (edge : MemoryEdge) (edges : List MemoryEdge) : List MemoryEdge :=
  edges.map fun e => if e.same edge then e.close now else e

def closeOn (host : Host) (scope : MemoryScope) (holder : String) (edge : MemoryEdge) :
    MemoryM Unit := do
  let fresh ← fetch holder scope
  match fresh with
  | none => pure ()
  | some fresh =>
    let now ← readClock host
    update (fresh.withEdges (closeEdges now edge fresh.edges))

def resolvable (edge : MemoryEdge) : Bool :=
  (decide (edge.relation = .contradicts) || decide (edge.relation = .updates)) &&
    edge.validTo.isNone

def contested (src dst : MemoryRecord) : Bool :=
  !truthy src.supersededBy && !truthy dst.supersededBy && decide (src.scope = dst.scope) &&
    maySupersede (contest src dst).1 (contest src dst).2

def resolveEdge (host : Host) (scope : MemoryScope) (holder : String) (edge : MemoryEdge) :
    MemoryM Nat := do
  let p ← get
  match p.vault.records.get edge.srcId scope, p.vault.records.get edge.dstId scope with
  | some src, some dst =>
    if resolvable edge && contested src dst then do
      update ((contest src dst).2.supersede (contest src dst).1.id)
      closeOn host scope holder edge
      pure 1
    else pure 0
  | _, _ => pure 0

def resolveContradictions (host : Host) (scope : MemoryScope) (r : MemoryRecord) :
    MemoryM Nat := do
  let holder ← fetch r.id scope
  match holder with
  | none => pure 0
  | some holder => countM (resolveEdge host scope holder.id) holder.edges

def episodes (records : Records) (scope : MemoryScope) (window : List MemoryRecord) :
    List MemoryRecord :=
  ((window.filterMap fun r => records.get r.id scope).filter fun r =>
    decide (r.type = .episodic) && r.supersededBy.isNone).insertionSort fun a b => a.id ≤ b.id

abbrev Forest := Dict String String

def Forest.parent (f : Forest) (x : String) : String := (f.get? x).getD x

/-- `find` with path halving -/
def Forest.find : Nat → Forest → String → Forest × String
  | 0, f, x => (f, x)
  | fuel + 1, f, x =>
    if f.parent x = x then (f, x)
    else
      let up := f.parent (f.parent x)
      Forest.find fuel (f.set x up) up

/-- `parent[find(a)] = find(b)`: the right-hand side is evaluated first. -/
def Forest.union (fuel : Nat) (f : Forest) (a b : String) : Forest :=
  let toB := f.find fuel b
  let toA := Forest.find fuel toB.1 a
  toA.1.set toA.2 toB.2

def linked (host : Host) (a b : MemoryRecord) : Bool :=
  (a.edges.any fun e => decide (e.relation = .supports) &&
    (decide (e.dstId = b.id) || decide (e.srcId = b.id))) ||
    decide (clusterSimilarity ≤ max (overlapScore host.unicode a.content b.content)
      (overlapScore host.unicode b.content a.content))

def linkTo (host : Host) (fuel : Nat) (a : MemoryRecord) (f : Forest) (b : MemoryRecord) :
    Forest :=
  if decide (a.scope = b.scope) && linked host a b then f.union fuel a.id b.id else f

def linkAll (host : Host) (fuel : Nat) : List MemoryRecord → Forest → Forest
  | [], f => f
  | a :: rest, f => linkAll host fuel rest (rest.foldl (linkTo host fuel a) f)

/-- `groups.setdefault(find(rid), []).append(episodes[rid])` -/
def groupOne (fuel : Nat) (acc : Forest × Dict String (List MemoryRecord)) (r : MemoryRecord) :
    Forest × Dict String (List MemoryRecord) :=
  let found := acc.1.find fuel r.id
  (found.1, acc.2.set found.2 ((acc.2.get? found.2).getD [] ++ [r]))

def groups (host : Host) (es : List MemoryRecord) : Dict String (List MemoryRecord) :=
  let forest := linkAll host es.length es (Dict.collect (es.map fun r => (r.id, r.id)))
  (es.foldl (groupOne es.length) (forest, ∅)).2

def clusters (host : Host) (es : List MemoryRecord) : List (List MemoryRecord) :=
  ((groups host es).values.filter fun g => decide (minCluster ≤ g.length)).map fun g =>
    g.insertionSort Records.Earlier

def clean (cluster : List MemoryRecord) : List MemoryRecord :=
  cluster.filter fun r => !r.provenance.tainted

def promotable (host : Host) (cluster : List MemoryRecord) : Option (List MemoryRecord) :=
  if !mayPromote host.unicode cluster .semantic false then none
  else if (clean cluster).length < cluster.length &&
      !mayPromote host.unicode (clean cluster) .semantic false then none
  else some (clean cluster)

def summaryProvenance (cluster : List MemoryRecord) (now : Rat) : Provenance where
  origin := .consolidation
  sourceMessageIds := cluster.map MemoryRecord.id
  sessionId := none
  agent := none
  createdAt := now
  tainted := false
  trust := if cluster.all fun r => decide (r.provenance.trust = .trusted) then .trusted
    else .unknown

/-- `_summary_record` once the id is drawn and the clock is read. -/
def summaryRecord (cluster : List MemoryRecord) (text : String) (scope : MemoryScope)
    (confidence : Rat) (rid : String) (now : Rat) : MemoryRecord where
  id := rid
  type := .semantic
  content := text
  scope := scope
  provenance := summaryProvenance cluster now
  confidence := confidence

/-- `(rec_scope,) = {r.scope for r in cluster}`, and `min` of the confidences -/
def commonScope (cluster : List MemoryRecord) : Option (MemoryScope × Rat) :=
  match cluster with
  | [] => none
  | r :: rest =>
    if rest.all fun q => decide (q.scope = r.scope) then
      some (r.scope, rest.foldl (fun m q => min m q.confidence) r.confidence)
    else none

def putSummaryOf (host : Host) (env : ConsolidationEnv) (cluster : List MemoryRecord) :
    MemoryM Nat :=
  match env.summary cluster with
  | none => pure 0
  | some text =>
    if strip text = "" then pure 0
    else
      match commonScope cluster with
      | none => throw .unpackError
      | some (scope, confidence) => do
        let rid ← newRecordId host
        let now ← readClock host
        putSummary (summaryRecord cluster (strip text) scope confidence rid now)
        pure 1

def sortedOut (host : Host) (cs : List (List MemoryRecord)) : List (List MemoryRecord) × Nat :=
  (cs.filterMap (promotable host), cs.countP fun c => (promotable host c).isNone)

/-- `_summarize`: the summarized and the quarantined clusters. -/
def summarize (host : Host) (env : ConsolidationEnv) (scope : MemoryScope)
    (window : List MemoryRecord) : MemoryM (Nat × Nat × Bool) := do
  let p ← get
  let (ready, quarantined) := sortedOut host
    (clusters host (episodes p.vault.records scope window))
  let n ← countM (putSummaryOf host env) ready
  pure (n, quarantined, !ready.isEmpty)

def retentionActor : ForgetActor where
  kind := .rule
  principal := "memory.retention"
  valid := rfl

def runRetention (host : Host) (settings : RetentionSettings) (env : ConsolidationEnv)
    (scope : MemoryScope) : MemoryM (List String) := do
  let rules ← retentionRules host settings (some scope.tenant)
  rules.forM fun selector => do
    let _ ← execute selector (some retentionActor) (env.forget selector)
  pure []

/-- `f"retention:{type(exc).__name__}"` -/
def retentionError : Fault → String
  | .keyError _ => "retention:KeyError"
  | .unpackError => "retention:ValueError"
  | .tenancy => "retention:MemoryTenancyError"
  | .denied _ _ | .notPending _ => "retention:MemoryForgetDenied"
  | .erasureIncomplete _ => "retention:MemoryErasureIncomplete"
  | .callback => "retention:Exception"

def applyRetention (host : Host) (c : Consolidator) (env : ConsolidationEnv)
    (scope : MemoryScope) : MemoryM (List String) :=
  match c.retention with
  | none => pure []
  | some settings =>
    tryCatch (runRetention host settings env scope) fun e => pure [retentionError e]

def windowOf (c : Consolidator) (p : Process) (scope : MemoryScope) : List MemoryRecord :=
  (p.vault.records.list scope (p.watermarks.get? scope) c.maxItems).filter fun r =>
    decide (r.scope.orgId = scope.orgId)

/-- `max(r.provenance.created_at for r in window)` -/
def newest : List MemoryRecord → Option Rat
  | [] => none
  | r :: rest => some (rest.foldl (fun m q => max m q.provenance.createdAt) r.provenance.createdAt)

def moveWatermark (scope : MemoryScope) (window : List MemoryRecord) : MemoryM Unit :=
  match newest window with
  | none => pure ()
  | some t => modify fun p => p.setWatermark scope t

def curateErrors (env : ConsolidationEnv) : List String :=
  match env.curator with
  | .ok _ => []
  | .error name => ["playbooks:" ++ name]

def curated (env : ConsolidationEnv) : Nat :=
  match env.curator with
  | .ok n => n
  | .error _ => 0

def Consolidator.run (host : Host) (c : Consolidator) (scope : MemoryScope)
    (env : ConsolidationEnv) : MemoryM ConsolidationReport := do
  let p ← get
  let window := windowOf c p scope
  let merged ← countM (mergeDuplicates host c env scope) (window.insertionSort Records.Earlier)
  let superseded ← countM (resolveContradictions host scope)
    (window.insertionSort Records.Earlier)
  let (summarized, quarantined, asked) ← summarize host env scope window
  let errors ← applyRetention host c env scope
  moveWatermark scope window
  pure
    { scope := scope
      merged := merged
      superseded := superseded
      summarized := summarized
      playbookDeltas := curated env
      quarantined := quarantined
      usedBatch := asked && c.usesBatch
      errors := (if asked then env.summaryErrors else []) ++ errors ++ curateErrors env }

/-! The first step of a consolidation run: duplicates give way. -/

variable {p p₀ : Process} {host : Host} {scope : MemoryScope}

theorem countM_spec {α : Type} {xs : List α} {f : α → MemoryM Nat} {I : List α → Process → Prop}
    {E : Fault → Process → Prop}
    (hf : ∀ x rest, Spec (I (x :: rest)) (f x) (fun _ => I rest) E) :
    Spec (I xs) (countM f xs) (fun _ => I []) E := by
  apply Spec.foldlM
  intro n x rest
  exact Spec.bind (hf x rest) fun _ => Spec.pure fun _ h => h

theorem byPrecedence_cases (a b : MemoryRecord) :
    byPrecedence a b = (a, b) ∨ byPrecedence a b = (b, a) := by
  rw [byPrecedence]
  split
  · exact Or.inl rfl
  · exact Or.inr rfl

theorem Steady.supersede (h : Steady p₀ p) (hw : p.vault.records.get? w.id = some w)
    (hl : p.vault.records.get? l.id = some l) (hactive : w.supersededBy = none)
    (hopen : l.supersededBy = none) (hmay : maySupersede w l = true) :
    Steady p₀ (p.onVault fun v => v.store (l.supersede w.id)) :=
  h.touch (t := .store _) (.supersede hw hl hactive hopen hmay) rfl

def Merging (p₀ : Process) (current : MemoryRecord) (hits : List (MemoryRecord × Rat))
    (p : Process) : Prop :=
  Steady p₀ p ∧ p.vault.records.get? current.id = some current ∧ current.supersededBy = none ∧
    Neighbors (hits.map Prod.fst) p

theorem Merging.tail (h : Merging p₀ current (hit :: hits) p) : Merging p₀ current hits p :=
  ⟨h.1, h.2.1, h.2.2.1, h.2.2.2.sublist (List.sublist_cons_self _ _)⟩

theorem duplicates_ne {env : ConsolidationEnv} (h : duplicates host env current hit = true) :
    hit.1.id ≠ current.id := by
  simp only [duplicates, Bool.and_eq_true, decide_eq_true_eq] at h
  exact h.1.1.1.1

theorem Merging.store (h : Merging p₀ current (hit :: hits) p) (hne : hit.1.id ≠ current.id)
    (hmay : maySupersede current hit.1 = true) :
    Merging p₀ current hits (p.onVault fun v => v.store (hit.1.supersede current.id)) := by
  obtain ⟨hs, hc, ha, hn⟩ := h
  rw [List.map_cons] at hn
  have hrest := hn.sublist (List.sublist_cons_self _ _)
  have hnodup := hn.nodup
  rw [List.map_cons, List.nodup_cons] at hnodup
  refine ⟨hs.supersede hc hn.holds.head ha (hn.active _ List.mem_cons_self) hmay, ?_, ha, ?_,
    hrest.nodup, hrest.active⟩
  · exact (Dict.get?_set_ne _ hne).trans hc
  · apply hrest.holds.store
    intro q hq he
    exact hnodup.1 (List.mem_map.2 ⟨q, hq, he.symm⟩)

theorem mergeHits_spec (env : ConsolidationEnv) (current : MemoryRecord)
    (hits : List (MemoryRecord × Rat)) :
    Spec (Merging p₀ current hits) (mergeHits host env current hits) (fun _ => Steady p₀)
      (fun _ _ => False) := by
  induction hits with
  | nil => exact Spec.pure fun _ h => h.1
  | cons hit hits ih =>
    rw [mergeHits]
    split
    next hdup =>
      rw [Bool.and_eq_true] at hdup
      have hne := duplicates_ne hdup.1
      have hmay := hdup.2
      rcases byPrecedence_cases current hit.1 with hp | hp
      · rw [hp] at hmay ⊢
        apply Spec.bind (Q := fun _ => Merging p₀ current hits)
        · intro p h
          rw [update_ok (r := hit.1.supersede current.id) h.2.2.2.holds.head]
          exact h.store hne hmay
        · intro _
          rw [if_neg hne]
          exact Spec.bind ih fun _ => Spec.pure fun _ h => h
      · rw [hp] at hmay ⊢
        apply Spec.bind (Q := fun _ => Steady p₀)
        · rintro p ⟨hs, hc, ha, hn⟩
          rw [update_ok (r := current.supersede hit.1.id) hc]
          exact hs.supersede hn.holds.head hc (hn.active _ List.mem_cons_self) ha hmay
        · intro _
          rw [if_pos rfl]
          exact Spec.pure fun _ h => h
    next => exact ih.pre fun _ h => h.tail

theorem mergeDuplicates_spec (c : Consolidator) (env : ConsolidationEnv) (r : MemoryRecord) :
    Spec (Steady p₀) (mergeDuplicates host c env scope r) (fun _ => Steady p₀)
      (fun _ _ => False) := by
  apply Spec.bind (Spec.get (Q := fun q p => q = p ∧ Steady p₀ p) fun _ h => ⟨rfl, h⟩)
  intro q
  split
  · exact Spec.pure fun _ h => h.2
  next current hget =>
    rw [mergeCurrent]
    split
    · exact Spec.pure fun _ h => h.2
    next hactive =>
      apply (mergeHits_spec env current _).pre
      rintro p ⟨rfl, h⟩
      have hk := h.reach.keyed
      have hstored := (Records.get_eq_some.1 hget).1
      refine ⟨h, by rw [hk _ _ hstored]; exact hstored, by simpa using hactive, ?_,
        Records.search_nodup hk, ?_⟩
      · intro n hn
        obtain ⟨⟨m, score⟩, hm, rfl⟩ := List.mem_map.1 hn
        exact (Records.mem_search hk hm).1
      · intro n hn
        obtain ⟨⟨m, score⟩, hm, rfl⟩ := List.mem_map.1 hn
        exact (Records.mem_search hk hm).2.2.2 rfl

end Prismal.Memory
