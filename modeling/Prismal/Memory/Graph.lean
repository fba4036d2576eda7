import Prismal.Lib.Timeline
import Prismal.Memory.Process

namespace Prismal.Memory
open Prismal.Lib
set_option autoImplicit true

/-! The temporal graph that `SqliteMemoryGraph` keeps of the memories of all tenants. -/

/-- The columns `user_id`, `agent` and `thread_id` of a row. -/
structure ScopeColumns where
  userId : Option String
  agent : Option String
  threadId : Option String
  deriving DecidableEq

def MemoryScope.columns (scope : MemoryScope) : ScopeColumns :=
  ⟨scope.userId, scope.agent, scope.threadId⟩

/-- `MemoryScope(org_id=scope.org_id, user_id=..., agent=..., thread_id=...)` -/
def ScopeColumns.under (c : ScopeColumns) (scope : MemoryScope) : MemoryScope where
  orgId := scope.orgId
  userId := c.userId
  agent := c.agent
  threadId := c.threadId
  nonEmpty := scope.nonEmpty

/-- A row of `mv2_nodes`, without its key. -/
structure GraphNode where
  columns : ScopeColumns
  type : MemoryType
  contentSha256 : String
  tainted : Bool

/-- A row of `mv2_edges`, without the columns `valid_from` and `valid_to`. -/
structure EdgeColumns where
  orgId : String
  columns : ScopeColumns
  srcId : String
  dstId : String
  relation : RelationKind
  confidence : Rat
  related : relation ≠ .unrelated

abbrev EdgeRow := Fact EdgeColumns Rat

def EdgeRow.toEdge (row : EdgeRow) : MemoryEdge where
  srcId := row.what.srcId
  dstId := row.what.dstId
  relation := row.what.relation
  confidence := row.what.confidence
  validFrom := row.since
  validTo := row.ends
  related := row.what.related

structure SqliteMemoryGraph where
  nodes : Dict (String × String) GraphNode := ∅
  edges : List EdgeRow := []

namespace SqliteMemoryGraph

def rowOf (edge : MemoryEdge) (scope : MemoryScope) : EdgeRow where
  what :=
    { orgId := scope.orgId
      columns := scope.columns
      srcId := edge.srcId
      dstId := edge.dstId
      relation := edge.relation
      confidence := edge.confidence
      related := edge.related }
  since := edge.validFrom
  ends := edge.validTo

def upsertNode (sha256 : String → String) (g : SqliteMemoryGraph) (record : MemoryRecord) :
    SqliteMemoryGraph :=
  { g with
    nodes := g.nodes.set (record.scope.orgId, record.id)
      ⟨record.scope.columns, record.type, sha256 record.content, record.provenance.tainted⟩ }

def addEdge (g : SqliteMemoryGraph) (edge : MemoryEdge) (scope : MemoryScope) :
    SqliteMemoryGraph :=
  { g with edges := g.edges ++ [rowOf edge scope] }

/-- `WHERE org_id = ? AND src_id = ? AND dst_id = ?` -/
def joins (orgId srcId dstId : String) (row : EdgeColumns) : Bool :=
  decide (row.orgId = orgId) && decide (row.srcId = srcId) && decide (row.dstId = dstId)

def invalidateEdge (g : SqliteMemoryGraph) (srcId dstId : String) (at' : Rat)
    (scope : MemoryScope) : SqliteMemoryGraph :=
  { g with edges := Timeline.close (joins scope.orgId srcId dstId) at' g.edges }

/-- `_node_visible` -/
def nodeVisible (g : SqliteMemoryGraph) (recordId : String) (scope : MemoryScope) : Bool :=
  match g.nodes.get? (scope.orgId, recordId) with
  | none => true
  | some node => scope.covers (node.columns.under scope)

/-- `_erasable` -/
def erasable (g : SqliteMemoryGraph) (recordId : String) (scope : MemoryScope) : Bool :=
  match g.nodes.get? (scope.orgId, recordId) with
  | none => scope.userId.isNone && scope.agent.isNone && scope.threadId.isNone
  | some node => withinErasureScope scope (node.columns.under scope)

def EdgeColumns.other (row : EdgeColumns) (recordId : String) : String :=
  if row.srcId = recordId then row.dstId else row.srcId

/-- What the query of `neighbors` selects, apart from the times, and its loop lets through. -/
def shows (g : SqliteMemoryGraph) (recordId : String) (scope : MemoryScope)
    (relations : Option (Finset RelationKind)) (row : EdgeColumns) : Bool :=
  decide (row.orgId = scope.orgId) &&
    (decide (row.srcId = recordId) || decide (row.dstId = recordId)) &&
    relations.all (fun rs => decide (row.relation ∈ rs)) &&
    scope.covers (row.columns.under scope) &&
    g.nodeVisible (EdgeColumns.other row recordId) scope

def neighbors (g : SqliteMemoryGraph) (recordId : String) (scope : MemoryScope)
    (asOf : Option Rat) (relations : Option (Finset RelationKind)) : List MemoryEdge :=
  if g.nodeVisible recordId scope then
    ((Timeline.view asOf g.edges).filter fun row =>
      g.shows recordId scope relations row.what).map EdgeRow.toEdge
  else []

/-- `WHERE org_id = ? AND (src_id IN (...) OR dst_id IN (...))` -/
def touches (orgId : String) (ids : List String) (row : EdgeColumns) : Bool :=
  decide (row.orgId = orgId) && (decide (row.srcId ∈ ids) || decide (row.dstId ∈ ids))

def purgeable (g : SqliteMemoryGraph) (recordIds : List String) (scope : MemoryScope) :
    List String :=
  recordIds.eraseDups.filter fun rid => g.erasable rid scope

/-- `purge_nodes`, with the number of nodes that it removes. -/
def purgeNodes (g : SqliteMemoryGraph) (recordIds : List String) (scope : MemoryScope) :
    Nat × SqliteMemoryGraph :=
  let ids := g.purgeable recordIds scope
  if ids = [] then (0, g)
  else
    let doomed := fun key : String × String => decide (key.1 = scope.orgId) && decide (key.2 ∈ ids)
    ((g.nodes.keys.filter doomed).length,
      { nodes := g.nodes.restrict fun key => !doomed key
        edges := g.edges.filter fun row => !touches scope.orgId ids row.what })

def edgeCount (g : SqliteMemoryGraph) (scope : MemoryScope) : Nat :=
  g.edges.countP fun row => decide (row.what.orgId = scope.orgId)

def nodeCount (g : SqliteMemoryGraph) (scope : MemoryScope) : Nat :=
  g.nodes.keys.countP fun key => decide (key.1 = scope.orgId)

/-- `known_user_ids` -/
def knownUserIds (g : SqliteMemoryGraph) (scope : MemoryScope) : List String :=
  ((g.nodes.restrict fun key => decide (key.1 = scope.orgId)).values.filterMap fun node =>
    node.columns.userId).dedup.mergeSort fun a b => decide (a ≤ b)

end SqliteMemoryGraph

inductive GraphCall where
  | upsertNode (record : MemoryRecord)
  | addEdge (edge : MemoryEdge) (scope : MemoryScope)
  | invalidateEdge (srcId dstId : String) (at' : Rat) (scope : MemoryScope)
  | purgeNodes (recordIds : List String) (scope : MemoryScope)

def GraphCall.scope : GraphCall → MemoryScope
  | upsertNode record => record.scope
  | addEdge _ scope => scope
  | invalidateEdge _ _ _ scope => scope
  | purgeNodes _ scope => scope

namespace SqliteMemoryGraph

def step (sha256 : String → String) (g : SqliteMemoryGraph) : GraphCall → SqliteMemoryGraph
  | .upsertNode record => g.upsertNode sha256 record
  | .addEdge edge scope => g.addEdge edge scope
  | .invalidateEdge srcId dstId at' scope => g.invalidateEdge srcId dstId at' scope
  | .purgeNodes recordIds scope => (g.purgeNodes recordIds scope).2

abbrev after (sha256 : String → String) (g : SqliteMemoryGraph) (calls : List GraphCall) :
    SqliteMemoryGraph :=
  Run.final (step sha256) g calls

variable {sha256 : String → String} {g g' : SqliteMemoryGraph} {scope : MemoryScope}
  {recordId : String} {relations : Option (Finset RelationKind)} {t : Rat}

theorem columns_under {other : MemoryScope} (h : other.orgId = scope.orgId) :
    other.columns.under scope = other := by
  cases other
  cases h
  rfl

theorem mem_purgeable (g : SqliteMemoryGraph) (recordIds : List String) (scope : MemoryScope)
    (rid : String) :
    rid ∈ g.purgeable recordIds scope ↔ rid ∈ recordIds ∧ g.erasable rid scope = true := by
  rw [purgeable, List.mem_filter, List.mem_eraseDups]

/-! What one call does to the edges, as an edit of their timeline. -/

def edit (g : SqliteMemoryGraph) : GraphCall → Option (Timeline.Edit EdgeColumns Rat)
  | .upsertNode _ => none
  | .addEdge edge scope => some (.record (rowOf edge scope))
  | .invalidateEdge srcId dstId at' scope => some (.close (joins scope.orgId srcId dstId) at')
  | .purgeNodes recordIds scope =>
    some (.strike (touches scope.orgId (g.purgeable recordIds scope)))

theorem touches_nil : touches orgId [] row = false := by
  rw [touches, decide_eq_false List.not_mem_nil, decide_eq_false List.not_mem_nil, Bool.or_false,
    Bool.and_false]

theorem purgeNodes_edges (g : SqliteMemoryGraph) (recordIds : List String) (scope : MemoryScope) :
    (g.purgeNodes recordIds scope).2.edges =
      g.edges.filter fun row => !touches scope.orgId (g.purgeable recordIds scope) row.what := by
  rw [purgeNodes]
  by_cases h : g.purgeable recordIds scope = []
  · rw [if_pos h, h]
    exact (List.filter_eq_self.2 fun row _ => by rw [touches_nil, Bool.not_false]).symm
  · rw [if_neg h]

theorem purgeNodes_nodes (g : SqliteMemoryGraph) (recordIds : List String) (scope : MemoryScope)
    (key : String × String) : (g.purgeNodes recordIds scope).2.nodes.get? key =
      if key.1 = scope.orgId ∧ key.2 ∈ g.purgeable recordIds scope then none
      else g.nodes.get? key := by
  rw [purgeNodes]
  by_cases h : g.purgeable recordIds scope = []
  · rw [if_pos h, h, if_neg fun hkey => absurd hkey.2 List.not_mem_nil]
  · rw [if_neg h, Dict.get?_restrict]
    simp only [← Bool.decide_and]
    by_cases hkey : key.1 = scope.orgId ∧ key.2 ∈ g.purgeable recordIds scope
    · rw [if_pos hkey, decide_eq_true hkey]
      rfl
    · rw [if_neg hkey, decide_eq_false hkey]
      rfl

theorem step_edges (g : SqliteMemoryGraph) (c : GraphCall) :
    (step sha256 g c).edges = ((g.edit c).map (Timeline.apply g.edges)).getD g.edges := by
  cases c with
  | upsertNode record => rfl
  | addEdge edge scope => rfl
  | invalidateEdge srcId dstId at' scope => rfl
  | purgeNodes recordIds scope => exact g.purgeNodes_edges recordIds scope

theorem step_nodes_of_ne (h : c.scope.orgId ≠ orgId) (id : String) :
    (step sha256 g c).nodes.get? (orgId, id) = g.nodes.get? (orgId, id) := by
  cases c with
  | upsertNode record =>
    exact Dict.get?_set_ne _ fun hkey => h (congrArg Prod.fst hkey)
  | addEdge edge scope => rfl
  | invalidateEdge srcId dstId at' scope => rfl
  | purgeNodes recordIds scope =>
    exact (g.purgeNodes_nodes recordIds scope (orgId, id)).trans
      (if_neg fun hkey => h hkey.1.symm)

theorem nodeVisible_congr (h : g'.nodes.get? (scope.orgId, recordId) =
    g.nodes.get? (scope.orgId, recordId)) : g'.nodeVisible recordId scope =
      g.nodeVisible recordId scope := by
  rw [nodeVisible, nodeVisible, h]

theorem shows_congr (h : ∀ id, g'.nodeVisible id scope = g.nodeVisible id scope) :
    g'.shows recordId scope relations = g.shows recordId scope relations := by
  funext row
  rw [shows, shows, h]

theorem shows_orgId (h : g.shows recordId scope relations row = true) :
    row.orgId = scope.orgId := by
  simp only [shows, Bool.and_eq_true, decide_eq_true_eq] at h
  exact h.1.1.1.1

end SqliteMemoryGraph

/-! Asking about the past. -/

/-- The edge as it is shown later: it may have ended in between. -/
structure MemoryEdge.Later (t : Rat) (e e' : MemoryEdge) : Prop where
  srcId : e'.srcId = e.srcId
  dstId : e'.dstId = e.dstId
  relation : e'.relation = e.relation
  confidence : e'.confidence = e.confidence
  validFrom : e'.validFrom = e.validFrom
  validTo : e'.validTo = e.validTo ∨ e.validTo = none ∧ ∃ u, e'.validTo = some u ∧ t < u

theorem MemoryEdge.Later.trans (h : MemoryEdge.Later t e e') (h' : MemoryEdge.Later t e' e'') :
    MemoryEdge.Later t e e'' where
  srcId := h'.srcId.trans h.srcId
  dstId := h'.dstId.trans h.dstId
  relation := h'.relation.trans h.relation
  confidence := h'.confidence.trans h.confidence
  validFrom := h'.validFrom.trans h.validFrom
  validTo := by
    rcases h.validTo with heq | ⟨hnone, u, hu, hlt⟩
    · rcases h'.validTo with heq' | ⟨hnone', hlater⟩
      · exact Or.inl (heq'.trans heq)
      · exact Or.inr ⟨heq.symm.trans hnone', hlater⟩
    · rcases h'.validTo with heq' | ⟨hnone', _⟩
      · exact Or.inr ⟨hnone, u, heq'.trans hu, hlt⟩
      · cases hu.symm.trans hnone'

/-- The times that a call brings with it do not lie after `t`. -/
def GraphCall.UpTo (t : Rat) : GraphCall → Prop
  | .addEdge edge _ => edge.validFrom ≤ t ∧ ∀ u ∈ edge.validTo, u ≤ t
  | .invalidateEdge _ _ at' _ => at' ≤ t
  | _ => True

/-- A call of the tenant speaks about the time after `t`: it erases nothing, and a node that it
writes can be seen from `scope` exactly when it could be before. -/
def SqliteMemoryGraph.SpeaksAfter (t : Rat) (scope : MemoryScope) (g : SqliteMemoryGraph) :
    GraphCall → Prop
  | .upsertNode record => g.nodeVisible record.id scope = scope.covers record.scope
  | .addEdge edge _ => t < edge.validFrom
  | .invalidateEdge _ _ at' _ => t < at'
  | .purgeNodes _ _ => False

namespace SqliteMemoryGraph

variable {sha256 : String → String} {g g' : SqliteMemoryGraph} {scope : MemoryScope}
  {recordId : String} {relations : Option (Finset RelationKind)} {t : Rat} {c : GraphCall}

theorem toEdge_later {row row' : EdgeRow} (h : Timeline.Aged t row row') :
    MemoryEdge.Later t (EdgeRow.toEdge row) (EdgeRow.toEdge row') where
  srcId := congrArg EdgeColumns.srcId h.what
  dstId := congrArg EdgeColumns.dstId h.what
  relation := congrArg EdgeColumns.relation h.what
  confidence := congrArg EdgeColumns.confidence h.what
  validFrom := h.since
  validTo := h.ending

/-- The condition under which a step is harmless to what is seen of the time `t`. -/
def Harmless (t : Rat) (scope : MemoryScope) (g : SqliteMemoryGraph) (c : GraphCall) : Prop :=
  c.scope.orgId = scope.orgId → g.SpeaksAfter t scope c

theorem Harmless.nodeVisible (h : Harmless t scope g c) (id : String) :
    (step sha256 g c).nodeVisible id scope = g.nodeVisible id scope := by
  by_cases horg : c.scope.orgId = scope.orgId
  · have hc := h horg
    cases c with
    | upsertNode record =>
      by_cases hid : record.id = id
      · subst hid
        have hkey : (step sha256 g (.upsertNode record)).nodes.get? (scope.orgId, record.id) =
            some ⟨record.scope.columns, record.type, sha256 record.content,
              record.provenance.tainted⟩ := by
          rw [← horg]
          exact Dict.get?_set_self _ _ _
        rw [hc, SqliteMemoryGraph.nodeVisible, hkey]
        exact congrArg scope.covers (columns_under horg)
      · exact nodeVisible_congr (Dict.get?_set_ne _ fun hkey => hid (congrArg Prod.snd hkey))
    | addEdge edge scope' => rfl
    | invalidateEdge srcId dstId at' scope' => rfl
    | purgeNodes recordIds scope' => exact hc.elim
  · exact nodeVisible_congr (step_nodes_of_ne horg id)

theorem Harmless.edit_after (h : Harmless t scope g c) (he : g.edit c = some e) :
    e.After t (g.shows recordId scope relations) := by
  cases c with
  | upsertNode record => cases he
  | addEdge edge scope' =>
    cases he
    exact fun hshows => h (shows_orgId hshows)
  | invalidateEdge srcId dstId at' scope' =>
    cases he
    intro row hshows hjoins
    rw [joins, Bool.and_eq_true, Bool.and_eq_true, decide_eq_true_eq] at hjoins
    exact h (hjoins.1.1.symm.trans (shows_orgId hshows))
  | purgeNodes recordIds scope' =>
    cases he
    intro row hshows
    have hne : row.orgId ≠ scope'.orgId := fun horg => h (horg.symm.trans (shows_orgId hshows))
    rw [touches, decide_eq_false hne, Bool.false_and]

theorem neighbors_eq_seenAt (h : g.nodeVisible recordId scope = true) :
    g.neighbors recordId scope (some t) relations =
      (Timeline.seenAt t (g.shows recordId scope relations) g.edges).map EdgeRow.toEdge :=
  if_pos h

theorem Harmless.neighbors (h : Harmless t scope g c) :
    List.Forall₂ (MemoryEdge.Later t) (g.neighbors recordId scope (some t) relations)
      ((step sha256 g c).neighbors recordId scope (some t) relations) := by
  by_cases hvisible : g.nodeVisible recordId scope = true
  · rw [neighbors_eq_seenAt hvisible,
      neighbors_eq_seenAt ((h.nodeVisible recordId).trans hvisible), shows_congr h.nodeVisible,
      step_edges, List.forall₂_map_left_iff, List.forall₂_map_right_iff]
    cases he : g.edit c with
    | none => exact (Timeline.forall₂_refl t _).imp fun _ _ => toEdge_later
    | some e => exact (Timeline.seenAt_apply e (h.edit_after he)).imp fun _ _ => toEdge_later
  · have hvisible' : ¬ (step sha256 g c).nodeVisible recordId scope = true := by
      rwa [h.nodeVisible]
    rw [SqliteMemoryGraph.neighbors, if_neg hvisible, SqliteMemoryGraph.neighbors,
      if_neg hvisible']
    exact List.Forall₂.nil

end SqliteMemoryGraph

end Prismal.Memory

namespace Prismal.Memory
open Prismal.Lib
set_option autoImplicit true

/-! Whole runs of the temporal graph: what is asked about the past, what another tenant does, and
what is erased. -/

namespace SqliteMemoryGraph

variable {sha256 : String → String} {g g' : SqliteMemoryGraph} {scope reader : MemoryScope}
  {recordId : String} {relations : Option (Finset RelationKind)} {t : Rat} {c : GraphCall}
  {calls later : List GraphCall}

def Begun (t : Rat) (orgId : String) (g : SqliteMemoryGraph) : Prop :=
  ∀ row ∈ g.edges, row.what.orgId = orgId → row.since ≤ t ∧ ∀ u ∈ row.ends, u ≤ t

theorem ended_up_to {row : EdgeRow} {u : Rat} (h : row.since ≤ t ∧ ∀ w ∈ row.ends, w ≤ t)
    (hu : u ≤ t) : (Timeline.Fact.ended u row).since ≤ t ∧
      ∀ w ∈ (Timeline.Fact.ended u row).ends, w ≤ t := by
  constructor
  · exact h.1
  · intro w hw
    cases hends : row.ends with
    | none =>
      rw [Timeline.Fact.ended, hends, Option.none_or, Option.mem_some_iff] at hw
      exact hw ▸ hu
    | some v =>
      rw [Timeline.Fact.ended, hends, Option.some_or, Option.mem_some_iff] at hw
      exact h.2 w (by rw [hends, hw]; rfl)

theorem Begun.step (h : Begun t orgId g) (hc : c.scope.orgId = orgId → c.UpTo t) :
    Begun t orgId (step sha256 g c) := by
  cases c with
  | upsertNode record => exact h
  | addEdge edge scope' =>
    intro row hrow horg
    rcases List.mem_append.1 hrow with hold | hnew
    · exact h row hold horg
    · rw [List.mem_singleton] at hnew
      subst hnew
      exact hc horg
  | invalidateEdge srcId dstId u scope' =>
    intro row hrow horg
    obtain ⟨row', hrow', rfl⟩ := List.mem_map.1 hrow
    split at horg
    · next hjoins =>
      rw [if_pos hjoins]
      rw [joins, Bool.and_eq_true, Bool.and_eq_true, decide_eq_true_eq] at hjoins
      exact ended_up_to (h row' hrow' horg) (hc (hjoins.1.1.symm.trans horg))
    · next hjoins =>
      rw [if_neg hjoins]
      exact h row' hrow' horg
  | purgeNodes recordIds scope' =>
    intro row hrow horg
    rw [SqliteMemoryGraph.step, purgeNodes_edges] at hrow
    exact h row (List.mem_of_mem_filter hrow) horg

theorem Begun.after (h : Begun t orgId g)
    (hcalls : ∀ c ∈ calls, c.scope.orgId = orgId → c.UpTo t) :
    Begun t orgId (after sha256 g calls) := by
  induction calls generalizing g with
  | nil => exact h
  | cons c calls ih =>
    apply ih (h.step (hcalls c List.mem_cons_self))
    intro c' hc'
    exact hcalls c' (List.mem_cons_of_mem c hc')

theorem neighbors_now (h : Begun t scope.orgId g) :
    g.neighbors recordId scope (some t) relations = g.neighbors recordId scope none relations := by
  by_cases hvisible : g.nodeVisible recordId scope = true
  · have hpast : ∀ row ∈ g.edges, g.shows recordId scope relations row.what = true →
        row.since ≤ t ∧ ∀ u ∈ row.ends, u ≤ t :=
      fun row hrow hshows => h row hrow (shows_orgId hshows)
    rw [neighbors_eq_seenAt hvisible, Timeline.seenAt_now hpast, neighbors, if_pos hvisible]
  · rw [neighbors, if_neg hvisible, neighbors, if_neg hvisible]

theorem later_refl (edges : List MemoryEdge) :
    List.Forall₂ (MemoryEdge.Later t) edges edges := by
  induction edges with
  | nil => exact List.Forall₂.nil
  | cons e edges ih => exact List.Forall₂.cons ⟨rfl, rfl, rfl, rfl, rfl, Or.inl rfl⟩ ih

theorem later_trans {es es' es'' : List MemoryEdge} (h : List.Forall₂ (MemoryEdge.Later t) es es')
    (h' : List.Forall₂ (MemoryEdge.Later t) es' es'') :
    List.Forall₂ (MemoryEdge.Later t) es es'' := by
  induction h generalizing es'' with
  | nil =>
    cases h'
    exact List.Forall₂.nil
  | cons he _ ih =>
    cases h' with
    | cons he' htail => exact List.Forall₂.cons (he.trans he') (ih htail)

theorem neighbors_run (h : Run.Along (step sha256) (fun g c _ => Harmless t scope g c) g later) :
    List.Forall₂ (MemoryEdge.Later t) (g.neighbors recordId scope (some t) relations)
      ((after sha256 g later).neighbors recordId scope (some t) relations) := by
  induction later generalizing g with
  | nil => exact later_refl _
  | cons c later ih => exact later_trans h.1.neighbors (ih h.2)

def tenant (orgId : String) (g : SqliteMemoryGraph) : SqliteMemoryGraph where
  nodes := g.nodes.restrict fun key => decide (key.1 = orgId)
  edges := g.edges.filter fun row => decide (row.what.orgId = orgId)

theorem tenant_get (orgId : String) (g : SqliteMemoryGraph) (rid : String) :
    (tenant orgId g).nodes.get? (orgId, rid) = g.nodes.get? (orgId, rid) := by
  rw [tenant, Dict.get?_restrict, decide_eq_true rfl, if_pos rfl]

theorem tenant_nodeVisible (scope : MemoryScope) (g : SqliteMemoryGraph) (rid : String) :
    (tenant scope.orgId g).nodeVisible rid scope = g.nodeVisible rid scope :=
  nodeVisible_congr (tenant_get scope.orgId g rid)

theorem tenant_erasable (scope : MemoryScope) (g : SqliteMemoryGraph) (rid : String) :
    (tenant scope.orgId g).erasable rid scope = g.erasable rid scope := by
  rw [erasable, erasable, tenant_get]

theorem tenant_purgeable (scope : MemoryScope) (g : SqliteMemoryGraph) (recordIds : List String) :
    (tenant scope.orgId g).purgeable recordIds scope = g.purgeable recordIds scope := by
  rw [purgeable, purgeable]
  apply List.filter_congr
  intro rid _
  exact tenant_erasable scope g rid

theorem filter_comm_tenant (edges : List EdgeRow) (p q : EdgeRow → Bool) :
    (edges.filter p).filter q = (edges.filter q).filter p := by
  rw [List.filter_filter, List.filter_filter]
  apply List.filter_congr
  intro row _
  exact Bool.and_comm _ _

theorem filter_close (orgId : String) (p : EdgeColumns → Bool) (u : Rat) (edges : List EdgeRow) :
    (Timeline.close p u edges).filter (fun row => decide (row.what.orgId = orgId)) =
      Timeline.close p u (edges.filter fun row => decide (row.what.orgId = orgId)) := by
  rw [Timeline.close, Timeline.close, List.filter_map]
  congr 1
  apply List.filter_congr
  intro row _
  change decide ((if p row.what then Timeline.Fact.ended u row else row).what.orgId = orgId) = _
  split <;> rfl

theorem close_none {p : EdgeColumns → Bool} {edges : List EdgeRow}
    (h : ∀ row ∈ edges, p row.what = false) (u : Rat) : Timeline.close p u edges = edges := by
  rw [Timeline.close]
  apply (List.map_congr_left ?_).trans (List.map_id edges)
  intro row hrow
  rw [h row hrow]
  rfl

theorem tenant_purge (scope : MemoryScope) (g : SqliteMemoryGraph) (recordIds : List String) :
    tenant scope.orgId (g.purgeNodes recordIds scope).2 =
      ((tenant scope.orgId g).purgeNodes recordIds scope).2 := by
  rw [purgeNodes, purgeNodes, tenant_purgeable]
  by_cases h : g.purgeable recordIds scope = []
  · rw [if_pos h, if_pos h]
  · rw [if_neg h, if_neg h]
    simp only [tenant]
    congr 1
    · exact Dict.restrict_filter _ _ _
    · exact filter_comm_tenant _ _ _

theorem tenant_purge_other (g : SqliteMemoryGraph) (recordIds : List String)
    (h : scope.orgId ≠ orgId) :
    tenant orgId (g.purgeNodes recordIds scope).2 = tenant orgId g := by
  rw [purgeNodes]
  split
  · rfl
  · simp only [tenant]
    congr 1
    · apply Dict.restrict_filter_of
      intro e _ he
      have hkey : e.1.1 ≠ scope.orgId := fun hkey => h (hkey.symm.trans (of_decide_eq_true he))
      change (!(decide (e.1.1 = scope.orgId) && _)) = true
      rw [decide_eq_false hkey]
      rfl
    · rw [List.filter_filter]
      apply List.filter_congr
      intro row _
      by_cases horg : row.what.orgId = orgId
      · have hne : row.what.orgId ≠ scope.orgId := fun he => h (he.symm.trans horg)
        rw [touches, decide_eq_false hne, decide_eq_true horg]
        rfl
      · rw [decide_eq_false horg, Bool.false_and]

theorem tenant_step (c : GraphCall) (h : c.scope.orgId = orgId) :
    tenant orgId (step sha256 g c) = step sha256 (tenant orgId g) c := by
  subst h
  cases c with
  | upsertNode record =>
    exact congrArg₂ SqliteMemoryGraph.mk
      (Dict.restrict_set_pos (k := (record.scope.orgId, record.id)) (decide_eq_true rfl) g.nodes _)
      rfl
  | addEdge edge scope' =>
    have hkeep : [rowOf edge scope'].filter (fun row => decide (row.what.orgId = scope'.orgId)) =
        [rowOf edge scope'] := List.filter_cons_of_pos (decide_eq_true rfl)
    apply congrArg₂ SqliteMemoryGraph.mk rfl
    exact (List.filter_append _ _).trans (congrArg _ hkeep)
  | invalidateEdge srcId dstId u scope' =>
    exact congrArg₂ SqliteMemoryGraph.mk rfl (filter_close _ _ _ _)
  | purgeNodes recordIds scope' => exact tenant_purge scope' g recordIds

theorem tenant_step_other (c : GraphCall) (h : c.scope.orgId ≠ orgId) :
    tenant orgId (step sha256 g c) = tenant orgId g := by
  cases c with
  | upsertNode record =>
    exact congrArg₂ SqliteMemoryGraph.mk
      (Dict.restrict_set_neg (k := (record.scope.orgId, record.id)) (decide_eq_false h) g.nodes _)
      rfl
  | addEdge edge scope' =>
    have hdrop : [rowOf edge scope'].filter (fun row => decide (row.what.orgId = orgId)) = [] :=
      List.filter_cons_of_neg (ne_true_of_eq_false (decide_eq_false h))
    apply congrArg₂ SqliteMemoryGraph.mk rfl
    exact (List.filter_append _ _).trans ((congrArg _ hdrop).trans (List.append_nil _))
  | invalidateEdge srcId dstId u scope' =>
    apply congrArg₂ SqliteMemoryGraph.mk rfl
    apply (filter_close _ _ _ _).trans
    apply close_none
    intro row hrow
    have horg := of_decide_eq_true (List.mem_filter.1 hrow).2
    have hne : row.what.orgId ≠ scope'.orgId := fun he => h (he.symm.trans horg)
    rw [joins, decide_eq_false hne, Bool.false_and, Bool.false_and]
  | purgeNodes recordIds scope' => exact tenant_purge_other g recordIds h

theorem tenant_after (orgId : String) (calls : List GraphCall) :
    tenant orgId (after sha256 g calls) =
      after sha256 (tenant orgId g) (calls.filter fun c => decide (c.scope.orgId = orgId)) := by
  induction calls generalizing g with
  | nil => rfl
  | cons c calls ih =>
    apply (ih (g := step sha256 g c)).trans
    rw [List.filter_cons]
    by_cases h : c.scope.orgId = orgId
    · rw [if_pos (decide_eq_true h), tenant_step c h]
      rfl
    · rw [if_neg (ne_true_of_eq_false (decide_eq_false h)), tenant_step_other c h]

/-! What is read under a tenant is read off what the tenant owns. -/

theorem view_filter (asOf : Option Rat) (edges : List EdgeRow) (p : EdgeRow → Bool) :
    Timeline.view asOf (edges.filter p) = (Timeline.view asOf edges).filter p := by
  cases asOf with
  | none => exact filter_comm_tenant _ _ _
  | some t => exact filter_comm_tenant _ _ _

theorem tenant_neighbors (scope : MemoryScope) (asOf : Option Rat) :
    (tenant scope.orgId g).neighbors recordId scope asOf relations =
      g.neighbors recordId scope asOf relations := by
  have hshows : (tenant scope.orgId g).shows recordId scope relations =
      g.shows recordId scope relations := shows_congr (tenant_nodeVisible scope g)
  rw [neighbors, neighbors, tenant_nodeVisible, hshows]
  split
  · congr 1
    rw [tenant, view_filter, List.filter_filter]
    apply List.filter_congr
    intro row _
    cases hrow : g.shows recordId scope relations row.what with
    | false => rw [Bool.false_and]
    | true => rw [decide_eq_true (shows_orgId hrow), Bool.and_true]
  · rfl

theorem tenant_edgeCount (scope : MemoryScope) :
    (tenant scope.orgId g).edgeCount scope = g.edgeCount scope := by
  rw [edgeCount, edgeCount, tenant, List.countP_filter]
  congr 1
  funext row
  exact Bool.and_self _

theorem tenant_nodeCount (scope : MemoryScope) :
    (tenant scope.orgId g).nodeCount scope = g.nodeCount scope := by
  rw [nodeCount, nodeCount, tenant, Dict.keys_restrict, List.countP_filter]
  congr 1
  funext key
  exact Bool.and_self _

theorem tenant_knownUserIds (scope : MemoryScope) :
    (tenant scope.orgId g).knownUserIds scope = g.knownUserIds scope := by
  rw [knownUserIds, knownUserIds, tenant, Dict.restrict_restrict]
  exact fun _ h => h

/-- No call of another tenant shows in what a tenant reads. -/
theorem reads_of_own_calls (scope : MemoryScope) (calls : List GraphCall) :
    let own := calls.filter fun c => decide (c.scope.orgId = scope.orgId)
    (∀ recordId asOf relations,
        (after sha256 {} calls).neighbors recordId scope asOf relations =
          (after sha256 {} own).neighbors recordId scope asOf relations) ∧
      (after sha256 {} calls).edgeCount scope = (after sha256 {} own).edgeCount scope ∧
      (after sha256 {} calls).nodeCount scope = (after sha256 {} own).nodeCount scope ∧
      (after sha256 {} calls).knownUserIds scope = (after sha256 {} own).knownUserIds scope := by
  intro own
  have htenant : tenant scope.orgId (after sha256 {} calls) = after sha256 {} own :=
    tenant_after scope.orgId calls
  rw [← htenant]
  constructor
  · intro recordId asOf relations
    exact (tenant_neighbors scope asOf).symm
  · exact ⟨(tenant_edgeCount scope).symm, (tenant_nodeCount scope).symm,
      (tenant_knownUserIds scope).symm⟩

end SqliteMemoryGraph

/-! Erasure. -/

def GraphCall.Writes (orgId rid : String) : GraphCall → Prop
  | .upsertNode record => record.scope.orgId = orgId ∧ record.id = rid
  | .addEdge edge scope => scope.orgId = orgId ∧ (edge.srcId = rid ∨ edge.dstId = rid)
  | .invalidateEdge _ _ _ _ => False
  | .purgeNodes _ _ => False

namespace SqliteMemoryGraph

variable {sha256 : String → String} {g g' : SqliteMemoryGraph} {scope reader : MemoryScope}
  {recordId rid : String} {relations : Option (Finset RelationKind)} {t : Rat} {c : GraphCall}
  {recordIds : List String} {calls later : List GraphCall}

/-- Nothing of the tenant is left under this id. -/
structure Forgotten (orgId rid : String) (g : SqliteMemoryGraph) : Prop where
  node : g.nodes.get? (orgId, rid) = none
  edge : ∀ row ∈ g.edges, row.what.orgId = orgId → row.what.srcId ≠ rid ∧ row.what.dstId ≠ rid

theorem touches_iff {ids : List String} {row : EdgeColumns} : touches orgId ids row = true ↔
    row.orgId = orgId ∧ (row.srcId ∈ ids ∨ row.dstId ∈ ids) := by
  rw [touches, Bool.and_eq_true, Bool.or_eq_true, decide_eq_true_eq, decide_eq_true_eq,
    decide_eq_true_eq]

theorem mem_purged_edges {row : EdgeRow} : row ∈ (g.purgeNodes recordIds scope).2.edges ↔
    row ∈ g.edges ∧ ¬ (row.what.orgId = scope.orgId ∧
      (row.what.srcId ∈ g.purgeable recordIds scope ∨
        row.what.dstId ∈ g.purgeable recordIds scope)) := by
  rw [purgeNodes_edges, List.mem_filter, Bool.not_eq_true', ← Bool.not_eq_true, touches_iff]

theorem purge_forgotten (hrid : rid ∈ g.purgeable recordIds scope) :
    Forgotten scope.orgId rid (g.purgeNodes recordIds scope).2 where
  node := (g.purgeNodes_nodes recordIds scope (scope.orgId, rid)).trans (if_pos ⟨rfl, hrid⟩)
  edge := by
    intro row hrow horg
    have hspared := (mem_purged_edges.1 hrow).2
    constructor
    · intro hsrc
      exact hspared ⟨horg, Or.inl (hsrc ▸ hrid)⟩
    · intro hdst
      exact hspared ⟨horg, Or.inr (hdst ▸ hrid)⟩

theorem Forgotten.step (h : Forgotten orgId rid g) (hc : ¬ c.Writes orgId rid) :
    Forgotten orgId rid (step sha256 g c) := by
  cases c with
  | upsertNode record =>
    refine ⟨?_, h.edge⟩
    apply (Dict.get?_set_ne _ ?_).trans h.node
    intro hkey
    exact hc ⟨congrArg Prod.fst hkey, congrArg Prod.snd hkey⟩
  | addEdge edge scope' =>
    refine ⟨h.node, ?_⟩
    intro row hrow horg
    rcases List.mem_append.1 hrow with hold | hnew
    · exact h.edge row hold horg
    · rw [List.mem_singleton] at hnew
      subst hnew
      exact ⟨fun hsrc => hc ⟨horg, Or.inl hsrc⟩, fun hdst => hc ⟨horg, Or.inr hdst⟩⟩
  | invalidateEdge srcId dstId u scope' =>
    refine ⟨h.node, ?_⟩
    intro row hrow horg
    obtain ⟨row', hrow', rfl⟩ := List.mem_map.1 hrow
    have hwhat : (if joins scope'.orgId srcId dstId row'.what then Timeline.Fact.ended u row'
        else row').what = row'.what := by
      split <;> rfl
    rw [hwhat] at horg ⊢
    exact h.edge row' hrow' horg
  | purgeNodes recordIds' scope' =>
    refine ⟨?_, ?_⟩
    · rw [SqliteMemoryGraph.step, purgeNodes_nodes, h.node]
      exact ite_self _
    · intro row hrow horg
      rw [SqliteMemoryGraph.step] at hrow
      exact h.edge row (mem_purged_edges.1 hrow).1 horg

theorem Forgotten.after (h : Forgotten orgId rid g) (hlater : ∀ c ∈ later, ¬ c.Writes orgId rid) :
    Forgotten orgId rid (after sha256 g later) := by
  induction later generalizing g with
  | nil => exact h
  | cons c later ih =>
    apply ih (h.step (hlater c List.mem_cons_self))
    intro c' hc'
    exact hlater c' (List.mem_cons_of_mem c hc')

theorem mem_neighbors {e : MemoryEdge} {asOf : Option Rat}
    (h : e ∈ g.neighbors recordId reader asOf relations) :
    ∃ row ∈ g.edges, row.what.orgId = reader.orgId ∧ EdgeRow.toEdge row = e := by
  rw [neighbors] at h
  split at h
  · obtain ⟨row, hrow, rfl⟩ := List.mem_map.1 h
    obtain ⟨hview, hshows⟩ := List.mem_filter.1 hrow
    refine ⟨row, ?_, shows_orgId hshows, rfl⟩
    cases asOf with
    | none => exact List.mem_of_mem_filter hview
    | some t => exact List.mem_of_mem_filter hview
  · cases h

theorem Forgotten.not_shown (h : Forgotten reader.orgId rid g) {asOf : Option Rat} :
    ∀ e ∈ g.neighbors recordId reader asOf relations, e.srcId ≠ rid ∧ e.dstId ≠ rid := by
  intro e he
  obtain ⟨row, hrow, horg, rfl⟩ := mem_neighbors he
  exact h.edge row hrow horg

theorem countP_filter_partition (keys : List (String × String)) (p q : String × String → Bool)
    (h : ∀ key, q key = true → p key = true) :
    (keys.filter q).length + (keys.filter fun key => !q key).countP p = keys.countP p := by
  induction keys with
  | nil => rfl
  | cons key keys ih =>
    cases hq : q key with
    | true =>
      rw [List.filter_cons_of_pos hq, List.filter_cons_of_neg (by rw [hq]; decide),
        List.countP_cons_of_pos (h key hq), List.length_cons, Nat.add_right_comm, ih]
    | false =>
      rw [List.filter_cons_of_neg (by rw [hq]; decide), List.filter_cons_of_pos (by rw [hq]; rfl)]
      cases hp : p key with
      | true =>
        rw [List.countP_cons_of_pos hp, List.countP_cons_of_pos hp, ← Nat.add_assoc, ih]
      | false =>
        rw [List.countP_cons_of_neg (ne_true_of_eq_false hp),
          List.countP_cons_of_neg (ne_true_of_eq_false hp), ih]

theorem purge_count (g : SqliteMemoryGraph) (recordIds : List String) (scope : MemoryScope) :
    (g.purgeNodes recordIds scope).1 + (g.purgeNodes recordIds scope).2.nodeCount scope =
      g.nodeCount scope := by
  rw [purgeNodes]
  split
  · exact Nat.zero_add _
  · rw [nodeCount, nodeCount, Dict.keys_restrict]
    apply countP_filter_partition
    intro key hkey
    rw [Bool.and_eq_true] at hkey
    exact hkey.1

/-- A purge erases the nodes inside its scope for every reader, time and later run that does not
write them again, spares what is outside its scope, and counts the nodes it removes. -/
theorem purge_exact (sha256 : String → String) (g : SqliteMemoryGraph) (recordIds : List String)
    (scope : MemoryScope) :
    (∀ rid ∈ recordIds, g.erasable rid scope = true → ∀ later,
        (∀ c ∈ later, ¬ GraphCall.Writes scope.orgId rid c) →
        ∀ reader, reader.orgId = scope.orgId → ∀ recordId asOf relations,
          ∀ e ∈ (after sha256 (g.purgeNodes recordIds scope).2 later).neighbors recordId reader
            asOf relations, e.srcId ≠ rid ∧ e.dstId ≠ rid) ∧
      (∀ orgId rid, orgId ≠ scope.orgId ∨ rid ∉ recordIds ∨ g.erasable rid scope = false →
        (g.purgeNodes recordIds scope).2.nodes.get? (orgId, rid) = g.nodes.get? (orgId, rid)) ∧
      (∀ row, row ∈ (g.purgeNodes recordIds scope).2.edges ↔ row ∈ g.edges ∧
        ¬ (row.what.orgId = scope.orgId ∧
          (row.what.srcId ∈ g.purgeable recordIds scope ∨
            row.what.dstId ∈ g.purgeable recordIds scope))) ∧
      (g.purgeNodes recordIds scope).1 + (g.purgeNodes recordIds scope).2.nodeCount scope =
        g.nodeCount scope := by
  refine ⟨?_, ?_, fun row => mem_purged_edges, g.purge_count recordIds scope⟩
  · intro rid hrid herase later hlater reader horg recordId asOf relations
    have hforgotten := purge_forgotten ((g.mem_purgeable recordIds scope rid).2 ⟨hrid, herase⟩)
    have hafter : Forgotten scope.orgId rid (after sha256 _ later) := hforgotten.after hlater
    rw [← horg] at hafter
    exact hafter.not_shown
  · intro orgId rid hspared
    apply (g.purgeNodes_nodes recordIds scope (orgId, rid)).trans
    apply if_neg
    intro hkey
    obtain ⟨hrid, herase⟩ := (g.mem_purgeable recordIds scope rid).1 hkey.2
    rcases hspared with horg | hnot | hkept
    · exact horg hkey.1
    · exact hnot hrid
    · exact Bool.false_ne_true (hkept.symm.trans herase)

end SqliteMemoryGraph

end Prismal.Memory
