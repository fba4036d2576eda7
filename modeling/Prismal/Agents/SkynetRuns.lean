import Prismal.Agents.Skynet
import Prismal.Lib.Lists

namespace Prismal.Agents
open Prismal.Lib
set_option autoImplicit true

/-! What becomes of the orders of a swarm. -/

def latest (log : List Dispatch) (oid : String) : Option WorkerResult :=
  (log.filterMap fun d => if d.order.orderId = oid then d.result else none).getLast?

def Dispatch.Failed (d : Dispatch) : Prop := ∃ r, d.result = some r ∧ r.success = false

def OnlyFailedAgain : List Dispatch → Prop :=
  AtEach fun before d => ∀ d' ∈ before, d'.order.orderId = d.order.orderId → d'.Failed

def Reported (log : List Dispatch) (oid : String) : Report → Prop
  | .notice _ => False
  | .result report =>
    (∃ r ∈ report.workerResults, r.orderId = oid ∧ latest log oid = some r) ∨
      oid ∈ orderIds report.deferredOrders

namespace Swarm

def planned (w : Swarm) (s : SkynetState) : List SwarmOrder :=
  if w.goalOf s = "" then []
  else
    match w.requested (w.goalOf s) s.unmet with
    | .error _ => []
    | .ok (orders, _) => orders

variable {w : Swarm} {s : SkynetState} {round : Nat}

/-! The latest attempt. -/

theorem latest_append (xs ys : List Dispatch) (oid : String) :
    latest (xs ++ ys) oid = (latest ys oid).or (latest xs oid) := by
  rw [latest, List.filterMap_append, List.getLast?_append]
  rfl

theorem latest_of_not_mem (h : ∀ d ∈ log, d.order.orderId ≠ oid) : latest log oid = none := by
  rw [latest, List.getLast?_eq_none_iff, List.filterMap_eq_nil_iff]
  intro d hd
  exact if_neg (h d hd)

theorem latest_of_mem (hn : (log.map fun d => d.order.orderId).Nodup) (hd : d ∈ log) :
    latest log d.order.orderId = d.result := by
  obtain ⟨front, back, rfl⟩ := List.append_of_mem hd
  rw [List.map_append, List.map_cons, List.nodup_append, List.nodup_cons] at hn
  have hback : latest back d.order.orderId = none :=
    latest_of_not_mem fun d' hd' heq => hn.2.1.1 (heq ▸ List.mem_map_of_mem hd')
  have hfront : latest front d.order.orderId = none :=
    latest_of_not_mem fun d' hd' heq =>
      hn.2.2 _ (List.mem_map_of_mem hd') _ List.mem_cons_self heq
  have hself : latest [d] d.order.orderId = d.result := by
    cases hr : d.result <;> simp [latest, hr]
  rw [List.append_cons, latest_append, latest_append, hback, hfront, hself, Option.none_or,
    Option.or_none]

/-! What the supervisor plans. -/

theorem orderIds_assignRoles (w : Swarm) (orders : List SwarmOrder) :
    orderIds (w.assignRoles orders) = orderIds orders := by
  rw [orderIds, assignRoles, List.map_map]
  apply List.map_congr_left
  intro o _
  simp only [Function.comp]
  split <;> rfl

theorem orderIds_assignModels (w : Swarm) (round : Nat) (orders : List SwarmOrder) :
    orderIds (w.assignModels round orders) = orderIds orders := by
  rw [orderIds, assignModels, List.map_map]
  apply List.map_congr_left
  intro o _
  simp only [Function.comp]
  split
  · rfl
  · split <;> rfl

theorem effectiveCap_le (w : Swarm) :
    w.effectiveCap ≤ min w.settings.maxSwarm w.settings.parallelMaxWorkers := by
  rw [effectiveCap]
  split
  · exact Nat.min_le_left _ _
  · exact Nat.le_refl _

theorem effectiveCap_pos (w : Swarm) : 0 < w.effectiveCap := by
  have hcap : 0 < min w.settings.maxSwarm w.settings.parallelMaxWorkers :=
    Nat.lt_min.2 ⟨w.settings.maxSwarm_pos, w.settings.parallelMaxWorkers_pos⟩
  rw [effectiveCap]
  split
  · next hsize => exact Nat.lt_min.2 ⟨hcap, hsize⟩
  · exact hcap

theorem requested_ne_nil (h : w.requested goal unmet = .ok (orders, rationale)) : orders ≠ [] := by
  rw [requested] at h
  split at h
  · rw [decompose] at h
    split at h
    · cases h
    · cases h
    · next hne _ =>
      intro hnil
      subst hnil
      cases h
      exact hne rationale rfl
  · next hne =>
    cases h
    simpa using hne

theorem planNode_cases (w : Swarm) (s : SkynetState) :
    (w.planned s = [] ∧ (w.planNode s).skynetOrders = [] ∧
      (w.planNode s).results = s.results) ∨
    (w.planned s ≠ [] ∧ w.goalOf s ≠ "" ∧ ∃ orders deferred rationale,
      w.planNode s =
        { s with
          goal := w.goalOf s, round := roundOf s, rationale := rationale, orders := orders,
          deferred := deferred, unmet := [], skynetOrders := orders } ∧
      orderIds orders = (orderIds (w.planned s)).take w.effectiveCap ∧
      orderIds deferred = (orderIds (w.planned s)).drop w.effectiveCap) := by
  rw [planNode, planned]
  split
  · exact Or.inl ⟨rfl, rfl, rfl⟩
  · next hgoal =>
    cases hreq : w.requested (w.goalOf s) s.unmet with
    | error e =>
      left
      rw [plan, hreq]
      exact ⟨rfl, rfl, rfl⟩
    | ok planned =>
      obtain ⟨orders, rationale⟩ := planned
      right
      rw [plan, hreq]
      refine ⟨requested_ne_nil hreq, hgoal, _, _, rationale, rfl, ?_, ?_⟩
      · rw [orderIds_assignModels, orderIds, List.map_take, ← orderIds, orderIds_assignRoles]
      · rw [orderIds, List.map_drop, ← orderIds, orderIds_assignRoles]

theorem orderIds_planned (hgoal : strip s.goal ≠ "") (hunmet : s.unmet ≠ []) :
    orderIds (w.planned s) = orderIds s.unmet := by
  have hne : w.goalOf s ≠ "" := by
    rw [goalOf, if_pos hgoal]
    exact hgoal
  rw [planned, if_neg hne, requested, if_neg hunmet]
  dsimp only
  rw [orderIds, List.map_map]
  rfl

theorem strip_goalOf (h : w.goalOf s ≠ "") : strip (w.goalOf s) ≠ "" := by
  rw [goalOf] at h ⊢
  split
  · next hgoal => exact strip_strip_ne hgoal
  · next hgoal =>
    rw [if_neg hgoal] at h
    exact strip_strip_ne h

/-! What the workers leave behind. -/

theorem orderId_execute (h : w.execute round o = some r) : r.orderId = o.orderId := by
  rw [execute] at h
  split at h <;> cases h <;> rfl

theorem tagged_append (xs ys : List ParallelEntry) :
    tagged (xs ++ ys) = tagged xs ++ tagged ys := by
  rw [tagged, List.filter_append, List.map_append]
  rfl

theorem tagged_results {rs : List WorkerResult} (h : "" ∉ rs.map WorkerResult.orderId) :
    tagged (rs.map fun r => ⟨workerTag, r⟩) = rs.map fun r => (r.orderId, r) := by
  have hall : (rs.map fun r => (⟨workerTag, r⟩ : ParallelEntry)).filter
      (fun e => decide (e.agent = workerTag ∧ e.result.orderId ≠ "")) =
      rs.map fun r => ⟨workerTag, r⟩ := by
    apply List.filter_eq_self.2
    intro e he
    obtain ⟨r, hr, rfl⟩ := List.mem_map.1 he
    apply decide_eq_true
    refine ⟨rfl, fun hempty => h ?_⟩
    rw [← hempty]
    exact List.mem_map_of_mem hr
  rw [tagged, hall, List.map_map]
  rfl

theorem orderId_of_collect (h : (Dict.collect (tagged entries)).get? oid = some r) :
    r.orderId = oid := by
  obtain ⟨e, -, he⟩ := List.mem_map.1 (Dict.mem_of_get?_collect h)
  cases he
  rfl

def batchOf (w : Swarm) (round : Nat) (orders : List SwarmOrder) : List Dispatch :=
  orders.map fun o => ⟨o, w.execute round o⟩

theorem orderIds_batchOf (w : Swarm) (round : Nat) (orders : List SwarmOrder) :
    ((batchOf w round orders).map fun d => d.order.orderId) = orderIds orders := by
  rw [batchOf, List.map_map]
  rfl

theorem orderId_of_mem_batchOf (hd : d ∈ batchOf w round orders) (hr : d.result = some r) :
    r.orderId = d.order.orderId := by
  obtain ⟨o, -, rfl⟩ := List.mem_map.1 hd
  exact orderId_execute hr

theorem orderIds_results (hall : ∀ d ∈ batchOf w round orders, d.result.isSome = true) :
    ((batchOf w round orders).filterMap Dispatch.result).map WorkerResult.orderId =
      orderIds orders := by
  induction orders with
  | nil => rfl
  | cons o orders ih =>
    rw [batchOf, List.map_cons, ← batchOf] at hall ⊢
    obtain ⟨hhead, htail⟩ := List.forall_mem_cons.1 hall
    obtain ⟨r, hr⟩ := Option.isSome_iff_exists.1 hhead
    rw [List.filterMap_cons_some hr, List.map_cons, ih htail, orderId_execute hr]
    rfl

/-- What stands when a round begins: nothing that is planned has succeeded, and what is not planned
any more has a result that is filed and shown. -/
structure Standing (w : Swarm) (oids : List String) (log : List Dispatch) (s : SkynetState) :
    Prop where
  nodup : (orderIds (w.planned s)).Nodup
  nonblank : "" ∉ orderIds (w.planned s)
  unmet : ∀ oid ∈ orderIds (w.planned s), ∀ d ∈ log, d.order.orderId = oid → d.Failed
  covered : ∀ oid ∈ oids, oid ∈ orderIds (w.planned s) ∨ (latest log oid).isSome = true
  filed : ∀ oid r, latest log oid = some r →
    (Dict.collect (tagged s.parallelResults)).get? oid = some r
  shown : ∀ oid r, latest log oid = some r → r ∈ s.results ∧ r.orderId = oid
  again : OnlyFailedAgain log

def merged (w : Swarm) (s : SkynetState) (rs : List WorkerResult) : SkynetState :=
  w.reduceNode { s with parallelResults := s.parallelResults ++ rs.map fun r => ⟨workerTag, r⟩ }

theorem Standing.filed_batch (h : Standing w oids log s) {orders : List SwarmOrder}
    (hids : (orderIds orders).Sublist (orderIds (w.planned s)))
    (hall : ∀ d ∈ batchOf w round orders, d.result.isSome = true)
    (hlatest : latest (log ++ batchOf w round orders) oid = some r) :
    (Dict.collect (tagged (s.parallelResults ++
      ((batchOf w round orders).filterMap Dispatch.result).map fun r => ⟨workerTag, r⟩))).get?
        oid = some r := by
  have hnodup : (orderIds orders).Nodup := h.nodup.sublist hids
  have hresults := orderIds_results hall
  have hblank : "" ∉ ((batchOf w round orders).filterMap Dispatch.result).map
      WorkerResult.orderId := by
    rw [hresults]
    exact fun hmem => h.nonblank (hids.subset hmem)
  have hkeys : ((((batchOf w round orders).filterMap Dispatch.result).map
      fun r => (r.orderId, r)).map Prod.fst).Nodup := by
    rw [List.map_map]
    exact hresults ▸ hnodup
  rw [tagged_append, tagged_results hblank, Dict.get?_collect_append]
  rw [latest_append] at hlatest
  by_cases hmem : oid ∈ orderIds orders
  · rw [← orderIds_batchOf w round] at hmem hnodup
    obtain ⟨d, hd, rfl⟩ := List.mem_map.1 hmem
    rw [latest_of_mem hnodup hd] at hlatest
    obtain ⟨r', hr'⟩ := Option.isSome_iff_exists.1 (hall d hd)
    rw [hr', Option.some_or, Option.some.injEq] at hlatest
    subst hlatest
    rw [Dict.get?_collect (a := r') hkeys, Option.some_or]
    rw [← orderId_of_mem_batchOf hd hr']
    exact List.mem_map.2 ⟨r', List.mem_filterMap.2 ⟨d, hd, hr'⟩, rfl⟩
  · rw [latest_of_not_mem, Option.none_or] at hlatest
    · have hnone : (Dict.collect (((batchOf w round orders).filterMap Dispatch.result).map
          fun r => (r.orderId, r))).get? oid = none := by
        rw [Dict.get?_eq_none, Dict.mem_collect, List.map_map]
        exact hresults ▸ hmem
      rw [hnone, Option.none_or]
      exact h.filed oid r hlatest
    · intro d hd heq
      apply hmem
      rw [← orderIds_batchOf w round, ← heq]
      exact List.mem_map_of_mem hd

theorem Standing.again_batch (h : Standing w oids log s) {orders : List SwarmOrder}
    (hids : (orderIds orders).Sublist (orderIds (w.planned s))) (round : Nat) :
    OnlyFailedAgain (log ++ batchOf w round orders) := by
  have hnodup : ((batchOf w round orders).map fun d => d.order.orderId).Nodup := by
    rw [orderIds_batchOf]
    exact h.nodup.sublist hids
  apply h.again.append
  · intro d hd d' hd' heq
    apply h.unmet d.order.orderId _ d' hd' heq
    apply hids.subset
    rw [← orderIds_batchOf w round]
    exact List.mem_map_of_mem hd
  · apply (List.pairwise_map.1 hnodup).imp
    intro b d hne before hbefore d' hd' heq
    rcases List.mem_append.1 hd' with hd' | hd'
    · exact hbefore d' hd' heq
    · cases List.mem_singleton.1 hd'
      exact absurd heq hne

/-! What the evaluator leaves unmet. -/

theorem evaluateNode_cases (w : Swarm) (s : SkynetState) :
    ((w.evaluateNode s).replan = false ∧ (w.evaluateNode s).results = s.results ∧
      (w.evaluateNode s).deferred = s.deferred) ∨
    (roundOf s < w.settings.maxRounds ∧ failedOrders s ++ s.deferred ≠ [] ∧ ∃ answer complete,
      w.evaluateNode s =
        { s with
          answer := answer, complete := complete, replan := true, round := roundOf s + 1,
          unmet := failedOrders s ++ s.deferred, deferred := [] }) := by
  rw [evaluateNode]
  split
  · exact Or.inl ⟨rfl, rfl, rfl⟩
  · split
    · next hmore =>
      rw [Bool.and_eq_true, Bool.and_eq_true, decide_eq_true_eq, decide_eq_true_eq] at hmore
      exact Or.inr ⟨hmore.1.2, hmore.2, _, _, rfl⟩
    · exact Or.inl ⟨rfl, rfl, rfl⟩

theorem failedOrders_spec (h : oid ∈ orderIds (failedOrders s)) :
    oid ∈ orderIds s.orders ∧ ∃ r ∈ s.results, r.orderId = oid ∧ r.success = false := by
  obtain ⟨o, ho, rfl⟩ := List.mem_map.1 h
  obtain ⟨r, hr, hget⟩ := List.mem_filterMap.1 ho
  split at hget
  · cases hget
  · next hsuccess =>
    obtain ⟨o', ho', heq⟩ := List.mem_map.1 (Dict.mem_of_get?_collect hget)
    obtain ⟨hid, rfl⟩ := Prod.mk.inj heq
    exact ⟨List.mem_map_of_mem ho', r, hr, hid.symm, Bool.not_eq_true _ ▸ hsuccess⟩

theorem orderIds_failedOrders (s : SkynetState) :
    (orderIds (failedOrders s)).Sublist (s.results.map WorkerResult.orderId) := by
  apply map_filterMap_sublist
  intro r o hget
  split at hget
  · cases hget
  · obtain ⟨o', -, heq⟩ := List.mem_map.1 (Dict.mem_of_get?_collect hget)
    obtain ⟨hid, rfl⟩ := Prod.mk.inj heq
    exact hid

theorem nodup_collected (entries : List ParallelEntry) :
    ((Dict.collect (tagged entries)).values.map WorkerResult.orderId).Nodup := by
  have hkeys : (Dict.collect (tagged entries)).values.map WorkerResult.orderId =
      (Dict.collect (tagged entries)).keys := by
    rw [Dict.values, Dict.keys, List.map_map]
    apply List.map_congr_left
    rintro ⟨oid, r⟩ he
    exact orderId_of_collect (Dict.get?_eq_some.2 he)
  rw [hkeys]
  exact (Dict.collect (tagged entries)).nodup

theorem reported_outputNode (hne : s.results ≠ [])
    (hshown : ∀ oid r, latest log oid = some r → r ∈ s.results ∧ r.orderId = oid)
    (h : (latest log oid).isSome = true ∨ oid ∈ orderIds s.deferred) :
    Reported log oid (outputNode s) := by
  rw [outputNode]
  split
  · next hnil => exact absurd hnil hne
  · rcases h with h | h
    · obtain ⟨r, hr⟩ := Option.isSome_iff_exists.1 h
      obtain ⟨hmem, hid⟩ := hshown oid r hr
      exact Or.inl ⟨r, hmem, hid, hr⟩
    · exact Or.inr h

/-! Rounds. -/

/-- The state in which a round has been planned. -/
structure Planned (w : Swarm) (s s' : SkynetState) : Prop where
  goal : strip s'.goal ≠ ""
  round : s'.round = roundOf s
  results : s'.results = s.results
  parallelResults : s'.parallelResults = s.parallelResults
  orders : orderIds s'.orders = (orderIds (w.planned s)).take w.effectiveCap
  deferred : orderIds s'.deferred = (orderIds (w.planned s)).drop w.effectiveCap
  staged : s'.skynetOrders = s'.orders

theorem planned_planNode (h : w.planned s ≠ []) : Planned w s (w.planNode s) := by
  rcases planNode_cases w s with ⟨hnil, -⟩ |
    ⟨-, hgoal, orders, deferred, rationale, heq, hids, hdef⟩
  · exact absurd hnil h
  · have hstrip := strip_goalOf hgoal
    rw [heq]
    generalize w.goalOf s = goal at hstrip ⊢
    exact ⟨hstrip, rfl, rfl, rfl, hids, hdef, rfl⟩

theorem Planned.length_orders (h : Planned w s s') : s'.orders.length ≤ w.effectiveCap := by
  have hids := congrArg List.length h.orders
  rw [orderIds, List.length_map, List.length_take] at hids
  omega

theorem Planned.dispatcher (h : Planned w s s') (hon : w.settings.parallelEnabled = true) :
    w.dispatcher s' = s'.orders := by
  rw [Swarm.dispatcher, if_pos hon, h.staged]
  exact List.take_of_length_le (h.length_orders.trans w.effectiveCap_le)

theorem Planned.orders_ne_nil (h : Planned w s s') (hne : w.planned s ≠ []) : s'.orders ≠ [] := by
  intro hnil
  have hids := congrArg List.length h.orders
  rw [hnil, orderIds, orderIds, List.map_nil, List.length_nil, List.length_take,
    List.length_map] at hids
  have hcap := w.effectiveCap_pos
  have hpos := List.length_pos_of_ne_nil hne
  omega

theorem Planned.orders_sublist (h : Planned w s s') :
    (orderIds s'.orders).Sublist (orderIds (w.planned s)) := by
  rw [h.orders]
  exact List.take_sublist _ _

theorem Planned.mem_cases (h : Planned w s s') (hmem : oid ∈ orderIds (w.planned s)) :
    oid ∈ orderIds s'.orders ∨ oid ∈ orderIds s'.deferred := by
  rw [h.orders, h.deferred, ← List.mem_append, List.take_append_drop]
  exact hmem

theorem latest_batch (log : List Dispatch) (hnodup : (orderIds orders).Nodup)
    (hmem : oid ∈ orderIds orders)
    (hall : ∀ d ∈ batchOf w round orders, d.result.isSome = true) :
    ∃ d ∈ batchOf w round orders, ∃ r, d.order.orderId = oid ∧ d.result = some r ∧
      latest (log ++ batchOf w round orders) oid = some r := by
  rw [← orderIds_batchOf w round] at hmem hnodup
  obtain ⟨d, hd, rfl⟩ := List.mem_map.1 hmem
  obtain ⟨r, hr⟩ := Option.isSome_iff_exists.1 (hall d hd)
  refine ⟨d, hd, r, rfl, hr, ?_⟩
  rw [latest_append, latest_of_mem hnodup hd, hr, Option.some_or]

theorem Standing.shown_merged (h : Standing w oids log s) (hp : Planned w s s')
    (hall : ∀ d ∈ batchOf w round s'.orders, d.result.isSome = true)
    (hlatest : latest (log ++ batchOf w round s'.orders) oid = some r) :
    (Dict.collect (tagged (w.merged s'
      ((batchOf w round s'.orders).filterMap Dispatch.result)).parallelResults)).get? oid = some r ∧
    r ∈ (w.merged s' ((batchOf w round s'.orders).filterMap Dispatch.result)).results ∧
    r.orderId = oid := by
  have hfiled := h.filed_batch hp.orders_sublist hall hlatest
  rw [← hp.parallelResults] at hfiled
  exact ⟨hfiled, Dict.mem_values.2 ⟨oid, hfiled⟩, orderId_of_collect hfiled⟩

theorem Standing.covered_merged (h : Standing w oids log s) (hp : Planned w s s')
    (hall : ∀ d ∈ batchOf w round s'.orders, d.result.isSome = true) (hmem : oid ∈ oids) :
    (latest (log ++ batchOf w round s'.orders) oid).isSome = true ∨
      oid ∈ orderIds s'.deferred := by
  rcases h.covered oid hmem with hplanned | hbefore
  · rcases hp.mem_cases hplanned with horder | hdeferred
    · obtain ⟨d, -, r, -, -, hlatest⟩ :=
        latest_batch log (h.nodup.sublist hp.orders_sublist) horder hall
      exact Or.inl (Option.isSome_iff_exists.2 ⟨r, hlatest⟩)
    · exact Or.inr hdeferred
  · left
    rw [latest_append, Option.isSome_or, hbefore, Bool.or_true]

theorem Standing.next (h : Standing w oids log s) (hp : Planned w s s')
    (hall : ∀ d ∈ batchOf w round s'.orders, d.result.isSome = true)
    {s₂ s₃ : SkynetState}
    (h₂ : s₂ = w.merged s' ((batchOf w round s'.orders).filterMap Dispatch.result))
    (hgoal : s₃.goal = s₂.goal) (hunmet : s₃.unmet = failedOrders s₂ ++ s₂.deferred)
    (hresults : s₃.results = s₂.results) (hpar : s₃.parallelResults = s₂.parallelResults)
    (hne : failedOrders s₂ ++ s₂.deferred ≠ []) :
    Standing w oids (log ++ batchOf w round s'.orders) s₃ := by
  have hplanned : orderIds (w.planned s₃) = orderIds (failedOrders s₂) ++ orderIds s'.deferred := by
    rw [orderIds_planned, hunmet, h₂]
    · exact List.map_append
    · rw [hgoal, h₂]
      exact hp.goal
    · rw [hunmet]
      exact hne
  have hfailed : ∀ oid ∈ orderIds (failedOrders s₂), oid ∈ orderIds s'.orders ∧
      ∀ d ∈ batchOf w round s'.orders, d.order.orderId = oid → d.Failed := by
    intro oid hoid
    obtain ⟨horder, r, hr, hid, hfail⟩ := failedOrders_spec hoid
    rw [h₂] at horder hr
    obtain ⟨k, hk⟩ := Dict.mem_values.1 hr
    obtain rfl := (orderId_of_collect hk).symm.trans hid
    refine ⟨horder, fun d hd hdid => ?_⟩
    obtain ⟨r', hr'⟩ := Option.isSome_iff_exists.1 (hall d hd)
    have hlatest : latest (log ++ batchOf w round s'.orders) k = some r' := by
      rw [← hdid, latest_append, latest_of_mem _ hd, hr', Option.some_or]
      rw [orderIds_batchOf]
      exact h.nodup.sublist hp.orders_sublist
    have hshown := (h.shown_merged hp hall hlatest).1
    obtain rfl := Option.some.inj (hk.symm.trans hshown)
    exact ⟨r, hr', hfail⟩
  have hdrop : (orderIds s'.deferred).Sublist (orderIds (w.planned s)) := by
    rw [hp.deferred]
    exact List.drop_sublist _ _
  have hdisjoint : ∀ oid ∈ orderIds s'.orders, oid ∉ orderIds s'.deferred := by
    intro oid horder hdeferred
    rw [hp.orders] at horder
    rw [hp.deferred] at hdeferred
    have hsplit := h.nodup
    rw [← List.take_append_drop w.effectiveCap (orderIds (w.planned s))] at hsplit
    exact (List.nodup_append.1 hsplit).2.2 oid horder oid hdeferred rfl
  have hsubset : ∀ oid ∈ orderIds (w.planned s₃), oid ∈ orderIds (w.planned s) := by
    intro oid hoid
    rw [hplanned, List.mem_append] at hoid
    rcases hoid with hoid | hoid
    · exact hp.orders_sublist.subset (hfailed oid hoid).1
    · exact hdrop.subset hoid
  constructor
  · rw [hplanned]
    apply List.Nodup.append
    · apply List.Nodup.sublist (orderIds_failedOrders s₂)
      rw [h₂]
      exact nodup_collected _
    · exact h.nodup.sublist hdrop
    · intro oid hoid
      exact hdisjoint oid (hfailed oid hoid).1
  · intro hblank
    exact h.nonblank (hsubset _ hblank)
  · intro oid hoid d hd hdid
    rcases List.mem_append.1 hd with hd | hd
    · exact h.unmet oid (hsubset oid hoid) d hd hdid
    · rw [hplanned, List.mem_append] at hoid
      rcases hoid with hoid | hoid
      · exact (hfailed oid hoid).2 d hd hdid
      · refine absurd hoid (hdisjoint oid ?_)
        rw [← orderIds_batchOf w round, ← hdid]
        exact List.mem_map_of_mem hd
  · intro oid hoid
    rcases h.covered_merged hp hall hoid with hlatest | hdeferred
    · exact Or.inr hlatest
    · rw [hplanned]
      exact Or.inl (List.mem_append_right _ hdeferred)
  · intro oid r hlatest
    rw [hpar, h₂]
    exact (h.shown_merged hp hall hlatest).1
  · intro oid r hlatest
    rw [hresults, h₂]
    exact (h.shown_merged hp hall hlatest).2
  · exact h.again_batch hp.orders_sublist round

def Outcome (w : Swarm) (oids : List String) (before : Nat) (log : List Dispatch) : Turn → Prop
  | .again s => Standing w oids log s ∧ before < w.settings.maxRounds ∧ roundOf s = before + 1
  | .finish s => ∀ oid ∈ oids, Reported log oid (outputNode s)
  | .abort => True

theorem roundOf_pos (s : SkynetState) : 0 < roundOf s := by
  rw [roundOf]
  split <;> omega

theorem Planned.roundOf (h : Planned w s s') : roundOf s' = Swarm.roundOf s := by
  have hpos := roundOf_pos s
  have hround : Swarm.roundOf s' = if s'.round = 0 then 1 else s'.round := rfl
  rw [hround, h.round, if_neg (by omega)]

theorem Standing.afterWorkers (h : Standing w oids log s) (hp : Planned w s s')
    (hne : w.planned s ≠ [])
    (hall : ∀ d ∈ batchOf w round s'.orders, d.result.isSome = true) :
    Outcome w oids (roundOf s) (log ++ batchOf w round s'.orders)
      (w.afterWorkers s' ((batchOf w round s'.orders).filterMap Dispatch.result)) := by
  have hafter : w.afterWorkers s' ((batchOf w round s'.orders).filterMap Dispatch.result) =
      if (w.evaluateNode
        (w.merged s' ((batchOf w round s'.orders).filterMap Dispatch.result))).replan = true then
        .again (w.evaluateNode
          (w.merged s' ((batchOf w round s'.orders).filterMap Dispatch.result)))
      else .finish (w.evaluateNode
        (w.merged s' ((batchOf w round s'.orders).filterMap Dispatch.result))) := rfl
  rw [hafter]
  rcases evaluateNode_cases w (w.merged s' ((batchOf w round s'.orders).filterMap Dispatch.result))
    with ⟨hreplan, hresults, hdeferred⟩ | ⟨hlt, hunmet, answer, complete, heq⟩
  · rw [hreplan, if_neg Bool.false_ne_true]
    intro oid hoid
    have hshown : ∀ oid r, latest (log ++ batchOf w round s'.orders) oid = some r →
        r ∈ (w.evaluateNode (w.merged s'
          ((batchOf w round s'.orders).filterMap Dispatch.result))).results ∧ r.orderId = oid := by
      intro oid r hlatest
      rw [hresults]
      exact (h.shown_merged hp hall hlatest).2
    apply reported_outputNode _ hshown
    · rw [hdeferred]
      exact h.covered_merged hp hall hoid
    · obtain ⟨o, ho⟩ := List.exists_mem_of_ne_nil _ (hp.orders_ne_nil hne)
      obtain ⟨d, -, r, -, -, hlatest⟩ := latest_batch log
        (h.nodup.sublist hp.orders_sublist) (List.mem_map_of_mem ho) hall
      exact List.ne_nil_of_mem (hshown _ r hlatest).1
  · rw [heq, if_pos rfl]
    have hround : roundOf (w.merged s'
        ((batchOf w round s'.orders).filterMap Dispatch.result)) = roundOf s := hp.roundOf
    refine ⟨h.next hp hall rfl rfl rfl rfl rfl hunmet, hround ▸ hlt, ?_⟩
    rw [← hround]
    exact if_neg (Nat.succ_ne_zero _)

theorem playRound_of_nil (w : Swarm) (h : (w.planNode s).skynetOrders = []) :
    w.playRound s = ([], .finish (w.planNode s)) := by
  have hnone : w.dispatcher (w.planNode s) = [] := by
    rw [dispatcher, h, List.take_nil, ite_self]
  rw [Swarm.playRound, hnone]
  rfl

theorem Planned.playRound (hp : Planned w s (w.planNode s)) (hne : w.planned s ≠ [])
    (hon : w.settings.parallelEnabled = true) :
    ∃ s', Planned w s s' ∧ (w.playRound s).1 = batchOf w s'.round s'.orders ∧
      ((w.playRound s).2 = .abort ∨
        (∀ d ∈ batchOf w s'.round s'.orders, d.result.isSome = true) ∧
          (w.playRound s).2 = w.afterWorkers s'
            ((batchOf w s'.round s'.orders).filterMap Dispatch.result)) := by
  refine ⟨w.planNode s, hp, ?_⟩
  have hbatch : batchOf w (w.planNode s).round (w.planNode s).orders ≠ [] := by
    rw [batchOf, Ne, List.map_eq_nil_iff]
    exact hp.orders_ne_nil hne
  rw [Swarm.playRound, hp.dispatcher hon, ← batchOf, if_neg hbatch]
  generalize batchOf w (w.planNode s).round (w.planNode s).orders = batch
  split
  · exact ⟨rfl, Or.inl rfl⟩
  · next hnone =>
    refine ⟨rfl, Or.inr ⟨?_, rfl⟩⟩
    intro d hd
    rw [List.any_eq_true, not_exists] at hnone
    rw [Option.isSome_iff_ne_none]
    intro hd'
    exact hnone d ⟨hd, by rw [hd']; rfl⟩

theorem Standing.finish (h : Standing w oids log s) (hnil : w.planned s = []) {s' : SkynetState}
    (hresults : s'.results = s.results) (hplay : w.playRound s = ([], .finish s')) :
    (w.playRound s).1.length ≤ w.effectiveCap ∧
      OnlyFailedAgain (log ++ (w.playRound s).1) ∧
      Outcome w oids (roundOf s) (log ++ (w.playRound s).1) (w.playRound s).2 := by
  rw [hplay, List.append_nil]
  refine ⟨Nat.zero_le _, h.again, ?_⟩
  intro oid hoid
  have hlatest : (latest log oid).isSome = true := by
    rcases h.covered oid hoid with hplanned | hlatest
    · rw [hnil] at hplanned
      cases hplanned
    · exact hlatest
  obtain ⟨r, hr⟩ := Option.isSome_iff_exists.1 hlatest
  apply reported_outputNode _ _ (Or.inl hlatest)
  · rw [hresults]
    exact List.ne_nil_of_mem (h.shown oid r hr).1
  · rw [hresults]
    exact h.shown

theorem Standing.playRound (h : Standing w oids log s)
    (hon : w.settings.parallelEnabled = true) :
    (w.playRound s).1.length ≤ w.effectiveCap ∧
      OnlyFailedAgain (log ++ (w.playRound s).1) ∧
      Outcome w oids (roundOf s) (log ++ (w.playRound s).1) (w.playRound s).2 := by
  by_cases hne : w.planned s = []
  · rcases planNode_cases w s with ⟨-, hstaged, hresults⟩ | ⟨hne', -⟩
    · exact h.finish hne hresults (playRound_of_nil w hstaged)
    · exact absurd hne hne'
  · obtain ⟨s', hp, hbatch, hturn⟩ := (planned_planNode hne).playRound hne hon
    rw [hbatch]
    refine ⟨?_, h.again_batch hp.orders_sublist _, ?_⟩
    · rw [batchOf, List.length_map]
      exact hp.length_orders
    · rcases hturn with hturn | ⟨hall, hturn⟩
      · rw [hturn]
        trivial
      · rw [hturn]
        exact h.afterWorkers hp hne hall

theorem Standing.run (h : Standing w oids log s) (hon : w.settings.parallelEnabled = true)
    (hpos : 0 < fuel) (hfuel : w.settings.maxRounds < fuel + roundOf s) :
    ∃ r, w.run fuel s = some r ∧ r.rounds.length ≤ fuel ∧
      (∀ batch ∈ r.rounds, batch.length ≤ w.effectiveCap) ∧
      OnlyFailedAgain (log ++ r.rounds.flatten) ∧
      ∀ report, r.report = some report → ∀ oid ∈ oids,
        Reported (log ++ r.rounds.flatten) oid report := by
  induction fuel generalizing log s with
  | zero => omega
  | succ fuel ih =>
    obtain ⟨hlen, hagain, hout⟩ := h.playRound hon
    rw [Swarm.run]
    rcases hplay : w.playRound s with ⟨batch, turn⟩
    rw [hplay] at hlen hagain hout
    cases turn with
    | again s' =>
      obtain ⟨hstanding, hlt, hround⟩ := hout
      obtain ⟨r, hr, hrounds, hbatches, honly, hreport⟩ := ih hstanding (by omega) (by omega)
      dsimp only
      rw [hr, Option.map_some]
      refine ⟨_, rfl, ?_, ?_, ?_, ?_⟩
      · exact Nat.succ_le_succ hrounds
      · exact List.forall_mem_cons.2 ⟨hlen, hbatches⟩
      · rw [List.flatten_cons, ← List.append_assoc]
        exact honly
      · rw [List.flatten_cons, ← List.append_assoc]
        exact hreport
    | finish s' =>
      refine ⟨_, rfl, Nat.succ_le_succ (Nat.zero_le _), ?_, ?_, ?_⟩
      · exact List.forall_mem_singleton.2 hlen
      · rw [List.flatten_singleton]
        exact hagain
      · intro report hreport oid hoid
        rw [List.flatten_singleton]
        cases hreport
        exact hout oid hoid
    | abort =>
      refine ⟨_, rfl, Nat.succ_le_succ (Nat.zero_le _), ?_, ?_, ?_⟩
      · exact List.forall_mem_singleton.2 hlen
      · rw [List.flatten_singleton]
        exact hagain
      · intro report hreport
        cases hreport

/-- Of a run with parallel execution, whose orders have distinct ids that are not empty: it ends
within the rounds, no round dispatches more than the cap, only failed orders are dispatched again,
and the report accounts for every planned order. -/
theorem run_accounted (w : Swarm) (s : SkynetState) (hon : w.settings.parallelEnabled = true)
    (hnodup : (orderIds (w.planned s)).Nodup) (hblank : "" ∉ orderIds (w.planned s)) :
    ∃ r, w.run w.settings.maxRounds s = some r ∧ r.rounds.length ≤ w.settings.maxRounds ∧
      (∀ batch ∈ r.rounds, batch.length ≤ w.effectiveCap) ∧
      OnlyFailedAgain r.rounds.flatten ∧
      ∀ report, r.report = some report → ∀ oid ∈ orderIds (w.planned s),
        Reported r.rounds.flatten oid report := by
  have hstanding : Standing w (orderIds (w.planned s)) [] s := by
    constructor
    · exact hnodup
    · exact hblank
    · intro oid _ d hd
      cases hd
    · intro oid hoid
      exact Or.inl hoid
    · intro oid r hlatest
      cases hlatest
    · intro oid r hlatest
      cases hlatest
    · exact atEach_nil
  have hround := roundOf_pos s
  exact hstanding.run hon w.settings.maxRounds_pos (by omega)

def oneOrder (settings : SkynetSettings) (oid : String) (answer : WorkerAnswer) : Swarm where
  settings := settings
  latestMessage := "prices"
  planFn _ := .ok ([{ orderId := oid, instruction := "search" }], "")
  workerFn _ _ := answer
  reduceFn _ _ := ""
  evaluateFn _ _ := .ok (true, "")

theorem run_accounted_oneOrder :
    ∃ r, (oneOrder {} "ord-1" (.output "3 shops")).run 3 {} = some r ∧ r.rounds.length ≤ 3 ∧
      (∀ batch ∈ r.rounds, batch.length ≤ (oneOrder {} "ord-1" (.output "3 shops")).effectiveCap) ∧
      OnlyFailedAgain r.rounds.flatten ∧
      ∀ report, r.report = some report →
        ∀ oid ∈ orderIds ((oneOrder {} "ord-1" (.output "3 shops")).planned {}),
          Reported r.rounds.flatten oid report :=
  run_accounted (oneOrder {} "ord-1" (.output "3 shops")) {} rfl (by decide)
    (by decide)

def reportedIds : Report → List String
  | .notice _ => []
  | .result r => r.workerResults.map WorkerResult.orderId ++ orderIds r.deferredOrders

theorem mem_reportedIds (h : Reported log oid report) : oid ∈ reportedIds report := by
  cases report with
  | notice e => exact absurd h id
  | result report =>
    rcases h with ⟨r, hr, rfl, -⟩ | h
    · exact List.mem_append_left _ (List.mem_map_of_mem hr)
    · exact List.mem_append_right _ h

def AccountsForAll (w : Swarm) : Prop :=
  ∃ r report, w.run w.settings.maxRounds {} = some r ∧ r.report = some report ∧
    ∀ oid ∈ orderIds (w.planned {}), Reported r.rounds.flatten oid report

theorem not_accountsForAll (oid : String)
    (h : (w.run w.settings.maxRounds {}).map (fun r => r.report.map reportedIds) = some shown)
    (hshown : shown = some [] ∨ shown = none) (hplanned : oid ∈ orderIds (w.planned {})) :
    ¬ w.AccountsForAll := by
  rintro ⟨r, report, hrun, hreport, hall⟩
  rw [hrun, Option.map_some, hreport, Option.map_some, Option.some.injEq] at h
  subst h
  have hmem := mem_reportedIds (hall oid hplanned)
  rcases hshown with hshown | hshown
  · rw [Option.some.inj hshown] at hmem
    cases hmem
  · cases hshown

/-- An order is lost when parallel execution is off, when it has no id, and when a hard budget cap
aborts the run. -/
theorem orders_lost :
    ¬ (oneOrder { parallelEnabled := false } "ord-1" (.output "3 shops")).AccountsForAll ∧
      ¬ (oneOrder {} "" (.output "3 shops")).AccountsForAll ∧
      ¬ (oneOrder {} "ord-1" .budgetExceeded).AccountsForAll := by
  refine ⟨?_, ?_, ?_⟩
  · exact not_accountsForAll "ord-1" (by rfl) (Or.inl rfl) (by decide)
  · exact not_accountsForAll "" (by rfl) (Or.inl rfl) (by decide)
  · exact not_accountsForAll "ord-1" (by rfl) (Or.inr rfl) (by decide)

end Swarm

end Prismal.Agents
