import Prismal.Routing.Affinity

namespace Prismal.Routing
open Prismal.Lib Prismal.Lib.Run Prismal.Decisions
set_option autoImplicit true

/-! The tiers and the escalations of a session. -/

variable {d : Deployment} {key agent : String} {runs : Runs} {bucket : Bucket}
  {views : Dict String AffinityView} {log : List Routed} {host : HostState}

/-! The log. -/

theorem escalatedFor_served (log : List Routed) (a agent : String) (c : ModelChoice) :
    (log ++ [Routed.served a c]).filterMap (Routed.escalatedFor agent) =
      log.filterMap (Routed.escalatedFor agent) := by
  rw [List.filterMap_append, List.filterMap_cons_none rfl, List.filterMap_nil, List.append_nil]

theorem escalatedFor_self (log : List Routed) (agent : String) (b c : ModelChoice) :
    (log ++ [Routed.escalated agent b c]).filterMap (Routed.escalatedFor agent) =
      log.filterMap (Routed.escalatedFor agent) ++ [c] := by
  have hself : (Routed.escalated agent b c).escalatedFor agent = some c := if_pos rfl
  rw [List.filterMap_append, List.filterMap_cons_some hself, List.filterMap_nil]

theorem escalatedFor_other (log : List Routed) (h : a ≠ agent) (b c : ModelChoice) :
    (log ++ [Routed.escalated a b c]).filterMap (Routed.escalatedFor agent) =
      log.filterMap (Routed.escalatedFor agent) := by
  have hother : (Routed.escalated a b c).escalatedFor agent = none := if_neg h
  rw [List.filterMap_append, List.filterMap_cons_none hother, List.filterMap_nil, List.append_nil]

theorem lastEscalated_served (log : List Routed) (a agent : String) (c : ModelChoice) :
    lastEscalated agent (log ++ [.served a c]) = lastEscalated agent log := by
  rw [lastEscalated, escalatedFor_served]
  rfl

theorem lastEscalated_escalated (log : List Routed) (a agent : String) (b c : ModelChoice) :
    lastEscalated agent (log ++ [.escalated a b c]) =
      if a = agent then some c else lastEscalated agent log := by
  rw [lastEscalated]
  split
  next heq => rw [heq, escalatedFor_self, List.getLast?_concat]
  next hne =>
    rw [escalatedFor_other log hne]
    rfl

theorem escalations_served (log : List Routed) (a agent : String) (c : ModelChoice) :
    escalations agent (log ++ [.served a c]) = escalations agent log := by
  rw [escalations, escalatedFor_served]
  rfl

theorem escalations_escalated (log : List Routed) (a agent : String) (b c : ModelChoice) :
    escalations agent (log ++ [.escalated a b c]) =
      if a = agent then escalations agent log + 1 else escalations agent log := by
  rw [escalations]
  split
  next heq =>
    rw [heq, escalatedFor_self, List.length_append]
    rfl
  next hne =>
    rw [escalatedFor_other log hne]
    rfl

/-! The registry of engines. -/

theorem get?_evictRuns_newest (older : List String) (h : runs.keys = older ++ [key]) :
    (evictRuns runs (older ++ [key])).get? key = runs.get? key := by
  induction older generalizing runs with
  | nil =>
    have hlen : runs.entries.length = 1 := by
      rw [← List.length_map Prod.fst]
      exact congrArg List.length h
    rw [List.nil_append, evictRuns, hlen, if_neg (by decide)]
  | cons oldest older ih =>
    rw [List.cons_append] at h ⊢
    rw [evictRuns]
    split
    · have hkeys := Dict.keys_erase_oldest h
      have hnodup : (oldest :: (older ++ [key])).Nodup := h ▸ runs.nodup
      have hne : oldest ≠ key := by
        intro heq
        exact (List.nodup_cons.1 hnodup).1 (heq ▸ List.mem_append_right _ List.mem_cons_self)
      rw [ih hkeys, Dict.get?_erase, if_neg hne]
    · rfl

theorem get?_storeRun_self (runs : Runs) (key : String) (bucket : Bucket) :
    (storeRun runs key bucket).get? key = some bucket := by
  have hnew : key ∉ runs.erase key := fun hmem => (Dict.mem_erase runs).1 hmem |>.1 rfl
  have hkeys := Dict.keys_set_new (a := bucket) hnew
  rw [storeRun, hkeys, get?_evictRuns_newest _ hkeys, Dict.get?_set_self]

theorem get?_storeRun (h : (storeRun runs key bucket).get? k = some b) :
    k = key ∧ b = bucket ∨ runs.get? k = some b := by
  have hset := get?_evictRuns _ h
  rw [Dict.get?_set] at hset
  split at hset
  next heq => exact Or.inl ⟨heq.symm, (Option.some.inj hset).symm⟩
  · exact Or.inr (Dict.get?_of_get?_erase hset)

/-! What holds of a session at any time. -/

structure Deployment.Builds (d : Deployment) (bucket : Bucket) : Prop where
  settings : bucket.settings = d.settings
  static : bucket.static = .ofSettings d.settings
  policy : bucket.policy = buildPolicy d.settings

def KeepsTier (agent : String) (log : List Routed) (c : ModelChoice) : Prop :=
  ∀ e, lastEscalated agent log = some e → c.tier ≠ .auto ∧ e.tier.rank ≤ c.tier.rank

/-- The affinities in the engine and in the state of the graph are those of the last escalations,
and the choices of the turn keep to them. -/
structure Sound (d : Deployment) (key : String) (runs : Runs) (views : Dict String AffinityView)
    (log : List Routed) : Prop where
  builds : ∀ k bucket, runs.get? k = some bucket → d.Builds bucket
  keyed : ∀ k bucket, runs.get? k = some bucket →
    k ≠ defaultKey ∧ d.settings.adaptiveRoutingEnabled = true
  persisted : ∀ agent, views.get? agent = (lastEscalated agent log).map affinityView
  held : ∀ bucket, runs.get? key = some bucket → ∀ agent,
    (bucket.affinity.get? agent).map ModelChoice.standing =
      (lastEscalated agent log).map ModelChoice.standing
  chosen : ∀ bucket, runs.get? key = some bucket → ∀ agent c,
    bucket.turnChoices.get? agent = some c → KeepsTier agent log c
  mapped : ∀ agent e, lastEscalated agent log = some e →
    e.tier ≠ .auto ∧ e.modelRef = (StaticTierPolicy.ofSettings d.settings).modelFor e.tier
  enforced : ∀ agent e, lastEscalated agent log = some e →
    d.settings.adaptiveRoutingEnabled = true ∧ d.settings.routingMode = .enforce ∧
      key ≠ defaultKey
  highest : ∀ agent before after, .escalated agent before after ∈ log →
    ∃ e, lastEscalated agent log = some e ∧ after.tier.rank ≤ e.tier.rank
  noRedescent : NoRedescent log
  raised : StrictlyRaised log

theorem Sound.of_runs (h : Sound d key runs views log) {runs' : Runs}
    (hall : ∀ k b, runs'.get? k = some b → d.Builds b ∧ k ≠ defaultKey ∧
      d.settings.adaptiveRoutingEnabled = true)
    (hkey : ∀ b, runs'.get? key = some b →
      (∀ agent, (b.affinity.get? agent).map ModelChoice.standing =
        (lastEscalated agent log).map ModelChoice.standing) ∧
      ∀ agent c, b.turnChoices.get? agent = some c → KeepsTier agent log c) :
    Sound d key runs' views log :=
  { h with
    builds := fun k b hb => (hall k b hb).1
    keyed := fun k b hb => (hall k b hb).2
    held := fun b hb => (hkey b hb).1
    chosen := fun b hb => (hkey b hb).2 }

theorem Sound.touch (h : Sound d key runs views log) (k : String) :
    Sound d key (Routing.touch runs k) views log := by
  apply h.of_runs
  · intro j b hb
    rw [get?_touch] at hb
    exact ⟨h.builds j b hb, h.keyed j b hb⟩
  · intro b hb
    rw [get?_touch] at hb
    exact ⟨h.held b hb, h.chosen b hb⟩

theorem Sound.set (h : Sound d key runs views log) (bucket : Bucket) (hb : d.Builds bucket)
    (hk : key ≠ defaultKey)
    (hon : d.settings.adaptiveRoutingEnabled = true)
    (hheld : ∀ agent, (bucket.affinity.get? agent).map ModelChoice.standing =
      (lastEscalated agent log).map ModelChoice.standing)
    (hchosen : ∀ agent c, bucket.turnChoices.get? agent = some c → KeepsTier agent log c)
    {runs' : Runs}
    (hruns : ∀ k b, runs'.get? k = some b → k = key ∧ b = bucket ∨ runs.get? k = some b)
    (hself : runs'.get? key = some bucket) : Sound d key runs' views log := by
  apply h.of_runs
  · intro k b hget
    rcases hruns k b hget with ⟨rfl, rfl⟩ | hold
    · exact ⟨hb, hk, hon⟩
    · exact ⟨h.builds k b hold, h.keyed k b hold⟩
  · intro b hget
    rw [hself, Option.some.injEq] at hget
    subst hget
    exact ⟨hheld, hchosen⟩

theorem Sound.serve (h : Sound d key runs views log) (hc : KeepsTier agent log c) :
    Sound d key runs views (log ++ [.served agent c]) := by
  have hlast := fun a => lastEscalated_served log agent a c
  have hkeeps : ∀ a c', KeepsTier a log c' → KeepsTier a (log ++ [.served agent c]) c' := by
    intro a c' hc' e he
    rw [hlast] at he
    exact hc' e he
  constructor
  · exact h.builds
  · exact h.keyed
  · intro a
    rw [hlast]
    exact h.persisted a
  · intro b hb a
    rw [hlast]
    exact h.held b hb a
  · intro b hb a c' hc'
    exact hkeeps a c' (h.chosen b hb a c' hc')
  · intro a e he
    rw [hlast] at he
    exact h.mapped a e he
  · intro a e he
    rw [hlast] at he
    exact h.enforced a e he
  · intro a before after hmem
    rw [hlast]
    rcases List.mem_append.1 hmem with hmem | hmem
    · exact h.highest a before after hmem
    · cases List.mem_singleton.1 hmem
  · rw [NoRedescent, List.pairwise_append]
    refine ⟨h.noRedescent, List.pairwise_singleton _ _, ?_⟩
    intro earlier hmem later hlater a before after heq hagent
    cases List.mem_singleton.1 hlater
    subst heq
    cases hagent
    obtain ⟨e, he, hle⟩ := h.highest _ before after hmem
    obtain ⟨hauto, hrank⟩ := hc e he
    exact ⟨hauto, hle.trans hrank⟩
  · intro a before after hmem
    rcases List.mem_append.1 hmem with hmem | hmem
    · exact h.raised a before after hmem
    · cases List.mem_singleton.1 hmem

theorem Sound.escalate (h : Sound d key runs views log) (hget : runs.get? key = some bucket)
    (haff : d.settings.routingCacheAffinityEnabled = true)
    (hmode : d.settings.routingMode = .enforce)
    (hbefore : bucket.turnChoices.get? agent = some before)
    (hup : before.tier ≠ .auto ∧ after.tier ≠ .auto ∧ before.tier.rank < after.tier.rank)
    (hmap : after.modelRef = (StaticTierPolicy.ofSettings d.settings).modelFor after.tier) :
    Sound d key (runs.set key (bucket.escalate agent after))
      (views.set agent (affinityView after)) (log ++ [.escalated agent before after]) := by
  have hlast := fun a => lastEscalated_escalated log agent a before after
  have hbuilds := h.builds key bucket hget
  have hkeyed := h.keyed key bucket hget
  have haffinity : (bucket.escalate agent after).affinity = bucket.affinity.set agent after := by
    rw [Bucket.escalate, hbuilds.settings]
    exact if_pos haff
  have hover : ∀ b a, .escalated agent b a ∈ log → a.tier.rank < after.tier.rank := by
    intro b a hmem
    obtain ⟨e, he, hle⟩ := h.highest agent b a hmem
    have hkeep := (h.chosen bucket hget agent before hbefore e he).2
    exact (hle.trans hkeep).trans_lt hup.2.2
  constructor
  · intro k b hb
    rw [Dict.get?_set] at hb
    split at hb
    · cases hb
      exact ⟨hbuilds.settings, hbuilds.static, hbuilds.policy⟩
    · exact h.builds k b hb
  · intro k b hb
    rw [Dict.get?_set] at hb
    split at hb
    next heq => exact heq ▸ hkeyed
    · exact h.keyed k b hb
  · intro a
    rw [hlast, Dict.get?_set]
    split
    · rfl
    · exact h.persisted a
  · intro b hb a
    rw [Dict.get?_set_self, Option.some.injEq] at hb
    subst hb
    rw [hlast, haffinity, Dict.get?_set]
    split
    · rfl
    · exact h.held bucket hget a
  · intro b hb a c hc e he
    rw [Dict.get?_set_self, Option.some.injEq] at hb
    subst hb
    rw [Bucket.escalate, Dict.get?_set] at hc
    rw [hlast] at he
    split at hc
    next heq =>
      rw [if_pos heq] at he
      cases hc
      cases he
      exact ⟨hup.2.1, Nat.le_refl _⟩
    next hne =>
      rw [if_neg hne] at he
      exact h.chosen bucket hget a c hc e he
  · intro a e he
    rw [hlast] at he
    split at he
    · cases he
      exact ⟨hup.2.1, hmap⟩
    · exact h.mapped a e he
  · intro a e he
    exact ⟨hkeyed.2, hmode, hkeyed.1⟩
  · intro a b c hmem
    rw [hlast]
    rcases List.mem_append.1 hmem with hmem | hmem
    · split
      next heq => exact ⟨after, rfl, (hover b c (heq ▸ hmem)).le⟩
      · exact h.highest a b c hmem
    · cases List.mem_singleton.1 hmem
      rw [if_pos rfl]
      exact ⟨_, rfl, Nat.le_refl _⟩
  · rw [NoRedescent, List.pairwise_append]
    refine ⟨h.noRedescent, List.pairwise_singleton _ _, ?_⟩
    intro earlier hmem later hlater a b c heq hagent
    cases List.mem_singleton.1 hlater
    subst heq
    cases hagent
    exact ⟨hup.2.1, (hover b c hmem).le⟩
  · intro a b c hmem
    rcases List.mem_append.1 hmem with hmem | hmem
    · exact h.raised a b c hmem
    · cases List.mem_singleton.1 hmem
      exact hup

/-! An engine is seeded. -/

def newEngine (d : Deployment) (runs : Runs) (host : HostState) : Bucket where
  policy := buildPolicy d.settings
  static := .ofSettings d.settings
  turn := turnSignature d.digest host
  affinity := host.routing.affinity.entries.foldl
    (restoreMissing (.ofSettings d.settings) (buildPolicy d.settings).name)
    (((runs.get? (runKey host)).map Bucket.affinity).getD ∅)
  settings := d.settings

theorem routes_of_key (hon : d.settings.adaptiveRoutingEnabled = true)
    (hk : runKey host ≠ defaultKey) :
    (d.settings.adaptiveRoutingEnabled && decide (runKey host ≠ defaultKey)) = true := by
  rw [hon, decide_eq_true hk]
  rfl

theorem seedRoutingRun_eq (runs : Runs) (hon : d.settings.adaptiveRoutingEnabled = true)
    (hk : runKey host ≠ defaultKey) {policy : Option Policy}
    (hpolicy : policy.getD (buildPolicy d.settings) = buildPolicy d.settings) :
    ∃ routing, routing.affinity = host.routing.affinity ∧
      seedRoutingRun d.digest runs host d.settings none policy =
        (storeRun runs (runKey host) (newEngine d runs host),
          { host with routing := routing }) := by
  have hkey : (nonEmpty none).getD (runKey host) = runKey host := rfl
  refine ⟨{ host.routing with
    engine := some ((buildPolicy d.settings).name, d.settings.routingMode) }, rfl, ?_⟩
  rw [seedRoutingRun, hkey]
  dsimp only
  rw [if_pos (routes_of_key hon hk), hpolicy]
  rfl

theorem Sound.newEngine_held (h : Sound d (runKey host) runs host.routing.affinity log)
    (agent : String) :
    ((newEngine d runs host).affinity.get? agent).map ModelChoice.standing =
      (lastEscalated agent log).map ModelChoice.standing := by
  rw [newEngine]
  dsimp only
  rw [get?_restored host.routing.affinity.nodup]
  have hview := h.persisted agent
  rw [Dict.get?] at hview
  rw [hview]
  cases hb : runs.get? (runKey host) with
  | none =>
    rw [Option.map_none, Option.getD_none, Dict.get?_empty, Option.none_or]
    cases hlast : lastEscalated agent log with
    | none => rfl
    | some e => exact restore_affinityView _ (h.mapped agent e hlast).2
  | some bucket =>
    have hheld := h.held bucket hb agent
    rw [Option.map_some, Option.getD_some]
    cases hlast : lastEscalated agent log with
    | none =>
      rw [hlast, Option.map_none, Option.map_eq_none_iff] at hheld
      rw [hheld]
      rfl
    | some e =>
      rw [hlast] at hheld
      obtain ⟨c, hc, -⟩ := Option.map_eq_some_iff.1 hheld
      rw [hc] at hheld ⊢
      exact hheld

theorem Sound.maybeSeed (h : Sound d (runKey host) runs host.routing.affinity log)
    (hon : d.settings.adaptiveRoutingEnabled = true) (hk : runKey host ≠ defaultKey) :
    ∃ runs' host' bucket, maybeSeedRoutingRun d.digest runs host d.settings = (runs', host') ∧
      host'.routing.affinity = host.routing.affinity ∧ runKey host' = runKey host ∧
      runs'.get? (runKey host) = some bucket ∧
      (runs.get? (runKey host) = some bucket ∨ bucket.turnChoices = ∅) ∧
      Sound d (runKey host) runs' host.routing.affinity log := by
  have ht := h.touch (runKey host)
  have hnew : ∀ policy : Option Policy,
      policy.getD (buildPolicy d.settings) = buildPolicy d.settings →
      ∃ runs' host' bucket, seedRoutingRun d.digest (Routing.touch runs (runKey host)) host
          d.settings none policy = (runs', host') ∧
        host'.routing.affinity = host.routing.affinity ∧ runKey host' = runKey host ∧
        runs'.get? (runKey host) = some bucket ∧
        (runs.get? (runKey host) = some bucket ∨ bucket.turnChoices = ∅) ∧
        Sound d (runKey host) runs' host.routing.affinity log := by
    intro policy hpolicy
    obtain ⟨routing, hrouting, heq⟩ :=
      seedRoutingRun_eq (Routing.touch runs (runKey host)) hon hk hpolicy
    have hself := get?_storeRun_self (Routing.touch runs (runKey host)) (runKey host)
      (newEngine d (Routing.touch runs (runKey host)) host)
    refine ⟨_, _, _, heq, hrouting, rfl, hself, Or.inr rfl, ?_⟩
    apply ht.set _ ⟨rfl, rfl, rfl⟩ hk hon ht.newEngine_held
    · intro a c hc
      cases hc
    · intro k b hb
      exact get?_storeRun hb
    · exact hself
  rw [maybeSeedRoutingRun, if_pos (routes_of_key hon hk)]
  dsimp only
  cases hb : (Routing.touch runs (runKey host)).get? (runKey host) with
  | none => exact hnew none rfl
  | some bucket =>
    dsimp only
    split
    · rw [get?_touch] at hb
      exact ⟨_, _, bucket, rfl, rfl, rfl, (get?_touch _ _ _).trans hb, Or.inl hb, ht⟩
    · exact hnew _ (ht.builds _ bucket hb).policy

/-! The calls of a session. -/

theorem freshChoice_eq (bucket : Bucket) (settings : Settings) (agent : String)
    (features : TaskFeatures) (answer : Except Exn ModelChoice) :
    freshChoice bucket settings agent features answer =
      match bucket.affinity.get? agent with
      | none => .ok (policyChoice bucket.static features answer)
      | some affinity =>
        if settings.routingCacheAffinityEnabled then
          withFloorOnAffinity affinity (policyChoice bucket.static features answer)
        else .ok (policyChoice bucket.static features answer) := rfl

theorem chosen_cases (haff : d.settings.routingCacheAffinityEnabled = true)
    (h : chosen bucket d.settings agent features answer = .ok c) :
    bucket.turnChoices.get? agent = some c ∨
      bucket.turnChoices.get? agent = none ∧
        (bucket.affinity.get? agent = none ∧ c = policyChoice bucket.static features answer ∨
          ∃ affinity, bucket.affinity.get? agent = some affinity ∧
            withFloorOnAffinity affinity (policyChoice bucket.static features answer) = .ok c) := by
  rw [chosen] at h
  cases hsticky : bucket.turnChoices.get? agent with
  | some sticky =>
    rw [hsticky] at h
    dsimp only at h
    rw [if_pos haff] at h
    cases h
    exact Or.inl rfl
  | none =>
    rw [hsticky] at h
    dsimp only at h
    rw [freshChoice_eq] at h
    cases haffinity : bucket.affinity.get? agent with
    | none =>
      rw [haffinity] at h
      cases h
      exact Or.inr ⟨rfl, Or.inl ⟨rfl, rfl⟩⟩
    | some affinity =>
      rw [haffinity] at h
      dsimp only at h
      rw [if_pos haff] at h
      exact Or.inr ⟨rfl, Or.inr ⟨affinity, rfl, h⟩⟩

theorem KeepsTier.lift (h : KeepsTier agent log c) (hl : Lifted static c c') :
    KeepsTier agent log c' := by
  intro e he
  obtain ⟨hauto, hle⟩ := h e he
  obtain ⟨hauto', hle'⟩ := hl.higher hauto
  exact ⟨hauto', hle.trans hle'⟩

theorem Sound.keepsTier_chosen (h : Sound d key runs views log)
    (hb : runs.get? key = some bucket) (haff : d.settings.routingCacheAffinityEnabled = true)
    (hc : Routing.chosen bucket d.settings agent features answer = .ok c) :
    KeepsTier agent log c := by
  rcases chosen_cases haff hc with hsticky | ⟨-, ⟨hnone, -⟩ | ⟨affinity, haffinity, hfloor⟩⟩
  · exact h.chosen bucket hb agent c hsticky
  · intro e he
    have hheld := h.held bucket hb agent
    rw [hnone, he] at hheld
    cases hheld
  · intro e he
    have hheld := h.held bucket hb agent
    rw [haffinity, he, Option.map_some, Option.map_some, Option.some.injEq] at hheld
    have htier : affinity.tier = e.tier := congrArg Prod.fst hheld
    have hordered := (h.mapped agent e he).1
    rcases withFloorOnAffinity_spec hfloor with rfl | ⟨rfl, hauto, hlt⟩
    · exact ⟨htier ▸ hordered, htier ▸ Nat.le_refl _⟩
    · exact ⟨hauto, htier ▸ hlt.le⟩

theorem choose_cases (h : choose bucket settings agent features answer = .ok c) :
    ∃ c₁, chosen bucket settings agent features answer = .ok c₁ ∧ Lifted bucket.static c₁ c := by
  obtain ⟨c₁, hc₁⟩ := chosen_total bucket settings agent features answer
  rw [choose, hc₁] at h
  exact ⟨c₁, hc₁, lifted_applySecurity h⟩

theorem served_spec (bucket : Bucket) (settings : Settings) (host : HostState) (agent : String)
    (features : TaskFeatures) (c : ModelChoice) :
    (served bucket settings host agent features c).1.routing.affinity = host.routing.affinity ∧
      runKey (served bucket settings host agent features c).1 = runKey host ∧
      ∃ c', (served bucket settings host agent features c).2.served agent = [.served agent c'] ∧
        (settings.routingMode = .enforce → c' = c) := by
  rw [served]
  cases settings.routingMode with
  | shadow => exact ⟨rfl, rfl, _, rfl, fun h => (by cases h)⟩
  | enforce => exact ⟨rfl, rfl, c, rfl, fun _ => rfl⟩

/-- What a call within a session chooses, and leaves in the engine. -/
structure Selects (d : Deployment) (runs : Runs) (host : HostState) (log : List Routed)
    (agent : String) (features : TaskFeatures) (answer : Except Exn ModelChoice) (runs' : Runs)
    (bucket : Bucket) (c₁ c : ModelChoice) : Prop where
  engine : (maybeSeedRoutingRun d.digest runs host d.settings).1.get? (runKey host) = some bucket
  found : runs.get? (runKey host) = some bucket ∨ bucket.turnChoices = ∅
  held : ∀ agent, (bucket.affinity.get? agent).map ModelChoice.standing =
    (lastEscalated agent log).map ModelChoice.standing
  chosen : Routing.chosen bucket d.settings agent features answer = .ok c₁
  lifted : Lifted bucket.static c₁ c
  left : runs'.get? (runKey host) = some (bucket.remember agent features c)

theorem Sound.select (h : Sound d (runKey host) runs host.routing.affinity log)
    (haff : d.settings.routingCacheAffinityEnabled = true) (agent : String)
    (features : TaskFeatures) (answer : Except Exn ModelChoice) :
    ∃ runs' host' result,
      selectModel d.digest runs host d.settings agent features answer = (runs', host', result) ∧
      runKey host' = runKey host ∧
      Sound d (runKey host) runs' host'.routing.affinity (log ++ result.served agent) ∧
      (∃ c, result.served agent = [.served agent c]) ∧
      (runs'.get? (runKey host) = none ∨
        ∃ bucket c₁ c, Selects d runs host log agent features answer runs' bucket c₁ c) := by
  by_cases hon : d.settings.adaptiveRoutingEnabled = true
  · by_cases hk : runKey host = defaultKey
    · have hcond : ¬ (d.settings.adaptiveRoutingEnabled && decide (runKey host ≠ defaultKey)) =
          true := by
        rw [hk, decide_eq_false (not_not.2 rfl), Bool.and_false]
        exact Bool.false_ne_true
      have hseed : maybeSeedRoutingRun d.digest runs host d.settings = (runs, host) := by
        rw [maybeSeedRoutingRun, if_neg hcond]
      have hnone : runs.get? (runKey host) = none := by
        rw [Option.eq_none_iff_forall_ne_some]
        intro b hb
        exact (h.keyed _ b hb).1 hk
      have htouch : (Routing.touch runs (runKey host)).get? (runKey host) = none :=
        (get?_touch _ _ _).trans hnone
      obtain ⟨c, hc, -⟩ := choose_spec (statelessBucket d.settings) d.settings agent features answer
      obtain ⟨hviews, hkey, c', hserved, hmode⟩ :=
        served_spec (statelessBucket d.settings) d.settings host agent features c
      have heq : selectModel d.digest runs host d.settings agent features answer =
          (Routing.touch runs (runKey host),
            served (statelessBucket d.settings) d.settings host agent features c) := by
        rw [selectModel, if_pos hon, hseed]
        dsimp only
        rw [htouch, Option.getD_none, hc]
        dsimp only
        rw [if_neg (Dict.get?_eq_none.1 htouch)]
      generalize served (statelessBucket d.settings) d.settings host agent features c = out
        at heq hviews hkey hserved
      obtain ⟨host', result⟩ := out
      refine ⟨_, _, _, heq, hkey, ?_, ⟨c', hserved⟩, Or.inl htouch⟩
      rw [hviews, hserved]
      apply (h.touch _).serve
      intro e he
      exact absurd hk (h.enforced agent e he).2.2
    · obtain ⟨runs₁, host₁, bucket, hseed, hviews₁, hkey₁, hget, hfound, hsound⟩ :=
        h.maybeSeed hon hk
      obtain ⟨c, hc, -⟩ := choose_spec bucket d.settings agent features answer
      obtain ⟨c₁, hchosen, hlifted⟩ := choose_cases hc
      obtain ⟨hviews, hkey, c', hserved, hmode⟩ :=
        served_spec bucket d.settings host₁ agent features c
      have htouch : (Routing.touch runs₁ (runKey host)).get? (runKey host) = some bucket :=
        (get?_touch _ _ _).trans hget
      have heq : selectModel d.digest runs host d.settings agent features answer =
          ((Routing.touch runs₁ (runKey host)).set (runKey host)
            (bucket.remember agent features c),
            served bucket d.settings host₁ agent features c) := by
        rw [selectModel, if_pos hon, hseed]
        dsimp only
        rw [hkey₁, htouch, Option.getD_some, hc]
        dsimp only
        rw [if_pos (Dict.mem_of_get? htouch)]
      have hkeeps := (hsound.keepsTier_chosen hget haff hchosen).lift hlifted
      have hbuilds := hsound.builds _ bucket hget
      generalize served bucket d.settings host₁ agent features c = out at heq hviews hkey hserved
      obtain ⟨host', result⟩ := out
      refine ⟨_, _, _, heq, hkey.trans hkey₁, ?_, ⟨c', hserved⟩, Or.inr ⟨bucket, c₁, c, ?_⟩⟩
      · rw [hviews, hviews₁, hserved]
        apply Sound.serve
        · apply (hsound.touch (runKey host)).set (bucket.remember agent features c)
          · exact ⟨hbuilds.settings, hbuilds.static, hbuilds.policy⟩
          · exact hk
          · exact hon
          · exact hsound.held bucket hget
          · intro a c₂ hc₂
            rw [Bucket.remember, Dict.get?_set] at hc₂
            split at hc₂
            next heq =>
              cases hc₂
              exact heq ▸ hkeeps
            · exact hsound.chosen bucket hget a c₂ hc₂
          · intro k b hb
            rw [Dict.get?_set] at hb
            split at hb
            next heq => exact Or.inl ⟨heq.symm, (Option.some.inj hb).symm⟩
            · exact Or.inr hb
          · exact Dict.get?_set_self _ _ _
        · intro e he
          rw [hmode (h.enforced agent e he).2.1]
          exact hkeeps e he
      · constructor
        · rw [hseed]
          exact hget
        · exact hfound
        · exact hsound.held bucket hget
        · exact hchosen
        · exact hlifted
        · exact Dict.get?_set_self _ _ _
  · have heq : selectModel d.digest runs host d.settings agent features answer =
        (runs, host, ⟨.ok (some (parity d.settings)), none⟩) := by
      rw [selectModel, if_neg hon]
    refine ⟨_, _, _, heq, rfl, ?_, ⟨_, rfl⟩, Or.inl ?_⟩
    · apply h.serve
      intro e he
      exact absurd (h.enforced agent e he).1 hon
    · rw [Option.eq_none_iff_forall_ne_some]
      intro b hb
      exact hon (h.keyed _ b hb).2

/-- What an escalation within a session leaves in the engine. -/
structure Raises (d : Deployment) (runs : Runs) (key agent : String) (runs' : Runs)
    (bucket : Bucket) (before after : ModelChoice) : Prop where
  found : runs.get? key = some bucket
  served : bucket.turnChoices.get? agent = some before
  behind : after.escalationOf = some before
  allowed : before.escalationCount < d.cascade.maxEscalations
  left : runs'.get? key = some (bucket.escalate agent after)

theorem nothing_escalated (agent : String) (before : Option ModelChoice) :
    nothing.escalated agent before = [] := by
  cases before with
  | none => rfl
  | some before => rfl

theorem flooredEscalation_total (hstatic : bucket.static = static) (agent : String)
    (proposal : ModelChoice) :
    ∃ c, flooredEscalation bucket agent proposal = .ok c ∧ Lifted static proposal c := by
  rw [flooredEscalation, hstatic]
  cases bucket.features.get? agent with
  | none => exact ⟨proposal, rfl, Lifted.refl static proposal⟩
  | some features =>
    obtain ⟨c, hc, -⟩ := applySecurity_spec proposal features static
    exact ⟨c, hc, lifted_applySecurity hc⟩

theorem Sound.outcome (h : Sound d (runKey host) runs host.routing.affinity log)
    (haff : d.settings.routingCacheAffinityEnabled = true) (agent : String)
    (outcome : RoutingOutcome) (remembered : ModelChoice → Option TaskFeatures) :
    ∃ runs' host' result,
      recordOutcome runs host agent (d.verdict runs (runKey host) agent outcome remembered) =
        (runs', host', result) ∧
      runKey host' = runKey host ∧
      Sound d (runKey host) runs' host'.routing.affinity
        (log ++ result.escalated agent (turnChoice runs (runKey host) agent)) ∧
      (result.escalated agent (turnChoice runs (runKey host) agent) = [] ∧
          (∀ k, runs'.get? k = runs.get? k) ∨
        ∃ bucket before after, Raises d runs (runKey host) agent runs' bucket before after ∧
          result.escalated agent (turnChoice runs (runKey host) agent) =
            [.escalated agent before after]) := by
  have hidle : ∃ runs' host' result,
      (Routing.touch runs (runKey host), host, nothing) = (runs', host', result) ∧
      runKey host' = runKey host ∧
      Sound d (runKey host) runs' host'.routing.affinity
        (log ++ result.escalated agent (turnChoice runs (runKey host) agent)) ∧
      (result.escalated agent (turnChoice runs (runKey host) agent) = [] ∧
          (∀ k, runs'.get? k = runs.get? k) ∨
        ∃ bucket before after, Raises d runs (runKey host) agent runs' bucket before after ∧
          result.escalated agent (turnChoice runs (runKey host) agent) =
            [.escalated agent before after]) := by
    refine ⟨_, _, _, rfl, rfl, ?_, Or.inl ⟨nothing_escalated _ _, get?_touch _ _⟩⟩
    rw [nothing_escalated, List.append_nil]
    exact h.touch _
  have htouch := get?_touch runs (runKey host) (runKey host)
  cases hb : runs.get? (runKey host) with
  | none =>
    rw [recordOutcome, htouch, hb]
    exact hidle
  | some bucket =>
    have hbuilds := h.builds _ bucket hb
    rw [recordOutcome, Deployment.verdict, htouch, hb]
    dsimp only
    cases hc : bucket.turnChoices.get? agent with
    | none => exact hidle
    | some before =>
      dsimp only
      cases hv : (routingPolicy d.settings d.cascade remembered).onOutcome before
        (bucket.completed agent outcome) with
      | error exc => exact hidle
      | ok verdict =>
        cases verdict with
        | none => exact hidle
        | some proposal =>
          dsimp only
          have hesc := (lawful_routingPolicy d.settings d.cascade remembered).escalates _ _ _ hv
          obtain ⟨after, hafter, hlifted⟩ := flooredEscalation_total hbuilds.static agent proposal
          obtain ⟨hauto, hle⟩ := hlifted.higher hesc.ordered
          rw [hafter]
          dsimp only
          cases hmode : bucket.settings.routingMode with
          | shadow =>
            refine ⟨_, _, _, rfl, rfl, ?_, Or.inl ⟨nothing_escalated _ _, get?_touch _ _⟩⟩
            rw [nothing_escalated, List.append_nil]
            exact h.touch _
          | enforce =>
            have hturn : turnChoice runs (runKey host) agent = some before := by
              rw [turnChoice, hb, Option.bind_some]
              exact hc
            have hviews : (noteEscalation bucket host agent after).routing.affinity =
                host.routing.affinity.set agent (affinityView after) := by
              rw [noteEscalation, hbuilds.settings]
              exact if_pos haff
            have hfound := htouch.trans hb
            refine ⟨_, _, _, rfl, rfl, ?_, Or.inr ⟨bucket, before, after, ?_, ?_⟩⟩
            · rw [hviews, hturn]
              apply (h.touch _).escalate hfound haff (hbuilds.settings ▸ hmode) hc
              · exact ⟨hesc.fromOrdered, hauto, hesc.higher.trans_le hle⟩
              · exact hlifted.mapped hesc.mapped
            · exact ⟨hb, hc, hlifted.behind.trans hesc.behind, hesc.allowed,
                Dict.get?_set_self _ _ _⟩
            · rw [hturn]
              rfl

theorem Sound.restart (h : Sound d key runs views log) : Sound d key ∅ views log := by
  apply h.of_runs
  · intro k b hb
    cases hb
  · intro b hb
    cases hb

theorem sound_nil (d : Deployment) (key : String) : Sound d key ∅ ∅ [] := by
  constructor
  · intro k b hb
    cases hb
  · intro k b hb
    cases hb
  · intro agent
    rfl
  · intro b hb
    cases hb
  · intro b hb
    cases hb
  · intro agent e he
    cases he
  · intro agent e he
    cases he
  · intro agent before after hmem
    cases hmem
  · exact List.Pairwise.nil
  · intro agent before after hmem
    cases hmem

/-! The number of escalations. -/

/-- The escalations of an agent are those behind its choices. -/
structure Counted (d : Deployment) (key : String) (runs : Runs) (log : List Routed) : Prop where
  behind : ∀ agent e, lastEscalated agent log = some e → e.escalationCount = escalations agent log
  none : ∀ agent, lastEscalated agent log = none → escalations agent log = 0
  chosen : ∀ bucket, runs.get? key = some bucket → ∀ agent c,
    bucket.turnChoices.get? agent = some c → c.escalationCount = escalations agent log
  capped : ∀ agent, escalations agent log ≤ d.cascade.maxEscalations

theorem Counted.serve (h : Counted d key runs log) {runs' : Runs} (c : ModelChoice)
    (hchosen : ∀ bucket, runs'.get? key = some bucket → ∀ a c,
      bucket.turnChoices.get? a = some c → c.escalationCount = escalations a log) :
    Counted d key runs' (log ++ [.served agent c]) := by
  constructor
  · intro a e he
    rw [lastEscalated_served] at he
    rw [escalations_served]
    exact h.behind a e he
  · intro a hnone
    rw [lastEscalated_served] at hnone
    rw [escalations_served]
    exact h.none a hnone
  · intro bucket hb a c hc
    rw [escalations_served]
    exact hchosen bucket hb a c hc
  · intro a
    rw [escalations_served]
    exact h.capped a

theorem policyChoice_fresh (d : Deployment) (static : StaticTierPolicy) (features : TaskFeatures)
    (budget : Option BudgetStatus) :
    (policyChoice static features (d.selection features budget)).escalationCount = 0 := by
  rw [escalationCount_eq]
  cases hsel : d.selection features budget with
  | error exc => rfl
  | ok choice =>
    have hfresh := (lawful_routingPolicy d.settings d.cascade _).fresh features budget choice hsel
    rw [policyChoice, hfresh]
    rfl

theorem Counted.chosen_count (h : Counted d (runKey host) runs log)
    (haff : d.settings.routingCacheAffinityEnabled = true)
    (hs : Selects d runs host log agent features (d.selection features budget) runs' bucket c₁ c)
    (hover : ∀ affinity, bucket.turnChoices.get? agent = Option.none →
      bucket.affinity.get? agent = some affinity →
      ¬ ((policyChoice bucket.static features (d.selection features budget)).tier ≠ .auto ∧
        affinity.tier.rank <
          (policyChoice bucket.static features (d.selection features budget)).tier.rank)) :
    c.escalationCount = escalations agent log := by
  rw [escalationCount_congr hs.lifted.behind]
  have hheld := hs.held agent
  rcases chosen_cases haff hs.chosen with hsticky | ⟨hturn, ⟨hnone, rfl⟩ | ⟨affinity, hget, hfloor⟩⟩
  · rcases hs.found with hfound | hempty
    · exact h.chosen bucket hfound agent c₁ hsticky
    · rw [hempty] at hsticky
      cases hsticky
  · rw [hnone, Option.map_none, eq_comm, Option.map_eq_none_iff] at hheld
    rw [policyChoice_fresh, h.none agent hheld]
  · rcases withFloorOnAffinity_spec hfloor with rfl | ⟨rfl, hauto, hlt⟩
    · rw [hget, Option.map_some, eq_comm, Option.map_eq_some_iff] at hheld
      obtain ⟨e, he, hstanding⟩ := hheld
      rw [← h.behind agent e he]
      exact (congrArg Prod.snd hstanding).symm
    · exact absurd ⟨hauto, hlt⟩ (hover affinity hturn hget)

theorem Counted.select (h : Counted d (runKey host) runs log)
    (haff : d.settings.routingCacheAffinityEnabled = true)
    (hs : Selects d runs host log agent features (d.selection features budget) runs' bucket c₁ c)
    (hover : ∀ affinity, bucket.turnChoices.get? agent = Option.none →
      bucket.affinity.get? agent = some affinity →
      ¬ ((policyChoice bucket.static features (d.selection features budget)).tier ≠ .auto ∧
        affinity.tier.rank <
          (policyChoice bucket.static features (d.selection features budget)).tier.rank))
    (served : ModelChoice) : Counted d (runKey host) runs' (log ++ [.served agent served]) := by
  apply h.serve
  intro b hb a c₂ hc₂
  rw [hs.left, Option.some.injEq] at hb
  subst hb
  rw [Bucket.remember, Dict.get?_set] at hc₂
  split at hc₂
  next heq =>
    cases hc₂
    exact heq ▸ h.chosen_count haff hs hover
  · rcases hs.found with hfound | hempty
    · exact h.chosen bucket hfound a c₂ hc₂
    · rw [hempty] at hc₂
      cases hc₂

theorem Counted.escalate (h : Counted d key runs log)
    (hr : Raises d runs key agent runs' bucket before after) :
    Counted d key runs' (log ++ [.escalated agent before after]) := by
  have hbefore := h.chosen bucket hr.found agent before hr.served
  have hafter : after.escalationCount = escalations agent log + 1 := by
    rw [escalationCount_eq, hr.behind, Option.elim_some, hbefore]
  have hallowed := hr.allowed
  constructor
  · intro a e he
    rw [lastEscalated_escalated] at he
    rw [escalations_escalated]
    split at he
    next heq =>
      cases he
      rw [if_pos heq, hafter, heq]
    next hne =>
      rw [if_neg hne]
      exact h.behind a e he
  · intro a hnone
    rw [lastEscalated_escalated] at hnone
    rw [escalations_escalated]
    split at hnone
    · cases hnone
    next hne =>
      rw [if_neg hne]
      exact h.none a hnone
  · intro b hb a c hc
    rw [hr.left, Option.some.injEq] at hb
    subst hb
    rw [Bucket.escalate, Dict.get?_set] at hc
    rw [escalations_escalated]
    split at hc
    next heq =>
      cases hc
      rw [if_pos heq, hafter, heq]
    next hne =>
      rw [if_neg hne]
      exact h.chosen bucket hr.found a c hc
  · intro a
    rw [escalations_escalated]
    split
    next heq =>
      subst heq
      omega
    · exact h.capped a

/-! Whole sessions. -/

def RoutingSession.Sound (d : Deployment) (s : RoutingSession) : Prop :=
  Routing.Sound d (runKey s.host) s.runs s.host.routing.affinity s.log

theorem RoutingSession.Sound.step {s : RoutingSession} (h : s.Sound d)
    (haff : d.settings.routingCacheAffinityEnabled = true) (hop : Hop) :
    (d.step s hop).Sound d := by
  cases hop with
  | select messages agent features budget =>
    have hstart : Routing.Sound d (runKey { s.host with messages := messages }) s.runs
      { s.host with messages := messages }.routing.affinity s.log := h
    obtain ⟨runs', host', result, heq, hkey, hsound, -⟩ :=
      hstart.select haff agent features (d.selection features budget)
    rw [Deployment.step, heq, RoutingSession.Sound, hkey]
    exact hsound
  | outcome messages agent outcome remembered =>
    have hstart : Routing.Sound d (runKey { s.host with messages := messages }) s.runs
      { s.host with messages := messages }.routing.affinity s.log := h
    obtain ⟨runs', host', result, heq, hkey, hsound, -⟩ :=
      hstart.outcome haff agent outcome remembered
    have heq : recordOutcome s.runs { s.host with messages := messages } agent
      (d.verdict s.runs (runKey s.host) agent outcome remembered) = (runs', host', result) := heq
    rw [Deployment.step]
    dsimp only
    rw [heq, RoutingSession.Sound, hkey]
    exact hsound
  | restart => exact Sound.restart h

theorem counted_step {s : RoutingSession} (h : s.Sound d)
    (hc : Counted d (runKey s.host) s.runs s.log)
    (haff : d.settings.routingCacheAffinityEnabled = true) {hop : Hop}
    (hover : d.overtakes s hop = false) :
    Counted d (runKey (d.step s hop).host) (d.step s hop).runs (d.step s hop).log := by
  cases hop with
  | select messages agent features budget =>
    have hstart : Routing.Sound d (runKey { s.host with messages := messages }) s.runs
      { s.host with messages := messages }.routing.affinity s.log := h
    obtain ⟨runs', host', result, heq, hkey, -, ⟨c', hserved⟩, hsel⟩ :=
      hstart.select haff agent features (d.selection features budget)
    rw [Deployment.step, heq]
    dsimp only
    rw [hkey, hserved]
    rcases hsel with hnone | ⟨bucket, c₁, c, hs⟩
    · apply hc.serve
      intro b hb
      cases hnone.symm.trans hb
    · have hc : Counted d (runKey { s.host with messages := messages }) s.runs s.log := hc
      apply hc.select haff hs
      intro affinity hturn haffinity ⟨hauto, hlt⟩
      have hengine : d.engine s messages = some bucket := hs.engine
      rw [Deployment.overtakes, hengine, Option.any_some, hturn, haffinity, Option.any_some,
        Option.isNone_none, Bool.true_and] at hover
      dsimp only at hover
      rw [decide_eq_true hauto, decide_eq_true hlt] at hover
      cases hover
  | outcome messages agent outcome remembered =>
    have hstart : Routing.Sound d (runKey { s.host with messages := messages }) s.runs
      { s.host with messages := messages }.routing.affinity s.log := h
    obtain ⟨runs', host', result, heq, hkey, -, hcases⟩ :=
      hstart.outcome haff agent outcome remembered
    have heq : recordOutcome s.runs { s.host with messages := messages } agent
      (d.verdict s.runs (runKey s.host) agent outcome remembered) = (runs', host', result) := heq
    rw [Deployment.step]
    dsimp only
    rw [heq]
    dsimp only
    rw [hkey]
    rcases hcases with ⟨hnil, hruns⟩ | ⟨bucket, before, after, hr, hesc⟩
    · have hlog : s.log ++ result.escalated agent (turnChoice s.runs (runKey s.host) agent) =
        s.log := (congrArg (s.log ++ ·) hnil).trans (List.append_nil _)
      rw [hlog]
      exact { hc with chosen := fun b hb => hc.chosen b ((hruns _).symm.trans hb) }
    · have hlog : s.log ++ result.escalated agent (turnChoice s.runs (runKey s.host) agent) =
        s.log ++ [.escalated agent before after] := congrArg (s.log ++ ·) hesc
      rw [hlog]
      exact Counted.escalate hc hr
  | restart => exact { hc with chosen := fun b hb => nomatch hb }

theorem counted_nil (d : Deployment) (key : String) : Counted d key ∅ [] := by
  constructor
  · intro agent e he
    cases he
  · intro agent _
    rfl
  · intro b hb
    cases hb
  · intro agent
    exact Nat.zero_le _

/-- In every session with affinity an escalated tier is never left for a lower one and every
escalation raises the tier; the cap on the escalations holds where no fresh choice of a later turn
lies above the tier that the agent was escalated to. -/
theorem affinity_sound (d : Deployment) (sessionId : Option String)
    (haff : d.settings.routingCacheAffinityEnabled = true) (hops : List Hop) :
    NoRedescent (d.history sessionId hops) ∧ StrictlyRaised (d.history sessionId hops) ∧
      (Along d.step (fun s hop _ => d.overtakes s hop = false) (Deployment.start sessionId) hops →
        ∀ agent, escalations agent (d.history sessionId hops) ≤ d.cascade.maxEscalations) := by
  have hstart : (Deployment.start sessionId).Sound d := sound_nil d _
  have hsound : (final d.step (Deployment.start sessionId) hops).Sound d :=
    final_of_invariant hstart (fun s hop h => h.step haff hop) hops
  refine ⟨hsound.noRedescent, hsound.raised, ?_⟩
  intro hover
  have hstep : ∀ s hop, s.Sound d ∧ Counted d (runKey s.host) s.runs s.log →
      d.overtakes s hop = false → (d.step s hop).Sound d ∧
        Counted d (runKey (d.step s hop).host) (d.step s hop).runs (d.step s hop).log :=
    fun s hop hs hno => ⟨hs.1.step haff hop, counted_step hs.1 hs.2 haff hno⟩
  have hcounted := final_of_along (I := fun s => s.Sound d ∧ Counted d (runKey s.host) s.runs s.log)
    ⟨hstart, counted_nil d _⟩ hstep hover
  exact hcounted.2.capped

def oneEscalation : Deployment where
  settings := { enforcing with routingPolicy := "cascade" }
  cascade := { startTier := .nano, maxEscalations := 1, tierCapabilities := ∅ }
  digest := id

def request (riskTier : RiskTier) : TaskFeatures where
  agent := "coder"
  intent := none
  estInputTokens := 1
  needsTools := false
  needsStructuredOutput := false
  riskTier := riskTier

def firstTurn : List Hop :=
  [.select [⟨true, some "m1", "hi"⟩] "coder" (request .low) none,
   .outcome [⟨true, some "m1", "hi"⟩] "coder" { structuredValid := some false } fun _ => none]

def riskyTurn : List Hop :=
  [.select [⟨true, some "m1", "hi"⟩, ⟨true, some "m2", "go"⟩] "coder" (request .high) none,
   .outcome [⟨true, some "m1", "hi"⟩, ⟨true, some "m2", "go"⟩] "coder"
     { structuredValid := some false } fun _ => none]

theorem affinity_sound_firstTurn :
    NoRedescent (oneEscalation.history (some "s") (firstTurn ++ [.restart])) ∧
      StrictlyRaised (oneEscalation.history (some "s") (firstTurn ++ [.restart])) ∧
      (Along oneEscalation.step (fun s hop _ => oneEscalation.overtakes s hop = false)
          (Deployment.start (some "s")) (firstTurn ++ [.restart]) →
        ∀ agent, escalations agent
          (oneEscalation.history (some "s") (firstTurn ++ [.restart])) ≤ 1) :=
  affinity_sound oneEscalation (some "s") rfl (firstTurn ++ [.restart])

/-- The risk floor of the second turn sets the count back, and the agent is escalated again. -/
theorem escalated_twice :
    ¬ ∀ (d : Deployment) (sessionId : Option String) (hops : List Hop) (agent : String),
      d.settings.routingCacheAffinityEnabled = true →
        escalations agent (d.history sessionId hops) ≤ d.cascade.maxEscalations := by
  intro h
  have hle := h oneEscalation (some "s") (firstTurn ++ riskyTurn) "coder" rfl
  have htwo :
      escalations "coder" (oneEscalation.history (some "s") (firstTurn ++ riskyTurn)) = 2 := by
    decide +kernel
  rw [htwo] at hle
  exact absurd hle (by decide)

end Prismal.Routing
