import Prismal.Lib.Run
import Prismal.Routing.Select

namespace Prismal.Routing
open Prismal.Lib Prismal.Lib.Run Prismal.Decisions
set_option autoImplicit true

/-- A call whose choice is the model that runs: adaptive routing is on and not in shadow mode. A
recorded outcome only returns a choice in that mode. -/
def Call.enforcing : Call → Prop
  | .select _ settings _ _ _ =>
    settings.adaptiveRoutingEnabled = true ∧ settings.routingMode = .enforce
  | .outcome _ _ _ | .seed _ _ _ _ | .clear _ => True

/-- Every choice that a call returns in enforce mode is for a request, and within the floors of
that request and of the static policy in use. -/
def FloorsKept (digest : String → String) (runs : Runs) (call : Call) : Prop :=
  ∀ choice, (callStep digest runs call).2.2.result = .ok (some choice) → call.enforcing →
    ∃ static features, (callStep digest runs call).2.2.enforced = some (static, features) ∧
      Floored static features choice.tier

def Paired (runs : Runs) : Prop :=
  ∀ key bucket agent, runs.get? key = some bucket → agent ∈ bucket.turnChoices →
    agent ∈ bucket.features

variable {runs : Runs} {bucket : Bucket} {key : String} {agent : String}
  {settings : Settings} {host : HostState} {digest : String → String}

theorem get?_touch (runs : Runs) (key k : String) : (touch runs key).get? k = runs.get? k := by
  rw [touch]
  cases hk : runs.get? key with
  | none => rfl
  | some bucket =>
    simp only [Dict.get?_set, Dict.get?_erase]
    by_cases he : key = k
    · rw [if_pos he, ← he, hk]
    · rw [if_neg he, if_neg he]

theorem Paired.touch (h : Paired runs) (key : String) : Paired (touch runs key) := by
  intro k bucket agent hk ha
  rw [get?_touch] at hk
  exact h k bucket agent hk ha

theorem get?_evictRuns (keys : List String) (h : (evictRuns runs keys).get? key = some bucket) :
    runs.get? key = some bucket := by
  induction keys generalizing runs with
  | nil => exact h
  | cons oldest later ih =>
    rw [evictRuns] at h
    split at h
    · exact Dict.get?_of_get?_erase (ih h)
    · exact h

theorem Paired.storeRun (h : Paired runs)
    (hb : ∀ agent, agent ∈ bucket.turnChoices → agent ∈ bucket.features) (key : String) :
    Paired (storeRun runs key bucket) := by
  intro k b agent hk ha
  have hk' := get?_evictRuns _ hk
  rw [Dict.get?_set] at hk'
  split at hk'
  · rw [← Option.some.inj hk'] at ha ⊢
    exact hb agent ha
  · exact h k b agent (Dict.get?_of_get?_erase hk') ha

theorem Paired.set (h : Paired runs)
    (hb : ∀ agent, agent ∈ bucket.turnChoices → agent ∈ bucket.features) (key : String) :
    Paired (runs.set key bucket) := by
  intro k b agent hk ha
  rw [Dict.get?_set] at hk
  split at hk
  · rw [← Option.some.inj hk] at ha ⊢
    exact hb agent ha
  · exact h k b agent hk ha

theorem Paired.seed (h : Paired runs) (host : HostState) (settings : Settings)
    (sessionId : Option String) (policy : Option Policy) :
    Paired (seedRoutingRun digest runs host settings sessionId policy).1 := by
  rw [seedRoutingRun]
  split
  · exact h.storeRun (fun agent ha => absurd ha Dict.not_mem_empty) _
  · exact h

theorem Paired.maybeSeed (h : Paired runs) (host : HostState) (settings : Settings) :
    Paired (maybeSeedRoutingRun digest runs host settings).1 := by
  simp only [maybeSeedRoutingRun]
  split
  · cases (Routing.touch runs (runKey host)).get? (runKey host) with
    | none => exact (h.touch _).seed host settings none none
    | some existing =>
      simp only
      split
      · exact h.touch _
      · exact (h.touch _).seed host settings none _
  · exact h

theorem remember_paired (hb : ∀ a, a ∈ bucket.turnChoices → a ∈ bucket.features)
    (agent : String) (features : TaskFeatures) (choice : ModelChoice) (a : String)
    (ha : a ∈ (bucket.remember agent features choice).turnChoices) :
    a ∈ (bucket.remember agent features choice).features := by
  rw [Bucket.remember, Dict.mem_set] at ha ⊢
  rcases ha with he | ha
  · exact Or.inl he
  · exact Or.inr (hb a ha)

theorem withFloorOnAffinity_total (affinity fresh : ModelChoice) :
    ∃ c, withFloorOnAffinity affinity fresh = .ok c := by
  rw [withFloorOnAffinity]
  split
  · exact ⟨_, rfl⟩
  next hauto =>
    rw [Bool.or_eq_true, decide_eq_true_eq, decide_eq_true_eq, not_or] at hauto
    rw [maxTier_ordered hauto.1 hauto.2]
    exact ⟨_, rfl⟩

theorem freshChoice_total (bucket : Bucket) (settings : Settings) (agent : String)
    (features : TaskFeatures) (answer : Except Exn ModelChoice) :
    ∃ c, freshChoice bucket settings agent features answer = .ok c := by
  simp only [freshChoice]
  cases bucket.affinity.get? agent with
  | none => exact ⟨_, rfl⟩
  | some affinity =>
    by_cases h : settings.routingCacheAffinityEnabled = true
    · simp only [h, if_true]
      exact withFloorOnAffinity_total affinity _
    · simp only [h]
      exact ⟨_, rfl⟩

theorem chosen_total (bucket : Bucket) (settings : Settings) (agent : String)
    (features : TaskFeatures) (answer : Except Exn ModelChoice) :
    ∃ c, chosen bucket settings agent features answer = .ok c := by
  have hfresh := freshChoice_total bucket settings agent features answer
  rw [chosen]
  cases bucket.turnChoices.get? agent with
  | none => exact hfresh
  | some sticky =>
    simp only
    split
    · exact ⟨sticky, rfl⟩
    · exact hfresh

theorem choose_spec (bucket : Bucket) (settings : Settings) (agent : String)
    (features : TaskFeatures) (answer : Except Exn ModelChoice) :
    ∃ c, choose bucket settings agent features answer = .ok c ∧
      Floored bucket.static features c.tier := by
  obtain ⟨c₁, h₁⟩ := chosen_total bucket settings agent features answer
  obtain ⟨c₂, h₂, hf⟩ := applySecurity_spec c₁ features bucket.static
  exact ⟨c₂, by rw [choose, h₁]; exact h₂, hf⟩

theorem Paired.of_get? (h : Paired runs) (hg : runs.get? key = some bucket) (agent : String)
    (ha : agent ∈ bucket.turnChoices) : agent ∈ bucket.features := h key bucket agent hg ha

theorem selectModel_paired (h : Paired runs) (host : HostState) (settings : Settings)
    (agent : String) (features : TaskFeatures) (answer : Except Exn ModelChoice) :
    Paired (selectModel digest runs host settings agent features answer).1 := by
  rw [selectModel]
  split
  · have hseed : Paired (maybeSeedRoutingRun digest runs host settings).1 :=
      h.maybeSeed host settings
    generalize maybeSeedRoutingRun digest runs host settings = seeded at hseed
    obtain ⟨runs', host'⟩ := seeded
    have ht := hseed.touch (runKey host')
    simp only
    split
    · exact ht
    · simp only
      split
      next hmem =>
        obtain ⟨bucket, hb⟩ := Dict.mem_iff_get?.1 hmem
        rw [hb]
        exact ht.set (remember_paired (ht.of_get? hb) agent features _) _
      next => exact ht
  · exact h

theorem escalate_paired (hb : ∀ a, a ∈ bucket.turnChoices → a ∈ bucket.features)
    (hc : bucket.turnChoices.get? agent = some sticky) (escalated : ModelChoice) (a : String)
    (ha : a ∈ (bucket.escalate agent escalated).turnChoices) :
    a ∈ (bucket.escalate agent escalated).features := by
  rw [Bucket.escalate, Dict.mem_set] at ha
  rcases ha with rfl | ha
  · exact hb a (Dict.mem_of_get? hc)
  · exact hb a ha

theorem recordOutcome_paired (h : Paired runs) (host : HostState) (agent : String)
    (answer : Except Exn (Option ModelChoice)) :
    Paired (recordOutcome runs host agent answer).1 := by
  have ht := h.touch (runKey host)
  simp only [recordOutcome]
  cases hb : (Routing.touch runs (runKey host)).get? (runKey host) with
  | none => exact ht
  | some bucket =>
    simp only
    cases hc : bucket.turnChoices.get? agent with
    | none => exact ht
    | some sticky =>
    match answer with
    | .error exc => exact ht
    | .ok none => exact ht
    | .ok (some proposal) =>
      simp only
      cases flooredEscalation bucket agent proposal with
      | error exc => exact ht
      | ok escalated =>
        simp only
        cases bucket.settings.routingMode with
        | shadow => exact ht
        | enforce => exact ht.set (escalate_paired (ht.of_get? hb) hc escalated) _

theorem Paired.step (h : Paired runs) (call : Call) : Paired (nextRuns digest runs call) := by
  rw [nextRuns]
  cases call with
  | select host settings agent features answer =>
    exact selectModel_paired h host settings agent features answer
  | outcome host agent answer => exact recordOutcome_paired h host agent answer
  | seed host settings sessionId policy => exact h.seed host settings sessionId policy
  | clear host =>
    intro k b agent hk ha
    change (runs.erase (runKey host)).get? k = some b at hk
    exact h k b agent (Dict.get?_of_get?_erase hk) ha

theorem selectModel_total (runs : Runs) (host : HostState) (settings : Settings)
    (agent : String) (features : TaskFeatures) (answer : Except Exn ModelChoice) :
    ∃ choice,
      (selectModel digest runs host settings agent features answer).2.2.result =
        .ok (some choice) := by
  rw [selectModel]
  split
  · generalize maybeSeedRoutingRun digest runs host settings = seeded
    obtain ⟨runs', host'⟩ := seeded
    simp only
    split
    next exc he =>
      obtain ⟨c, hc, -⟩ := choose_spec (((touch runs' (runKey host')).get?
        (runKey host')).getD (statelessBucket settings)) settings agent features answer
      cases hc.symm.trans he
    next choice hc =>
      simp only [served]
      cases settings.routingMode with
      | shadow => exact ⟨_, rfl⟩
      | enforce => exact ⟨_, rfl⟩
  · exact ⟨_, rfl⟩

theorem selectModel_floors (host : HostState) (settings : Settings) (agent : String)
    (features : TaskFeatures) (answer : Except Exn ModelChoice) :
    FloorsKept digest runs (.select host settings agent features answer) := by
  intro choice hresult henforce
  obtain ⟨hon, hmode⟩ := henforce
  rw [callStep, selectModel, if_pos hon] at hresult ⊢
  generalize maybeSeedRoutingRun digest runs host settings = seeded at hresult ⊢
  obtain ⟨runs', host'⟩ := seeded
  obtain ⟨c, hc, hf⟩ := choose_spec (((touch runs' (runKey host')).get?
    (runKey host')).getD (statelessBucket settings)) settings agent features answer
  simp only [hc, served, hmode] at hresult ⊢
  rw [Except.ok.injEq, Option.some.injEq] at hresult
  exact ⟨_, _, rfl, hresult ▸ hf⟩

theorem recordOutcome_floors (h : Paired runs) (host : HostState) (agent : String)
    (answer : Except Exn (Option ModelChoice)) :
    FloorsKept digest runs (.outcome host agent answer) := by
  intro choice hresult _
  have ht := h.touch (runKey host)
  simp only [callStep, recordOutcome] at hresult ⊢
  cases hb : (touch runs (runKey host)).get? (runKey host) with
  | none => rw [hb] at hresult; cases hresult
  | some bucket =>
    simp only [hb] at hresult ⊢
    cases hc : bucket.turnChoices.get? agent with
    | none => rw [hc] at hresult; cases hresult
    | some sticky =>
    match answer with
    | .error exc => rw [hc] at hresult; cases hresult
    | .ok none => rw [hc] at hresult; cases hresult
    | .ok (some proposal) =>
      obtain ⟨features, hfeat⟩ :=
        Dict.mem_iff_get?.1 (ht.of_get? hb agent (Dict.mem_of_get? hc))
      obtain ⟨c, hsec, hf⟩ := applySecurity_spec proposal features bucket.static
      have hfloored : flooredEscalation bucket agent proposal = .ok c := by
        rw [flooredEscalation, hfeat]
        exact hsec
      simp only [hc, hfloored] at hresult ⊢
      cases hmode : bucket.settings.routingMode with
      | shadow => rw [hmode] at hresult; cases hresult
      | enforce =>
        simp only [hmode] at hresult ⊢
        rw [Except.ok.injEq, Option.some.injEq] at hresult
        rw [hfeat]
        exact ⟨_, _, rfl, hresult ▸ hf⟩

theorem paired_init : Paired ∅ := fun _ _ _ h => nomatch h

/-- The floors hold of every choice that a session run returns in enforce mode, whatever the
policies answer and whatever affinity the host brings. -/
theorem session_floors (digest : String → String) (calls : List Call) :
    Along (nextRuns digest) (fun runs call _ => FloorsKept digest runs call) ∅ calls := by
  apply along_of_invariant paired_init
  intro runs call _ h
  refine ⟨?_, h.step call⟩
  cases call with
  | select host settings agent features answer =>
    exact selectModel_floors host settings agent features answer
  | outcome host agent answer => exact recordOutcome_floors h host agent answer
  | seed host settings sessionId policy =>
    intro choice hresult _
    simp only [callStep, nothing] at hresult
    cases hresult
  | clear host =>
    intro choice hresult _
    cases hresult

def shippedFloor : RiskFloor where
  get
    | .high => some .medium
    | .critical => some .frontier
    | .low | .medium => none
  ordered := by
    intro risk tier h
    cases risk <;> cases h <;> decide

def enforcing : Settings where
  adaptiveRoutingEnabled := true
  routingMode := .enforce
  routingPolicy := "static"
  routingCacheAffinityEnabled := true
  defaultModel := "default"
  routingRiskFloor := shippedFloor
  tierMap := {}
  legacyModel := fun _ => none

/-- A high-risk call that the policy sends to an `auto` router. -/
def autoCall : Call :=
  .select ⟨some "s", [⟨true, some "m1", "hi"⟩], {}⟩ enforcing "coder"
    { agent := "coder", intent := none, estInputTokens := 1, needsTools := true,
      needsStructuredOutput := false, riskTier := .high }
    (.ok { modelRef := "openrouter/auto", tier := .auto, reason := "static" })

/-- An `auto` choice for a high-risk request is returned although it is not at the floor. -/
theorem auto_passes_floor :
    ¬ ∀ digest calls, Along (nextRuns digest) (fun runs call _ =>
      ∀ choice, (callStep digest runs call).2.2.result = .ok (some choice) → call.enforcing →
        ∃ static features, (callStep digest runs call).2.2.enforced = some (static, features) ∧
          ∀ minimum, static.floor.get features.riskTier = some minimum →
            tierAtLeast choice.tier minimum = .ok true) ∅ calls := by
  intro h
  obtain ⟨h, -⟩ := h (fun s => s) [autoCall]
  obtain ⟨static, features, he, hfloor⟩ := h _ rfl ⟨rfl, rfl⟩
  cases he
  have hmin := hfloor .medium rfl
  cases hmin

end Prismal.Routing
