import Prismal.Lib.Dict

namespace Prismal.Agents
open Prismal.Lib
set_option autoImplicit true

/-! The tools of an agent, gathered from several sources, and the two ways in which a phase narrows
them: by removing tools or by masking their calls. -/

/-- A source of tools. The stubs of an agent are fixed; any other source answers an agent and its
capabilities, or fails. -/
inductive Source (τ : Type) where
  | stubs (tools : String → List τ)
  | live (tools : String → Option (List String) → Option (List τ))

/-- A provider as an object: `ref` tells which. -/
structure Provider (τ : Type) where
  ref : Nat
  source : Source τ

def Provider.isStub (p : Provider τ) : Bool :=
  match p.source with
  | .stubs _ => true
  | .live _ => false

/-- `_call_provider`. A source that cannot take the phase is called without it. -/
def Provider.call (p : Provider τ) (agentName : String) (capabilities : Option (List String)) :
    Option (List τ) :=
  match p.source with
  | .stubs tools => some (tools agentName)
  | .live tools => tools agentName capabilities

structure GateVerdict where
  allowed : Bool
  tool : String
  phase : Option String
  reason : String := ""
  deriving DecidableEq, Repr

def checkToolCall (toolName : String) (allowSet : Option (List String)) (phase : Option String) :
    GateVerdict :=
  match allowSet with
  | none => ⟨true, toolName, phase, ""⟩
  | some names =>
    if toolName ∈ names then ⟨true, toolName, phase, ""⟩
    else ⟨false, toolName, phase, "not in phase allow-set"⟩

structure CompositeToolProvider (τ : Type) where
  providers : List (Provider τ)
  maxTotal : Nat := 120
  fixedToolAgents : List String := ["cron_manager", "critic"]
  phaseCapabilityMap : Dict String (Dict String (List String)) := ∅
  toolGatingMode : String := "remove"

namespace CompositeToolProvider

variable (c : CompositeToolProvider τ) (name : τ → String)

def stubProvider : Option (Provider τ) := (c.providers.filter Provider.isStub).getLast?

def stubs (agentName : String) : List τ :=
  match c.stubProvider with
  | none => []
  | some p => (p.call agentName none).getD []

def liveTools (agentName : String) (capabilities : Option (List String)) : List τ :=
  (c.providers.filter fun p => c.stubProvider.map Provider.ref != some p.ref).flatMap fun p =>
    (p.call agentName capabilities).getD []

/-- `phase_capability_map[agent_name][phase]` -/
def override (agentName : String) (phase : Option String) : Option (List String) :=
  phase.bind fun phase => ((c.phaseCapabilityMap.get? agentName).getD ∅).get? phase

def narrow (override : List String) : Option (List String) → List String
  | none => override
  | some capabilities => capabilities.filter fun cap => decide (cap ∈ override)

/-- `_effective_capabilities` -/
def effectiveCapabilities (agentName : String) (capabilities : Option (List String))
    (phase : Option String) : Option (List String) :=
  match c.override agentName phase with
  | none => capabilities
  | some override => some (narrow override capabilities)

def merge (live stubs : List τ) : List τ :=
  live ++ stubs.filter fun t => decide (name t ∉ live.map name)

/-- `_resolve` -/
def resolve (agentName : String) (capabilities : Option (List String)) (phase : Option String) :
    List τ :=
  if agentName ∈ c.fixedToolAgents then c.stubs agentName
  else
    (merge name (c.liveTools agentName (c.effectiveCapabilities agentName capabilities phase))
      (c.stubs agentName)).take c.maxTotal

def getTools (agentName : String) (capabilities : Option (List String)) (phase : Option String) :
    List τ :=
  if c.toolGatingMode = "mask" then
    (c.resolve name agentName capabilities none).mergeSort fun a b => decide (name a ≤ name b)
  else c.resolve name agentName capabilities phase

def allowedToolNames (agentName : String) (capabilities : Option (List String))
    (phase : Option String) : Option (List String) :=
  if phase = none ∨ agentName ∈ c.fixedToolAgents then none
  else if c.override agentName phase = none then none
  else some ((c.resolve name agentName capabilities phase).map name)

def withMode (mode : String) : CompositeToolProvider τ := { c with toolGatingMode := mode }

def Executable (agentName : String) (capabilities : Option (List String)) (phase : Option String)
    (t : τ) : Prop :=
  t ∈ (c.withMode "mask").getTools name agentName capabilities phase ∧
    (checkToolCall (name t)
      ((c.withMode "mask").allowedToolNames name agentName capabilities phase) phase).allowed =
      true

def ModesAgree (agentName : String) (capabilities : Option (List String))
    (phase : Option String) : Prop :=
  ∀ t, c.Executable name agentName capabilities phase t ↔
    t ∈ (c.withMode "remove").getTools name agentName capabilities phase

def Within (cap : Nat) (live stubs : List τ) (t : τ) : Prop :=
  t ∈ live.take cap ∨
    t ∈ (stubs.filter fun s => decide (name s ∉ live.map name)).take (cap - live.length)

/-- What the sources offer for fewer capabilities they offer for all of them, and whatever they
offer for all of them under the name of such a tool is such a tool. -/
structure Steady (agentName : String) (capabilities : Option (List String))
    (override : List String) : Prop where
  offered : ∀ t,
    Within name c.maxTotal (c.liveTools agentName (some (narrow override capabilities)))
      (c.stubs agentName) t →
    Within name c.maxTotal (c.liveTools agentName capabilities) (c.stubs agentName) t
  named : ∀ t u, Within name c.maxTotal (c.liveTools agentName capabilities) (c.stubs agentName) t →
    Within name c.maxTotal (c.liveTools agentName (some (narrow override capabilities)))
      (c.stubs agentName) u → name t = name u →
    Within name c.maxTotal (c.liveTools agentName (some (narrow override capabilities)))
      (c.stubs agentName) t

variable {c name} {agentName : String} {capabilities : Option (List String)}
  {phase : Option String}

theorem mem_resolve (hfix : agentName ∉ c.fixedToolAgents) :
    t ∈ c.resolve name agentName capabilities phase ↔
      Within name c.maxTotal
        (c.liveTools agentName (c.effectiveCapabilities agentName capabilities phase))
        (c.stubs agentName) t := by
  rw [resolve, if_neg hfix, merge, List.take_append, List.mem_append, Within]

theorem resolve_fixed (hfix : agentName ∈ c.fixedToolAgents) :
    c.resolve name agentName capabilities phase = c.stubs agentName := by
  rw [resolve, if_pos hfix]

theorem resolve_of_override_none (h : c.override agentName phase = none) :
    c.resolve name agentName capabilities phase = c.resolve name agentName capabilities none := by
  have hnone : c.override agentName none = none := rfl
  rw [resolve, resolve, effectiveCapabilities, h, effectiveCapabilities, hnone]

theorem mem_getTools_remove : t ∈ (c.withMode "remove").getTools name agentName capabilities phase ↔
    t ∈ c.resolve name agentName capabilities phase := by
  have hmode : (c.withMode "remove").toolGatingMode ≠ "mask" :=
    (by decide : "remove" ≠ "mask")
  rw [getTools, if_neg hmode]
  rfl

theorem executable_iff : c.Executable name agentName capabilities phase t ↔
    t ∈ c.resolve name agentName capabilities none ∧
      ∀ names, c.allowedToolNames name agentName capabilities phase = some names →
        name t ∈ names := by
  rw [Executable, getTools, if_pos (show (c.withMode "mask").toolGatingMode = "mask" from rfl),
    List.mem_mergeSort]
  apply and_congr_right
  intro _
  change (checkToolCall (name t) (c.allowedToolNames name agentName capabilities phase)
    phase).allowed = true ↔ _
  cases c.allowedToolNames name agentName capabilities phase with
  | none => exact ⟨nofun, fun _ => rfl⟩
  | some names =>
    rw [checkToolCall]
    by_cases hn : name t ∈ names
    · rw [if_pos hn]
      exact ⟨fun _ _ h => Option.some.inj h ▸ hn, fun _ => rfl⟩
    · rw [if_neg hn]
      exact ⟨nofun, fun h => absurd (h names rfl) hn⟩

theorem modesAgree_of_unrestricted
    (hallow : c.allowedToolNames name agentName capabilities phase = none)
    (hsame : c.resolve name agentName capabilities phase =
      c.resolve name agentName capabilities none) :
    c.ModesAgree name agentName capabilities phase := by
  intro t
  rw [executable_iff, mem_getTools_remove, hsame, hallow]
  exact ⟨fun h => h.1, fun h => ⟨h, nofun⟩⟩

theorem executable_override {override : List String} (hfix : agentName ∉ c.fixedToolAgents)
    (ho : c.override agentName phase = some override) :
    c.Executable name agentName capabilities phase t ↔
      t ∈ c.resolve name agentName capabilities none ∧
        ∃ u ∈ c.resolve name agentName capabilities phase, name u = name t := by
  have hphase : phase ≠ none := by
    rintro rfl
    cases ho
  rw [executable_iff, allowedToolNames, if_neg (not_or.2 ⟨hphase, hfix⟩), if_neg (by simp [ho])]
  simp only [Option.some.injEq, forall_eq', List.mem_map]

theorem within_iff {live stubs : List τ} (hcap : (merge name live stubs).length ≤ cap) :
    Within name cap live stubs t ↔ t ∈ live ∨ t ∈ stubs ∧ name t ∉ live.map name := by
  rw [merge, List.length_append] at hcap
  rw [Within, List.take_of_length_le (by omega), List.take_of_length_le (by omega),
    List.mem_filter, decide_eq_true_eq]

theorem steady_of_distinct {override : List String}
    (hsub : c.liveTools agentName (some (narrow override capabilities)) ⊆
      c.liveTools agentName capabilities)
    (hname : ∀ t ∈ c.liveTools agentName capabilities ++ c.stubs agentName,
      ∀ u ∈ c.liveTools agentName capabilities ++ c.stubs agentName, name t = name u → t = u)
    (hfull : (merge name (c.liveTools agentName capabilities) (c.stubs agentName)).length ≤
      c.maxTotal)
    (hnarrow : (merge name (c.liveTools agentName (some (narrow override capabilities)))
      (c.stubs agentName)).length ≤ c.maxTotal) :
    c.Steady name agentName capabilities override := by
  constructor
  · intro t ht
    rw [within_iff hnarrow] at ht
    rw [within_iff hfull]
    cases ht with
    | inl hlive => exact Or.inl (hsub hlive)
    | inr hstub =>
      by_cases hshadow : name t ∈ (c.liveTools agentName capabilities).map name
      · obtain ⟨u, hu, hut⟩ := List.mem_map.1 hshadow
        obtain rfl := hname u (List.mem_append_left _ hu) t (List.mem_append_right _ hstub.1) hut
        exact Or.inl hu
      · exact Or.inr ⟨hstub.1, hshadow⟩
  · intro t u ht hu hut
    rw [within_iff hfull] at ht
    have htool : t ∈ c.liveTools agentName capabilities ++ c.stubs agentName :=
      List.mem_append.2 (ht.imp_right fun h => h.1)
    have hutool : u ∈ c.liveTools agentName capabilities ++ c.stubs agentName :=
      List.mem_append.2 (((within_iff hnarrow).1 hu).imp (fun h => hsub h) fun h => h.1)
    obtain rfl := hname t htool u hutool hut
    exact hu

def searchers : CompositeToolProvider (String × String) where
  providers :=
    [⟨0, .live fun _ capabilities =>
      if capabilities = none then some [("web_search", "live")] else some []⟩,
      ⟨1, .stubs fun _ => [("web_search", "stub")]⟩]
  phaseCapabilityMap := Dict.collect [("researcher", Dict.collect [("plan", ["files"])])]

end CompositeToolProvider

end Prismal.Agents
