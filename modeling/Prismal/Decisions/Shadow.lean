import Prismal.Decisions.Types
import Prismal.Lib.Deque
import Prismal.Lib.Run

namespace Prismal.Decisions.Shadow
open Prismal.Lib
set_option autoImplicit true

/-! Drift demotion: an integration that the audits no longer bear out falls back to shadow. -/

def auditWindow : Nat := 500

def integrationFlags : List (String × String) :=
  [("route", "decision_routing_enabled"), ("eval_judge", "decision_eval_judge_enabled"),
    ("hitl", "decision_hitl_enabled"), ("tool", "decision_tool_proposal_enabled"),
    ("rag", "decision_rag_relevance_enabled"), ("ctx", "decision_ctx_relevance_enabled"),
    ("swarm", "decision_swarm_eval_enabled"), ("safety", "decision_safety_prescreen_enabled")]

structure Settings where
  decisionsEnabled : Bool
  /-- The flags by name. -/
  flags : String → Bool
  decisionModes : Dict String DecisionMode
  decisionAutoDemote : Bool
  decisionDemoteFloor : Rat
  decisionEvalAuditRate : Rat

def integrationEnabled (settings : Settings) (integration : String) : Bool :=
  match Dict.lookup integration integrationFlags with
  | none => false
  | some flag => settings.decisionsEnabled && settings.flags flag

def configuredMode (settings : Settings) (integration : String) : DecisionMode :=
  if integrationEnabled settings integration then
    (settings.decisionModes.get? integration).getD .shadow
  else .off

/-- The integrations that the process has demoted, and the audits of its runner. -/
structure ShadowRunner where
  settings : Option Settings
  demoteMinWindow : Nat := 100
  demoted : List String := []
  audited : Dict String (Deque auditWindow Bool) := ∅

inductive ShadowCall where
  | recordAudit (integration : String) (agree : Bool)
  | resetDemotions
  deriving DecidableEq

def ratio (window : List Bool) : Rat := (window.count true : Rat) / window.length

namespace ShadowRunner

def window (r : ShadowRunner) (integration : String) : List Bool :=
  ((r.audited.get? integration).getD .empty).toList

def rollingAgreement (r : ShadowRunner) (integration : String) : Rat :=
  if (r.window integration).isEmpty then 1 else ratio (r.window integration)

def drifted (r : ShadowRunner) (integration : String) : Bool :=
  match r.settings with
  | none => false
  | some settings =>
    settings.decisionAutoDemote &&
      !(decide ((r.window integration).length < r.demoteMinWindow) ||
        decide (integration ∈ r.demoted)) &&
      decide (r.rollingAgreement integration < settings.decisionDemoteFloor)

def recordAudit (r : ShadowRunner) (integration : String) (agree : Bool) : ShadowRunner :=
  let window := ((r.audited.get? integration).getD .empty).push agree
  let r : ShadowRunner := { r with audited := r.audited.set integration window }
  if r.drifted integration then { r with demoted := integration :: r.demoted } else r

def step (r : ShadowRunner) : ShadowCall → ShadowRunner
  | .recordAudit integration agree => r.recordAudit integration agree
  | .resetDemotions => { r with demoted := [] }

def effectiveMode (r : ShadowRunner) (settings : Settings) (integration : String) :
    DecisionMode :=
  if configuredMode settings integration = .enforce ∧ integration ∈ r.demoted then .shadow
  else configuredMode settings integration

end ShadowRunner

def auditsOf (integration : String) (calls : List ShadowCall) : List Bool :=
  calls.filterMap fun
    | .recordAudit i agree => if i = integration then some agree else none
    | .resetDemotions => none

def Alarm (settings : Option Settings) (minWindow : Nat) (audits : List Bool) : Prop :=
  ∃ s ∈ settings, s.decisionAutoDemote = true ∧ audits ≠ [] ∧
    minWindow ≤ (audits.rtake auditWindow).length ∧
    ratio (audits.rtake auditWindow) < s.decisionDemoteFloor

def isReset (c : ShadowCall) : Prop := c = .resetDemotions

def SetsOff (settings : Option Settings) (minWindow : Nat) (integration : String)
    (before : List ShadowCall) (c : ShadowCall) : Prop :=
  ∃ agree, c = .recordAudit integration agree ∧
    Alarm settings minWindow (auditsOf integration before ++ [agree])

def Demoted (settings : Option Settings) (minWindow : Nat) (integration : String)
    (calls : List ShadowCall) : Prop :=
  Since (SetsOff settings minWindow integration) isReset calls

variable {settings : Option Settings} {minWindow : Nat} {integration j : String} {agree : Bool}
  {calls : List ShadowCall} {r : ShadowRunner}

def after (settings : Option Settings) (minWindow : Nat) (calls : List ShadowCall) : ShadowRunner :=
  Run.final ShadowRunner.step { settings := settings, demoteMinWindow := minWindow } calls

theorem after_concat (c : ShadowCall) :
    after settings minWindow (calls ++ [c]) = (after settings minWindow calls).step c :=
  Run.final_append _ _ _ _

theorem auditsOf_concat_audit : auditsOf integration (calls ++ [.recordAudit j agree]) =
    auditsOf integration calls ++ if j = integration then [agree] else [] := by
  rw [auditsOf, List.filterMap_append]
  split
  · next heq => exact congrArg _ (List.filterMap_cons_some (if_pos heq))
  · next hne => exact congrArg _ (List.filterMap_cons_none (if_neg hne))

theorem auditsOf_concat_reset :
    auditsOf integration (calls ++ [.resetDemotions]) = auditsOf integration calls := by
  rw [auditsOf, List.filterMap_append]
  exact List.append_nil _

structure Audited (config : Option Settings) (least : Nat) (calls : List ShadowCall)
    (r : ShadowRunner) : Prop where
  settings : r.settings = config
  minWindow : r.demoteMinWindow = least
  audited : ∀ integration, (r.audited.get? integration).getD .empty =
    .last auditWindow (auditsOf integration calls)
  demoted : ∀ integration, integration ∈ r.demoted ↔ Demoted config least integration calls

theorem drifted_iff {audits : List Bool} (hsettings : r.settings = settings)
    (hmin : r.demoteMinWindow = minWindow) (hwindow : r.window integration = audits.rtake auditWindow)
    (hne : audits ≠ []) : r.drifted integration = true ↔
      integration ∉ r.demoted ∧ Alarm settings minWindow audits := by
  have hlast : (audits.rtake auditWindow).isEmpty = false := by
    rcases List.eq_nil_or_concat audits with rfl | ⟨xs, a, rfl⟩
    · exact absurd rfl hne
    · rw [List.concat_eq_append, auditWindow, List.rtake_concat_succ]
      exact List.isEmpty_eq_false_iff.2 (List.append_ne_nil_of_right_ne_nil _ (List.cons_ne_nil _ _))
  rw [ShadowRunner.drifted, hsettings, ShadowRunner.rollingAgreement, hwindow, hmin, hlast]
  cases settings with
  | none => exact ⟨nofun, fun ⟨_, s, hs, _⟩ => nomatch hs⟩
  | some s =>
    simp only [Bool.and_eq_true, Bool.not_eq_true', Bool.or_eq_false_iff, decide_eq_false_iff_not,
      decide_eq_true_eq, not_lt, Bool.false_eq_true, if_false, Alarm, Option.mem_def,
      Option.some.injEq, exists_eq_left']
    constructor
    · intro ⟨⟨hauto, hlong, hnew⟩, hlow⟩
      exact ⟨hnew, hauto, hne, hlong, hlow⟩
    · intro ⟨hnew, hauto, _, hlong, hlow⟩
      exact ⟨⟨hauto, hlong, hnew⟩, hlow⟩

theorem recordAudit_eq (r : ShadowRunner) (integration : String) (agree : Bool) :
    ∃ pushed : ShadowRunner, pushed.settings = r.settings ∧
      pushed.demoteMinWindow = r.demoteMinWindow ∧ pushed.demoted = r.demoted ∧
      pushed.audited = r.audited.set integration
        (((r.audited.get? integration).getD .empty).push agree) ∧
      r.recordAudit integration agree =
        if pushed.drifted integration then { pushed with demoted := integration :: pushed.demoted }
        else pushed :=
  ⟨{ r with
      audited := r.audited.set integration
        (((r.audited.get? integration).getD .empty).push agree) }, rfl, rfl, rfl, rfl, rfl⟩

theorem Audited.recordAudit (h : Audited settings minWindow calls r) (integration : String)
    (agree : Bool) : Audited settings minWindow (calls ++ [.recordAudit integration agree])
      (r.recordAudit integration agree) := by
  obtain ⟨pushed, hsettings, hmin, hdemoted, haudited, heq⟩ := recordAudit_eq r integration agree
  have hwindows : ∀ i, (pushed.audited.get? i).getD .empty =
      .last auditWindow (auditsOf i (calls ++ [.recordAudit integration agree])) := by
    intro i
    rw [haudited, Dict.get?_set, auditsOf_concat_audit]
    by_cases hi : integration = i
    · subst hi
      rw [if_pos rfl, if_pos rfl, Option.getD_some, h.audited, Deque.push_last]
    · rw [if_neg hi, if_neg hi, List.append_nil, h.audited]
  have hown : auditsOf integration (calls ++ [.recordAudit integration agree]) =
      auditsOf integration calls ++ [agree] := by
    rw [auditsOf_concat_audit, if_pos rfl]
  have hdrift : pushed.drifted integration = true ↔ integration ∉ r.demoted ∧
      Alarm settings minWindow (auditsOf integration calls ++ [agree]) := by
    rw [← hdemoted, ← hown]
    apply drifted_iff (hsettings.trans h.settings) (hmin.trans h.minWindow)
    · rw [ShadowRunner.window, hwindows, Deque.toList_last]
    · rw [hown]
      exact List.append_ne_nil_of_right_ne_nil _ (List.cons_ne_nil _ _)
  have hframe : (r.recordAudit integration agree).settings = pushed.settings ∧
      (r.recordAudit integration agree).demoteMinWindow = pushed.demoteMinWindow ∧
      (r.recordAudit integration agree).audited = pushed.audited := by
    rw [heq]
    split <;> exact ⟨rfl, rfl, rfl⟩
  refine ⟨hframe.1.trans (hsettings.trans h.settings), hframe.2.1.trans (hmin.trans h.minWindow),
    fun i => by rw [hframe.2.2]; exact hwindows i, ?_⟩
  intro i
  have hsets : SetsOff settings minWindow i calls (.recordAudit integration agree) ↔
      integration = i ∧ Alarm settings minWindow (auditsOf i calls ++ [agree]) := by
    constructor
    · intro ⟨a, hcall, halarm⟩
      obtain ⟨rfl, rfl⟩ := ShadowCall.recordAudit.inj hcall
      exact ⟨rfl, halarm⟩
    · intro ⟨heq, halarm⟩
      exact ⟨agree, by rw [heq], halarm⟩
  have hkeep : ¬ isReset (.recordAudit integration agree) := nofun
  rw [Demoted, since_concat, hsets, and_iff_left hkeep, ← Demoted, ← h.demoted, heq]
  split
  · next hdrifted =>
    obtain ⟨-, halarm⟩ := hdrift.1 hdrifted
    rw [List.mem_cons, hdemoted]
    constructor
    · intro hmem
      rcases hmem with rfl | hmem
      · exact .inl ⟨rfl, halarm⟩
      · exact .inr hmem
    · intro hmem
      rcases hmem with ⟨rfl, -⟩ | hmem
      · exact .inl rfl
      · exact .inr hmem
  · next hcalm =>
    rw [hdemoted]
    constructor
    · exact .inr
    · intro hmem
      rcases hmem with ⟨rfl, halarm⟩ | hmem
      · by_contra hnew
        exact hcalm (hdrift.2 ⟨hnew, halarm⟩)
      · exact hmem

theorem Audited.reset (h : Audited settings minWindow calls r) :
    Audited settings minWindow (calls ++ [.resetDemotions]) { r with demoted := [] } := by
  refine ⟨h.settings, h.minWindow, ?_, ?_⟩
  · intro i
    rw [auditsOf_concat_reset]
    exact h.audited i
  · intro i
    rw [Demoted, since_concat]
    constructor
    · exact nofun
    · intro hsince
      rcases hsince with ⟨a, hcall, -⟩ | ⟨-, hno⟩
      · cases hcall
      · exact absurd rfl hno

theorem audited_after (settings : Option Settings) (minWindow : Nat) (calls : List ShadowCall) :
    Audited settings minWindow calls (after settings minWindow calls) := by
  induction calls using List.reverseRecOn with
  | nil =>
    exact ⟨rfl, rfl, fun _ => Deque.last_nil.symm,
      fun _ => ⟨nofun, fun h => absurd h not_since_nil⟩⟩
  | append_singleton calls c ih =>
    rw [after_concat]
    cases c with
    | recordAudit integration agree => exact ih.recordAudit integration agree
    | resetDemotions => exact ih.reset

theorem effectiveMode_after (settings : Option Settings) (minWindow : Nat)
    (calls : List ShadowCall) (config : Settings) (integration : String) :
    (after settings minWindow calls).effectiveMode config integration = .enforce ↔
      configuredMode config integration = .enforce ∧
        ¬ Demoted settings minWindow integration calls := by
  have hdemoted := (audited_after settings minWindow calls).demoted integration
  rw [ShadowRunner.effectiveMode, ← hdemoted]
  split
  · next hfall => exact ⟨nofun, fun h => absurd hfall.2 h.2⟩
  · next hstay =>
    constructor
    · intro henforce
      exact ⟨henforce, fun hmem => hstay ⟨henforce, hmem⟩⟩
    · exact And.left

/-- After every history of audits and resets an integration enforces exactly where it is configured
to, and no audit since the last reset found the agreement of its own last audits below the floor. -/
theorem enforces_iff (settings : Option Settings) (minWindow : Nat) (calls : List ShadowCall)
    (config : Settings) (integration : String) :
    (after settings minWindow calls).effectiveMode config integration = .enforce ↔
      configuredMode config integration = .enforce ∧
        ∀ before agree rest, calls = before ++ .recordAudit integration agree :: rest →
          .resetDemotions ∉ rest → ¬ Alarm settings minWindow (auditsOf integration before ++ [agree]) := by
  rw [effectiveMode_after]
  apply and_congr_right'
  constructor
  · intro hnot before agree rest hcalls hrest halarm
    exact hnot ⟨before, _, rest, hcalls, ⟨agree, rfl, halarm⟩, fun c hc hreset => hrest (hreset ▸ hc)⟩
  · intro hcalm ⟨before, c, rest, hcalls, ⟨agree, hc, halarm⟩, hrest⟩
    subst hc
    exact hcalm before agree rest hcalls (fun hmem => hrest _ hmem rfl) halarm

end Prismal.Decisions.Shadow
