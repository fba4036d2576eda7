import Mathlib.Algebra.Order.Ring.Rat
import Prismal.Agents.ToolProviders
import Prismal.Lib.Ledger
import Prismal.Lib.Run

namespace Prismal.Security
open Prismal.Lib
set_option autoImplicit true

/-! The permissions that are granted for a time, to everybody or to one identity. -/

inductive PermissionType where
  | filesystemRead
  | filesystemWrite
  | network
  | shell
  | databaseWrite
  deriving DecidableEq, Repr

structure PermissionRecord where
  permissionType : PermissionType
  resource : String
  grantedAt : Rat
  expiresAt : Option Rat
  reason : String := ""
  identity : Option String := none
  deriving DecidableEq

/-- `_identity_visible_clause` -/
def identityVisible (identity : Option String) (r : PermissionRecord) : Bool :=
  match identity with
  | none => r.identity.isNone
  | some did => r.identity.isNone || decide (r.identity = some did)

/-- `_identity_match_clause` -/
def identityMatch (identity : Option String) (r : PermissionRecord) : Bool :=
  decide (r.identity = identity)

def notExpired (now : Rat) (r : PermissionRecord) : Bool :=
  r.expiresAt.all fun at' => decide (now < at')

def concerns (permissionType : PermissionType) (resource : String) (r : PermissionRecord) : Bool :=
  decide (r.permissionType = permissionType) && decide (r.resource = resource)

/-- The rows of `permissions`, in the order of their ids. -/
structure PermissionManager where
  rows : List PermissionRecord := []

namespace PermissionManager

def grant (pm : PermissionManager) (permissionType : PermissionType) (resource : String)
    (ttlSeconds : Option Int) (reason : String) (identity : Option String) (now : Rat) :
    PermissionManager where
  rows := pm.rows ++
    [{ permissionType := permissionType
       resource := resource
       grantedAt := now
       expiresAt := ttlSeconds.map fun ttl => now + ttl
       reason := reason
       identity := identity }]

def check (pm : PermissionManager) (permissionType : PermissionType) (resource : String)
    (identity : Option String) (now : Rat) : Bool :=
  pm.rows.any fun r => concerns permissionType resource r && notExpired now r &&
    identityVisible identity r

def revoke (pm : PermissionManager) (permissionType : PermissionType) (resource : String)
    (identity : Option String) : PermissionManager where
  rows := pm.rows.filter fun r => !(concerns permissionType resource r && identityMatch identity r)

def listGrants (pm : PermissionManager) (identity : Option String) (now : Rat) :
    List PermissionRecord :=
  pm.rows.filter fun r => notExpired now r && (identity.isNone || identityVisible identity r)

end PermissionManager

inductive PermissionCall where
  | grant (permissionType : PermissionType) (resource : String) (ttlSeconds : Option Int)
      (reason : String) (identity : Option String) (now : Rat)
  | revoke (permissionType : PermissionType) (resource : String) (identity : Option String)
  deriving DecidableEq

def PermissionCall.identity : PermissionCall → Option String
  | grant _ _ _ _ identity _ => identity
  | revoke _ _ identity => identity

namespace PermissionManager

def step (pm : PermissionManager) : PermissionCall → PermissionManager
  | .grant permissionType resource ttlSeconds reason identity now =>
    pm.grant permissionType resource ttlSeconds reason identity now
  | .revoke permissionType resource identity => pm.revoke permissionType resource identity

def after (calls : List PermissionCall) : PermissionManager := calls.foldl step {}

def entry : PermissionCall → Ledger.Entry PermissionRecord
  | .grant permissionType resource ttlSeconds reason identity now =>
    .assert ⟨permissionType, resource, now, ttlSeconds.map fun ttl => now + ttl, reason, identity⟩
  | .revoke permissionType resource identity =>
    .retract fun r => concerns permissionType resource r && identityMatch identity r

variable {permissionType : PermissionType} {resource : String} {identity : Option String}
  {now : Rat} {calls : List PermissionCall} {r : PermissionRecord}

theorem step_rows (pm : PermissionManager) (c : PermissionCall) :
    (step pm c).rows = Ledger.write pm.rows (entry c) := by
  cases c with
  | grant => rfl
  | revoke => rfl

theorem after_rows (calls : List PermissionCall) :
    (after calls).rows = Ledger.rows [] (calls.map entry) := by
  induction calls using List.reverseRecOn with
  | nil => rfl
  | append_singleton calls c ih =>
    rw [List.map_append, List.map_singleton, Ledger.rows_concat, ← ih, after, List.foldl_append]
    exact step_rows _ c

def Grants (c : PermissionCall) (r : PermissionRecord) : Prop := entry c = .assert r

def Standing (calls : List PermissionCall) (r : PermissionRecord) : Prop :=
  ∃ before c after, calls = before ++ c :: after ∧ Grants c r ∧
    PermissionCall.revoke r.permissionType r.resource r.identity ∉ after

theorem revoke_retracts : (concerns permissionType resource r && identityMatch identity r) = true ↔
    PermissionCall.revoke permissionType resource identity =
      .revoke r.permissionType r.resource r.identity := by
  rw [concerns, identityMatch, Bool.and_eq_true, Bool.and_eq_true, decide_eq_true_eq,
    decide_eq_true_eq, decide_eq_true_eq, PermissionCall.revoke.injEq]
  constructor
  · intro ⟨⟨htype, hresource⟩, hidentity⟩
    exact ⟨htype.symm, hresource.symm, hidentity.symm⟩
  · intro ⟨htype, hresource, hidentity⟩
    exact ⟨⟨htype.symm, hresource.symm⟩, hidentity.symm⟩

theorem stands_iff : Ledger.Stands (calls.map entry) r ↔ Standing calls r := by
  constructor
  · intro ⟨before, after, hlog, hafter⟩
    obtain ⟨before', rest, rfl, hbefore, hrest⟩ := List.map_eq_append_iff.1 hlog
    obtain ⟨c, after', rfl, hc, rfl⟩ := List.map_eq_cons_iff.1 hrest
    refine ⟨before', c, after', rfl, hc, ?_⟩
    intro hmem
    have hkept := hafter _ (List.mem_map_of_mem (f := entry) hmem)
    exact Bool.false_ne_true (hkept.symm.trans (revoke_retracts.2 rfl))
  · intro ⟨before, c, after, hcalls, hc, hafter⟩
    refine ⟨before.map entry, after.map entry, ?_, ?_⟩
    · rw [hcalls, List.map_append, List.map_cons, hc]
    · intro p hp
      obtain ⟨c', hc', hentry⟩ := List.mem_map.1 hp
      cases c' with
      | grant => cases hentry
      | revoke permissionType resource identity =>
        cases hentry
        rw [← Bool.not_eq_true, revoke_retracts]
        intro heq
        exact hafter (heq ▸ hc')

theorem check_eq (pm : PermissionManager) : pm.check permissionType resource identity now =
    (pm.rows.filter (identityVisible identity)).any fun r =>
      concerns permissionType resource r && notExpired now r := by
  rw [check, List.any_filter]
  congr 1
  funext r
  exact Bool.and_comm _ _

def seen (identity : Option String) (c : PermissionCall) : Bool :=
  c.identity.isNone || decide (c.identity = identity)

theorem outside_of_unseen (h : seen identity c = false) :
    (entry c).Outside (identityVisible identity) := by
  rw [seen, Bool.or_eq_false_iff, decide_eq_false_iff_not] at h
  cases c with
  | grant permissionType resource ttlSeconds reason did now =>
    change identityVisible identity ⟨_, _, _, _, _, did⟩ = false
    cases identity with
    | none => exact h.1
    | some did' =>
      change (did.isNone || decide (did = some did')) = false
      exact Bool.or_eq_false_iff.2 ⟨h.1, decide_eq_false h.2⟩
  | revoke permissionType resource did =>
    intro r hr
    have hne : r.identity ≠ did := by
      intro heq
      cases identity with
      | none =>
        change r.identity.isNone = true at hr
        rw [heq] at hr
        exact Bool.false_ne_true (h.1.symm.trans hr)
      | some did' =>
        change (r.identity.isNone || decide (r.identity = some did')) = true at hr
        rw [heq, Bool.or_eq_true, decide_eq_true_eq] at hr
        rcases hr with hnone | hown
        · exact Bool.false_ne_true (h.1.symm.trans hnone)
        · exact h.2 hown
    change (concerns permissionType resource r && decide (r.identity = did)) = false
    rw [decide_eq_false hne, Bool.and_false]

theorem identityVisible_iff : identityVisible identity r = true ↔
    r.identity = none ∨ r.identity = identity := by
  cases identity with
  | none => rw [identityVisible, Option.isNone_iff_eq_none, or_self]
  | some did =>
    rw [identityVisible, Bool.or_eq_true, Option.isNone_iff_eq_none, decide_eq_true_eq]

def Permitted (calls : List PermissionCall) (permissionType : PermissionType) (resource : String)
    (identity : Option String) (now : Rat) : Prop :=
  ∃ r, Standing calls r ∧ r.permissionType = permissionType ∧ r.resource = resource ∧
    (r.identity = none ∨ r.identity = identity) ∧ ∀ at' ∈ r.expiresAt, now < at'

theorem check_iff_permitted : (after calls).check permissionType resource identity now = true ↔
    Permitted calls permissionType resource identity now := by
  simp only [check, List.any_eq_true, after_rows, Ledger.mem_rows, stands_iff, concerns,
    notExpired, Bool.and_eq_true, decide_eq_true_eq, identityVisible_iff, Option.all_eq_true]
  constructor
  · intro ⟨r, hstands, ⟨⟨htype, hresource⟩, hfresh⟩, hscope⟩
    exact ⟨r, hstands, htype, hresource, hscope, hfresh⟩
  · intro ⟨r, hstands, htype, hresource, hscope, hfresh⟩
    exact ⟨r, hstands, ⟨⟨htype, hresource⟩, hfresh⟩, hscope⟩

/-- A permission is found exactly where it was granted to everybody or to the caller, has not
expired, and was not revoked in the scope that it was granted in; and what is granted to or revoked
from another identity plays no part. -/
theorem check_exact (calls : List PermissionCall) (permissionType : PermissionType)
    (resource : String) (identity : Option String) (now : Rat) :
    ((after calls).check permissionType resource identity now = true ↔
      Permitted calls permissionType resource identity now) ∧
    (after calls).check permissionType resource identity now =
      (after (calls.filter (seen identity))).check permissionType resource identity now := by
  constructor
  · exact check_iff_permitted
  · rw [check_eq, check_eq, after_rows, after_rows,
      Ledger.filter_rows (seen identity) (fun c => outside_of_unseen)]

end PermissionManager

end Prismal.Security

namespace Prismal.Security
open Prismal.Agents Prismal.Lib
set_option autoImplicit true

/-! The last check before a tool runs: the tools of the phase, and the permissions. -/

/-- `_TOOL_PERMISSION_MAP` -/
def toolPermissionMap : List (String × PermissionType) :=
  [("bash", .shell), ("shell", .shell), ("terminal", .shell), ("write_file", .filesystemWrite),
    ("create_file", .filesystemWrite), ("delete_file", .filesystemWrite),
    ("read_file", .filesystemRead), ("http_request", .network), ("web_fetch", .network),
    ("database_write", .databaseWrite)]

def requiredPermission (tool : String) : Option PermissionType :=
  Dict.lookup tool toolPermissionMap

inductive InterceptorRecord where
  | toolCall (name input result : String)
  | maskedCall (agent tool : String) (phase : Option String)

/-- An interceptor with the permissions that it asks. `runs` are the calls that have begun. -/
structure Interceptor where
  permissions : PermissionManager := {}
  identity : Option String
  runs : Dict String (String × String) := ∅
  allowSet : Option (List String) := none
  allowPhase : Option String := none
  allowAgent : String := ""
  audit : List InterceptorRecord := []

inductive ToolStart where
  | passed
  | masked (phase : Option String)
  | denied (permission : PermissionType)
  deriving DecidableEq

namespace Interceptor

def setToolAllowSet (i : Interceptor) (allowSet : Option (List String)) (phase : Option String)
    (agent : String) : Interceptor :=
  { i with allowSet := allowSet, allowPhase := phase, allowAgent := agent }

def onToolStart (i : Interceptor) (runId tool input : String) (now : Rat) :
    ToolStart × Interceptor :=
  let verdict := checkToolCall tool i.allowSet i.allowPhase
  if verdict.allowed then
    let i := { i with runs := i.runs.set runId (tool, input) }
    match requiredPermission tool with
    | none => (.passed, i)
    | some permission =>
      if i.permissions.check permission "*" i.identity now then (.passed, i)
      else (.denied permission, i)
  else
    (.masked i.allowPhase,
      { i with audit := i.audit ++ [.maskedCall i.allowAgent verdict.tool verdict.phase] })

/-- `on_tool_end` and `on_tool_error` -/
def onToolEnd (i : Interceptor) (runId result : String) : Interceptor :=
  let run := (i.runs.get? runId).getD ("unknown", "")
  { i with
    runs := i.runs.erase runId
    audit := i.audit ++ [.toolCall run.1 run.2 result] }

end Interceptor

inductive InterceptorCall where
  | permission (c : PermissionCall)
  | setToolAllowSet (allowSet : Option (List String)) (phase : Option String) (agent : String)
  | onToolStart (runId tool input : String) (now : Rat)
  | onToolEnd (runId output : String)
  | onToolError (runId error : String)

namespace Interceptor

def step (i : Interceptor) : InterceptorCall → Interceptor
  | .permission c => { i with permissions := i.permissions.step c }
  | .setToolAllowSet allowSet phase agent => i.setToolAllowSet allowSet phase agent
  | .onToolStart runId tool input now => (i.onToolStart runId tool input now).2
  | .onToolEnd runId output => i.onToolEnd runId output
  | .onToolError runId error => i.onToolEnd runId ("ERROR: " ++ error)

def permissionCalls (calls : List InterceptorCall) : List PermissionCall :=
  calls.filterMap fun
    | .permission c => some c
    | _ => none

def gateOf (calls : List InterceptorCall) : Option (List String) × Option String :=
  ((calls.filterMap fun
    | .setToolAllowSet allowSet phase _ => some (allowSet, phase)
    | _ => none).getLast?).getD (none, none)

variable {i : Interceptor} {calls : List InterceptorCall} {c : InterceptorCall}
  {runId tool input result : String} {now : Rat} {identity : Option String}

theorem run_concat (i : Interceptor) (calls : List InterceptorCall) (c : InterceptorCall) :
    Run.final step i (calls ++ [c]) = step (Run.final step i calls) c := Run.final_append _ _ _ _

theorem start_frame (i : Interceptor) (runId tool input : String) (now : Rat) :
    (i.onToolStart runId tool input now).2.permissions = i.permissions ∧
      (i.onToolStart runId tool input now).2.identity = i.identity ∧
      (i.onToolStart runId tool input now).2.allowSet = i.allowSet ∧
      (i.onToolStart runId tool input now).2.allowPhase = i.allowPhase := by
  rw [onToolStart]
  split
  · cases requiredPermission tool with
    | none => exact ⟨rfl, rfl, rfl, rfl⟩
    | some permission =>
      simp only
      split <;> exact ⟨rfl, rfl, rfl, rfl⟩
  · exact ⟨rfl, rfl, rfl, rfl⟩

/-- What the interceptor goes by, after every run. -/
structure InForce (identity : Option String) (calls : List InterceptorCall) (i : Interceptor) :
    Prop where
  permissions : i.permissions = PermissionManager.after (permissionCalls calls)
  identity : i.identity = identity
  gate : (i.allowSet, i.allowPhase) = gateOf calls

theorem filterMap_concat (f : InterceptorCall → Option β) (hc : f c = none) :
    (calls ++ [c]).filterMap f = calls.filterMap f := by
  rw [List.filterMap_append, List.filterMap_cons_none hc, List.filterMap_nil, List.append_nil]

theorem gateOf_concat (hc : ∀ allowSet phase agent, c ≠ .setToolAllowSet allowSet phase agent) :
    gateOf (calls ++ [c]) = gateOf calls := by
  cases c with
  | setToolAllowSet allowSet phase agent => exact absurd rfl (hc allowSet phase agent)
  | permission c => exact congrArg (fun l => Option.getD (List.getLast? l) _) (filterMap_concat _ rfl)
  | onToolStart => exact congrArg (fun l => Option.getD (List.getLast? l) _) (filterMap_concat _ rfl)
  | onToolEnd => exact congrArg (fun l => Option.getD (List.getLast? l) _) (filterMap_concat _ rfl)
  | onToolError => exact congrArg (fun l => Option.getD (List.getLast? l) _) (filterMap_concat _ rfl)

theorem permissionCalls_concat (hc : ∀ p, c ≠ .permission p) :
    permissionCalls (calls ++ [c]) = permissionCalls calls := by
  cases c with
  | permission p => exact absurd rfl (hc p)
  | setToolAllowSet => exact filterMap_concat _ rfl
  | onToolStart => exact filterMap_concat _ rfl
  | onToolEnd => exact filterMap_concat _ rfl
  | onToolError => exact filterMap_concat _ rfl

theorem inForce (identity : Option String) (calls : List InterceptorCall) :
    InForce identity calls (Run.final step { identity := identity } calls) := by
  induction calls using List.reverseRecOn with
  | nil => exact ⟨rfl, rfl, rfl⟩
  | append_singleton calls c ih =>
    rw [run_concat]
    cases c with
    | permission p =>
      refine ⟨?_, ih.identity, ?_⟩
      · rw [permissionCalls, List.filterMap_append, PermissionManager.after]
        change (Run.final step _ calls).permissions.step p = _
        rw [ih.permissions, PermissionManager.after, List.foldl_append]
        rfl
      · rw [gateOf_concat (by exact nofun)]
        exact ih.gate
    | setToolAllowSet allowSet phase agent =>
      refine ⟨?_, ih.identity, ?_⟩
      · rw [permissionCalls_concat (by exact nofun)]
        exact ih.permissions
      · rw [gateOf, List.filterMap_append]
        exact (congrArg (fun o => Option.getD o _) List.getLast?_concat).symm
    | onToolStart runId tool input now =>
      obtain ⟨hpermissions, hidentity, hset, hphase⟩ :=
        start_frame (Run.final step { identity := identity } calls) runId tool input now
      refine ⟨?_, hidentity.trans ih.identity, ?_⟩
      · rw [permissionCalls_concat (by exact nofun)]
        exact hpermissions.trans ih.permissions
      · rw [gateOf_concat (by exact nofun), ← ih.gate]
        exact Prod.ext hset hphase
    | onToolEnd runId output =>
      refine ⟨?_, ih.identity, ?_⟩
      · rw [permissionCalls_concat (by exact nofun)]
        exact ih.permissions
      · rw [gateOf_concat (by exact nofun)]
        exact ih.gate
    | onToolError runId error =>
      refine ⟨?_, ih.identity, ?_⟩
      · rw [permissionCalls_concat (by exact nofun)]
        exact ih.permissions
      · rw [gateOf_concat (by exact nofun)]
        exact ih.gate

def Available (allowSet : Option (List String)) (tool : String) : Prop :=
  ∀ names, allowSet = some names → tool ∈ names

theorem allowed_iff {allowSet : Option (List String)} (phase : Option String) :
    (checkToolCall tool allowSet phase).allowed = true ↔ Available allowSet tool := by
  cases allowSet with
  | none => exact iff_of_true rfl fun names h => absurd h (Option.some_ne_none names).symm
  | some names =>
    rw [checkToolCall]
    by_cases hmem : tool ∈ names
    · rw [if_pos hmem]
      exact iff_of_true rfl fun _ heq => Option.some.inj heq ▸ hmem
    · rw [if_neg hmem]
      exact iff_of_false Bool.false_ne_true fun h => hmem (h names rfl)

theorem start_passed : (i.onToolStart runId tool input now).1 = .passed ↔
    Available i.allowSet tool ∧ ∀ permission, requiredPermission tool = some permission →
      i.permissions.check permission "*" i.identity now = true := by
  rw [onToolStart, ← allowed_iff i.allowPhase]
  cases hallowed : (checkToolCall tool i.allowSet i.allowPhase).allowed with
  | false => exact ⟨nofun, fun h => absurd h.1 Bool.false_ne_true⟩
  | true =>
    simp only [if_true, true_and]
    cases requiredPermission tool with
    | none => exact ⟨fun _ => nofun, fun _ => rfl⟩
    | some permission =>
      simp only [Option.some.injEq, forall_eq']
      cases i.permissions.check permission "*" i.identity now with
      | true => exact ⟨fun _ => rfl, fun _ => rfl⟩
      | false => exact ⟨nofun, nofun⟩

theorem start_masked : (∃ phase, (i.onToolStart runId tool input now).1 = .masked phase) ↔
    ¬ Available i.allowSet tool := by
  rw [onToolStart, ← allowed_iff i.allowPhase]
  cases hallowed : (checkToolCall tool i.allowSet i.allowPhase).allowed with
  | false => exact ⟨fun _ => Bool.false_ne_true, fun _ => ⟨i.allowPhase, rfl⟩⟩
  | true =>
    simp only [if_true, not_true_eq_false, iff_false]
    cases requiredPermission tool with
    | none => exact nofun
    | some permission =>
      simp only
      split <;> exact nofun

theorem start_runs : (i.onToolStart runId tool input now).2.runs =
    if (checkToolCall tool i.allowSet i.allowPhase).allowed then i.runs.set runId (tool, input)
    else i.runs := by
  rw [onToolStart]
  split
  · cases requiredPermission tool with
    | none => rfl
    | some permission =>
      simp only
      split <;> rfl
  · rfl

def names (runId : String) : InterceptorCall → Bool
  | .onToolStart id' _ _ _ | .onToolEnd id' _ | .onToolError id' _ => decide (id' = runId)
  | _ => false

theorem step_run (h : names runId c = false) :
    (step i c).runs.get? runId = i.runs.get? runId := by
  cases c with
  | permission p => rfl
  | setToolAllowSet => rfl
  | onToolStart id' tool' input' now' =>
    change (i.onToolStart id' tool' input' now').2.runs.get? runId = _
    rw [start_runs]
    split
    · exact Dict.get?_set_ne _ (of_decide_eq_false h)
    · rfl
  | onToolEnd id' output =>
    change (i.runs.erase id').get? runId = _
    rw [Dict.get?_erase, if_neg (of_decide_eq_false h)]
  | onToolError id' error =>
    change (i.runs.erase id').get? runId = _
    rw [Dict.get?_erase, if_neg (of_decide_eq_false h)]

theorem run_kept (between : List InterceptorCall) (h : ∀ c ∈ between, names runId c = false) :
    (Run.final step i between).runs.get? runId = i.runs.get? runId := by
  induction between generalizing i with
  | nil => rfl
  | cons c between ih =>
    exact (ih (fun c' hc' => h c' (List.mem_cons_of_mem c hc'))).trans
      (step_run (h c List.mem_cons_self))

def AuditedAs (i : Interceptor) (runId tool input : String) : Prop :=
  ∀ result, (i.onToolEnd runId result).audit = i.audit ++ [.toolCall tool input result]

theorem audited_of_run (h : i.runs.get? runId = some (tool, input)) :
    AuditedAs i runId tool input := by
  intro result
  rw [onToolEnd, h]
  rfl

/-- After every history a tool is masked exactly where the phase set last has no such tool; else it
passes exactly where each permission it needs was granted, to everybody or to the caller, and
stands; and a run that did begin is audited as what it is, whatever else goes on meanwhile. -/
theorem tool_start_exact (identity : Option String) (calls : List InterceptorCall)
    (runId tool input : String) (now : Rat) :
    let i := Run.final step { identity := identity } calls
    let start := i.onToolStart runId tool input now
    ((∃ phase, start.1 = .masked phase) ↔ ¬ Available (gateOf calls).1 tool) ∧
    (start.1 = .passed ↔ Available (gateOf calls).1 tool ∧
      ∀ permission, requiredPermission tool = some permission →
        PermissionManager.Permitted (permissionCalls calls) permission "*" identity now) ∧
    ((∀ phase, start.1 ≠ .masked phase) → ∀ between, (∀ c ∈ between, names runId c = false) →
      AuditedAs (Run.final step start.2 between) runId tool input) := by
  intro i start
  have hforce : InForce identity calls i := inForce identity calls
  have hset : i.allowSet = (gateOf calls).1 := congrArg Prod.fst hforce.gate
  constructor
  · rw [start_masked, hset]
  constructor
  · rw [start_passed, hset, hforce.identity, hforce.permissions]
    simp only [PermissionManager.check_iff_permitted]
  · intro hstarted between hbetween
    have hallowed : Available i.allowSet tool := by
      by_contra hnot
      obtain ⟨phase, hphase⟩ := start_masked.2 hnot
      exact hstarted phase hphase
    apply audited_of_run
    rw [run_kept between hbetween, start_runs, if_pos ((allowed_iff _).2 hallowed)]
    exact Dict.get?_set_self _ _ _

end Interceptor

end Prismal.Security
