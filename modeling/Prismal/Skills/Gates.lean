import Prismal.Lib.Run
import Prismal.Skills.Manager

namespace Prismal.Skills
open Lib
set_option autoImplicit true

variable {τ κ σ : Type}

def Loader.name : Loader → String
  | .scan _ name => name
  | .restore name => name
  | .activate name _ => name

def SkillEvent.loader : SkillEvent σ → Loader
  | .executed loader _ _ => loader
  | .registered loader _ _ => loader

/-- The log grows by events of `ok`, and every skill that becomes active is registered in it. -/
def Logged (ok : SkillEvent σ → Prop) (s s' : SkillsState τ σ) : Prop :=
  ∃ new, s'.log = s.log ++ new ∧ (∀ e ∈ new, ok e) ∧
    ∀ name skill, s'.manager.activeSkills.get? name = some skill →
      s.manager.activeSkills.get? name = some skill ∨
        ∃ loader m, loader.name = name ∧ .registered loader skill m ∈ new

variable {host : SkillHost τ κ σ} {ok : SkillEvent σ → Prop} {s s' t : SkillsState τ σ}

theorem logged_quiet (hlog : s'.log = s.log)
    (hactive : ∀ name skill, s'.manager.activeSkills.get? name = some skill →
      s.manager.activeSkills.get? name = some skill) : Logged ok s s' := by
  refine ⟨[], by rw [hlog, List.append_nil], ?_, fun name skill h => .inl (hactive name skill h)⟩
  intro e he
  cases he

theorem Logged.trans (h : Logged ok s s') (h' : Logged ok s' t) : Logged ok s t := by
  obtain ⟨new, hlog, hok, hactive⟩ := h
  obtain ⟨new', hlog', hok', hactive'⟩ := h'
  refine ⟨new ++ new', by rw [hlog', hlog, List.append_assoc], ?_, ?_⟩
  · intro e he
    cases List.mem_append.1 he with
    | inl h => exact hok e h
    | inr h => exact hok' e h
  · intro name skill hskill
    cases hactive' name skill hskill with
    | inr hnew =>
      obtain ⟨loader, m, hname, hmem⟩ := hnew
      exact .inr ⟨loader, m, hname, List.mem_append_right _ hmem⟩
    | inl hbefore =>
      cases hactive name skill hbefore with
      | inl h => exact .inl h
      | inr hnew =>
        obtain ⟨loader, m, hname, hmem⟩ := hnew
        exact .inr ⟨loader, m, hname, List.mem_append_left _ hmem⟩

instance : Std.Refl (Logged (τ := τ) ok) := ⟨fun _ => logged_quiet rfl fun _ _ h => h⟩

instance : IsTrans (SkillsState τ σ) (Logged ok) := ⟨fun _ _ _ => Logged.trans⟩

/-! The computations that leave the log and the active skills alone. -/

theorem effects_skillCode (code : EStateM SkillError (World τ) α) :
    Effects (Logged ok) (skillCode code : SkillsM τ σ α) := by
  intro s
  rw [skillCode]
  cases code s.world with
  | ok a world => exact logged_quiet rfl fun _ _ h => h
  | error e world => exact logged_quiet rfl fun _ _ h => h

theorem effects_setTree (f : SkillTree → SkillTree) :
    Effects (Logged ok) (setTree f : SkillsM τ σ PUnit) :=
  fun _ => logged_quiet rfl fun _ _ h => h

theorem effects_iterdir (area : Area) : Effects (Logged ok) (iterdir area : SkillsM τ σ _) := by
  apply Effects.get
  intro s
  cases s.world.tree.folder area <;> exact logged_quiet rfl fun _ _ h => h

theorem effects_exceptException {m : SkillsM τ σ α} {handler : SkillError → SkillsM τ σ α}
    (hm : Effects (Logged ok) m) (hhandler : ∀ e, Effects (Logged ok) (handler e)) :
    Effects (Logged ok) (exceptException m handler) := by
  apply Effects.tryCatch hm
  intro e
  cases e.isException with
  | true => exact hhandler e
  | false => exact Effects.throw

theorem effects_ensureSkillPy (area : Area) (name : String) (skillDir : Nat) :
    Effects (Logged ok) (ensureSkillPy host area name skillDir) := by
  apply Effects.get
  intro s
  cases (s.world.tree.dirs skillDir).skillPy.isSome with
  | true => exact Effects.pure s
  | false =>
    cases (s.world.tree.dirs skillDir).skillMd with
    | none => exact Effects.pure s
    | some skillMd =>
      apply Effects.bind (m := generateSkillPy host area name skillDir skillMd)
      · apply Effects.get
        intro s
        cases host.generate (host.dirName area name) skillMd s.world.rest with
        | error e => exact Effects.throw s
        | ok code => exact effects_setTree _ s
      · intro _
        exact Effects.pure

theorem generateSkillPy_ok {u : PUnit}
    (h : generateSkillPy host area name skillDir skillMd s = .ok u t) :
    t.world.tree.resolve = s.world.tree.resolve ∧
      ∀ n, (t.world.tree.dirs n).validatedByHuman = (s.world.tree.dirs n).validatedByHuman := by
  obtain ⟨s₁, s₂, hget, hrest⟩ := bind_ok h
  rw [(get_ok hget).1, (get_ok hget).2] at hrest
  cases hcode : host.generate (host.dirName area name) skillMd s.world.rest with
  | error e =>
    simp only [hcode] at hrest
    cases hrest
  | ok code =>
    simp only [hcode] at hrest
    rw [modify_ok hrest]
    refine ⟨rfl, ?_⟩
    intro n
    by_cases hn : n = skillDir
    · subst hn
      simp [SkillTree.setSkillPy]
    · simp [SkillTree.setSkillPy, Function.update_of_ne hn]

theorem ensureSkillPy_ok {found : Bool}
    (h : ensureSkillPy host area name skillDir s = .ok found t) :
    t.world.tree.resolve = s.world.tree.resolve ∧
      ∀ n, (t.world.tree.dirs n).validatedByHuman = (s.world.tree.dirs n).validatedByHuman := by
  obtain ⟨s₁, s₂, hget, hrest⟩ := bind_ok h
  rw [(get_ok hget).1, (get_ok hget).2] at hrest
  cases hpy : (s.world.tree.dirs skillDir).skillPy.isSome with
  | true =>
    simp only [hpy] at hrest
    obtain ⟨-, rfl⟩ := pure_ok hrest
    exact ⟨rfl, fun _ => rfl⟩
  | false =>
    cases hmd : (s.world.tree.dirs skillDir).skillMd with
    | none =>
      simp only [hpy, hmd] at hrest
      obtain ⟨-, rfl⟩ := pure_ok hrest
      exact ⟨rfl, fun _ => rfl⟩
    | some skillMd =>
      simp only [hpy, hmd] at hrest
      obtain ⟨_, u, hgen, hlast⟩ := bind_ok hrest
      obtain ⟨-, rfl⟩ := pure_ok hlast
      exact generateSkillPy_ok hgen

theorem logged_record {event : SkillEvent σ} (h : ok event) :
    Logged ok s { s with log := s.log ++ [event] } := by
  refine ⟨[event], rfl, ?_, fun _ _ hactive => .inl hactive⟩
  intro e he
  cases List.mem_singleton.1 he
  exact h

theorem logged_loadSkillClass (h : ok (.executed loader skillDir s.world.tree)) :
    Logged ok s (left (loadSkillClass host loader area name skillDir s)) := by
  apply Effects.get_from
  cases (s.world.tree.dirs skillDir).skillPy with
  | none => exact Effects.throw s
  | some code =>
    apply Effects.bind_from (m := record (.executed loader skillDir s.world.tree))
    · exact logged_record h
    · intro _ t _
      apply Effects.bind
      · apply effects_exceptException (effects_skillCode _)
        intro e
        exact Effects.throw
      · intro found
        cases found with
        | none => exact Effects.throw
        | some cls => exact Effects.pure

theorem effects_register (h : ok (.registered loader skill m)) (hname : loader.name = name) :
    Effects (Logged ok) (register loader name skill m : SkillsM τ σ PUnit) := by
  intro s
  refine ⟨[.registered loader skill m], rfl, ?_, ?_⟩
  · intro e he
    cases List.mem_singleton.1 he
    exact h
  · intro name' skill' hactive
    change (s.manager.activeSkills.set name skill).get? name' = some skill' at hactive
    rw [Dict.get?_set] at hactive
    split at hactive
    next heq =>
      cases hactive
      exact .inr ⟨loader, m, hname.trans heq, List.mem_singleton_self _⟩
    next => exact .inl hactive

/-! What each call may run. -/

def MayLoad : SkillCall → Loader → Prop
  | .listSkills _, .scan _ _ => True
  | .construct _, .restore _ => True
  | .activate name confirm, loader => loader = .activate name confirm
  | .reloadAll, .activate _ confirm => confirm = true
  | _, _ => False

/-- A module runs where its loader found it, and an activation runs one that it found under
`custom/` only when that directory holds `validated_by_human.txt`. A skill whose metadata asks for
it is activated with `confirm` only. -/
def Gated (host : SkillHost τ κ σ) : SkillEvent σ → Prop
  | .executed (.scan area name) skillDir tree =>
    area ≠ .active ∧ tree.resolve area name = .dir skillDir
  | .executed (.restore name) skillDir tree => tree.resolve .active name = .dir skillDir
  | .executed (.activate name _) skillDir tree => ∃ externalDirs area,
      findSkillDir host tree externalDirs name = .ok (area, skillDir) ∧
        (area = .custom → (tree.dirs skillDir).validatedByHuman = true)
  | .registered (.scan _ _) _ _ => False
  | .registered (.restore _) _ _ => True
  | .registered (.activate _ confirm) _ m =>
    ∃ read, m = some read ∧ (read.needsConfirm = true → confirm = true)

def Permitted (host : SkillHost τ κ σ) (c : SkillCall) (e : SkillEvent σ) : Prop :=
  MayLoad c e.loader ∧ Gated host e

theorem effects_scanEntry (area : Area) (harea : area ≠ .active) (status : SkillStatus)
    (skipNames : List String) (name : String) :
    Effects (Logged (Permitted host (.listSkills wanted)))
      (scanEntry host area status skipNames name) := by
  intro s
  rw [scanEntry]
  cases hidden name with
  | true => exact Effects.pure s
  | false =>
    apply Effects.get_from
    cases hdir : s.world.tree.resolve area name with
    | missing => exact Effects.pure s
    | file => exact Effects.pure s
    | dir skillDir =>
      cases skipNames.contains name with
      | true => exact Effects.pure s
      | false =>
        apply Effects.tryCatch_from
        · apply Effects.bind_from (effects_ensureSkillPy area name skillDir s)
          intro found t hfound
          cases found with
          | false => exact Effects.pure t
          | true =>
            apply Effects.bind_from
            · apply logged_loadSkillClass
              refine ⟨trivial, harea, ?_⟩
              rw [(ensureSkillPy_ok hfound).1]
              exact hdir
            · intro cls u _
              exact Effects.bind (effects_skillCode _) (fun skill =>
                Effects.bind (effects_skillCode _) fun m => Effects.pure) u
        · intro e
          cases e.isException with
          | true => exact Effects.pure
          | false => exact Effects.throw

theorem effects_scanDir (area : Area) (harea : area ≠ .active) (status : SkillStatus)
    (skipNames : List String) :
    Effects (Logged (Permitted host (.listSkills wanted)))
      (scanDir host area status skipNames) := by
  apply Effects.bind (effects_iterdir area)
  intro names
  induction names with
  | nil => exact Effects.pure
  | cons name rest ih =>
    exact Effects.bind (effects_scanEntry area harea status skipNames name) fun info =>
      Effects.bind ih fun infos => Effects.pure

theorem effects_externalInfos (skipNames paths : List String) :
    Effects (Logged (Permitted host (.listSkills wanted)))
      (externalInfos host skipNames paths) := by
  induction paths with
  | nil => exact Effects.pure
  | cons path rest ih =>
    apply Effects.bind (effects_scanDir (.external path) (by intro h; cases h) _ _)
    intro infos
    exact Effects.bind ih fun more => Effects.pure

theorem effects_activeInfos (skills : List (String × σ)) :
    Effects (Logged ok) (activeInfos host skills) := by
  induction skills with
  | nil => exact Effects.pure
  | cons entry rest ih =>
    exact Effects.bind (effects_skillCode _) fun m => Effects.bind ih fun infos => Effects.pure

theorem effects_listSkills (status : Option SkillStatus) :
    Effects (Logged (Permitted host (.listSkills status))) (listSkills host status) := by
  apply Effects.get
  intro s
  apply Effects.bind (effects_activeInfos _)
  intro active
  apply Effects.bind (effects_scanDir .available (by intro h; cases h) _ _)
  intro available
  apply Effects.bind (effects_scanDir .custom (by intro h; cases h) _ _)
  intro custom
  apply Effects.bind (effects_externalInfos _ _)
  intro external
  exact Effects.pure

theorem effects_linkActive (name : String) (skillDir : Nat) :
    Effects (Logged ok) (linkActive host name skillDir) := by
  apply Effects.get
  intro s
  by_cases hmissing : s.world.tree.resolve .active name = .missing
  · rw [if_pos hmissing]
    cases isComponent name with
    | false => exact effects_skillCode _ s
    | true =>
      cases s.world.tree.folder .active with
      | missing => exact Effects.throw s
      | file => exact Effects.throw s
      | dir entries =>
        by_cases hlisted : (entries.any fun e => decide (e.name = name)) = true
        · simp only [hlisted, if_true]
          exact Effects.throw s
        · simp only [hlisted, if_true]
          exact logged_quiet rfl fun _ _ h => h
  · rw [if_neg hmissing]
    exact Effects.pure s

theorem logged_activateDir (hload : MayLoad c (.activate name confirm))
    (hfound : findSkillDir host s.world.tree externalDirs name = .ok (area, skillDir))
    (hreviewed : area = .custom → (s.world.tree.dirs skillDir).validatedByHuman = true) :
    Logged (Permitted host c) s (left (activateDir host name confirm area skillDir s)) := by
  apply Effects.bind_from
  · apply Effects.tryCatch_from
    · apply Effects.bind_from
      · apply logged_loadSkillClass
        exact ⟨hload, externalDirs, area, hfound, hreviewed⟩
      · intro cls t _
        exact effects_skillCode _ t
    · intro e
      cases e.isException with
      | false => exact Effects.throw
      | true => cases e <;> exact Effects.throw
  · intro skill t _
    apply Effects.bind (effects_skillCode _)
    intro m
    cases hconfirm : m.needsConfirm && !confirm with
    | true => exact Effects.throw
    | false =>
      apply Effects.bind (effects_skillCode _)
      intro valid
      cases valid with
      | false => exact Effects.throw
      | true =>
        apply Effects.bind (effects_skillCode _)
        intro _
        apply Effects.bind (effects_linkActive _ _)
        intro _
        apply effects_register _ rfl
        refine ⟨hload, m, rfl, ?_⟩
        intro hneeds
        rw [hneeds] at hconfirm
        cases confirm with
        | true => rfl
        | false => cases hconfirm

theorem externalDir_congr {tree tree' : SkillTree} (h : tree'.resolve = tree.resolve)
    (name : String) (paths : List String) :
    externalDir tree' name paths = externalDir tree name paths := by
  induction paths with
  | nil => rfl
  | cons path rest ih => rw [externalDir, externalDir, h, ih]

theorem findSkillDir_congr {tree tree' : SkillTree} (h : tree'.resolve = tree.resolve)
    (externalDirs : List String) (name : String) :
    findSkillDir host tree' externalDirs name = findSkillDir host tree externalDirs name := by
  rw [findSkillDir, findSkillDir, h, externalDir_congr h]

theorem effects_activate (hload : MayLoad c (.activate name confirm)) :
    Effects (Logged (Permitted host c)) (activate host name confirm) := by
  apply Effects.get
  intro s
  by_cases hactive : s.manager.activeSkills.keys.contains name = true
  · rw [if_pos hactive]
    exact Effects.pure s
  · rw [if_neg hactive]
    cases hfind : findSkillDir host s.world.tree s.manager.externalDirs name with
    | error e => exact Effects.throw s
    | ok found =>
      obtain ⟨area, skillDir⟩ := found
      apply Effects.bind_from (effects_ensureSkillPy area name skillDir s)
      intro ready t hready
      cases ready with
      | false => exact Effects.throw t
      | true =>
        apply Effects.get_from
        by_cases hgate :
            (decide (area = .custom) && !(t.world.tree.dirs skillDir).validatedByHuman) = true
        · rw [if_pos hgate]
          exact Effects.throw t
        · rw [if_neg hgate]
          apply logged_activateDir hload
          · rw [findSkillDir_congr (ensureSkillPy_ok hready).1]
            exact hfind
          · intro hcustom
            simpa [hcustom] using hgate

theorem effects_unlinkActive (name : String) : Effects (Logged ok) (unlinkActive host name) := by
  apply Effects.get
  intro s
  cases isComponent name with
  | false => exact effects_skillCode _ s
  | true =>
    cases s.world.tree.folder .active with
    | missing => exact Effects.pure s
    | file => exact Effects.pure s
    | dir entries => exact logged_quiet rfl fun _ _ h => h

theorem effects_deactivate (name : String) : Effects (Logged ok) (deactivate host name) := by
  apply Effects.get
  intro s
  cases s.manager.activeSkills.get? name with
  | none => exact effects_unlinkActive name s
  | some skill =>
    apply Effects.bind_from
    · exact logged_quiet rfl fun name' skill' h => Dict.get?_of_get?_erase h
    · intro _ t _
      exact Effects.bind (effects_exceptException (effects_skillCode _) fun e => Effects.pure)
        (fun _ => effects_unlinkActive name) t

theorem effects_collectTools (skills : List σ) (tools : List Tool) :
    Effects (Logged ok) (collectTools host skills tools) := by
  induction skills generalizing tools with
  | nil => exact Effects.pure
  | cons skill rest ih =>
    apply Effects.bind
    · apply effects_exceptException
      · exact Effects.bind (effects_skillCode _) fun more => Effects.pure
      · intro e
        exact Effects.bind (effects_skillCode _) fun m => Effects.pure
    · exact ih

theorem effects_reloadAll : Effects (Logged (Permitted host .reloadAll)) (reloadAll host) := by
  apply Effects.bind (effects_iterdir .active)
  intro names
  apply Effects.get
  intro s
  apply Effects.bind (Effects.forM effects_deactivate) _ s
  intro _
  apply Effects.forM
  intro name
  have hload : MayLoad .reloadAll (.activate name true) := rfl
  apply effects_exceptException (effects_activate hload)
  intro e
  exact Effects.pure

theorem effects_restoreEntry (name : String) :
    Effects (Logged (Permitted host (.construct externalDirs))) (restoreEntry host name) := by
  intro s
  rw [restoreEntry]
  cases hidden name with
  | true => exact Effects.pure s
  | false =>
    apply Effects.get_from
    cases hdir : s.world.tree.resolve .active name with
    | missing => exact Effects.pure s
    | file => exact Effects.pure s
    | dir skillDir =>
      apply Effects.tryCatch_from
      · apply Effects.bind_from (effects_ensureSkillPy .active name skillDir s)
        intro found t hfound
        cases found with
        | false => exact Effects.pure t
        | true =>
          apply Effects.bind_from
          · apply logged_loadSkillClass
            refine ⟨trivial, ?_⟩
            change t.world.tree.resolve .active name = .dir skillDir
            rw [(ensureSkillPy_ok hfound).1]
            exact hdir
          · intro cls u _
            exact Effects.bind (effects_skillCode _) (fun skill =>
              effects_register ⟨trivial, trivial⟩ rfl) u
      · intro e
        cases e.isException with
        | true => exact Effects.pure
        | false => exact Effects.throw

theorem effects_restoreActiveSkills :
    Effects (Logged (Permitted host (.construct externalDirs))) (restoreActiveSkills host) := by
  apply Effects.bind (effects_iterdir .active)
  intro names
  exact Effects.forM effects_restoreEntry

def started : SkillCall → Manager σ → Manager σ
  | .construct externalDirs, _ => ⟨externalDirs, ∅⟩
  | _, manager => manager

theorem logged_perform (host : SkillHost τ κ σ) (c : SkillCall) (s : SkillsState τ σ) :
    Logged (Permitted host c) { s with manager := started c s.manager }
      (left (perform host c s)) := by
  cases c with
  | construct externalDirs =>
    exact effects_restoreActiveSkills { s with manager := ⟨externalDirs, ∅⟩ }
  | listSkills status => exact Effects.bind (effects_listSkills status) (fun _ => Effects.pure) s
  | activate name confirm =>
    have hload : MayLoad (.activate name confirm) (.activate name confirm) := rfl
    exact effects_activate hload s
  | deactivate name => exact effects_deactivate name s
  | getActiveTools =>
    apply Effects.bind (effects_collectTools _ _) _ s
    intro _
    exact Effects.pure
  | reloadAll => exact effects_reloadAll s

/-! Sessions. -/

def Session.start (world : World τ) : Session τ σ := ⟨world, fun _ => ⟨[], ∅⟩, []⟩

def LoadsAsCalled (host : SkillHost τ κ σ) (s : Session τ σ) : Action τ → Prop
  | .change _ => True
  | .call manager c => ∃ new, (s.step host (.call manager c)).log = s.log ++ new ∧
      ∀ e ∈ new, MayLoad c e.loader

/-- What has run was gated, and what is active was registered. -/
structure GatedSession (host : SkillHost τ κ σ) (s : Session τ σ) : Prop where
  gated : ∀ e ∈ s.log, Gated host e
  registered : ∀ manager name skill,
    (s.managers manager).activeSkills.get? name = some skill →
      ∃ loader m, loader.name = name ∧ .registered loader skill m ∈ s.log

theorem gatedSession_start (world : World τ) : GatedSession host (.start world) := by
  refine ⟨?_, ?_⟩
  · intro e he
    cases he
  · intro manager name skill h
    cases h

theorem loadsAsCalled (s : Session τ σ) (act : Action τ) : LoadsAsCalled host s act := by
  cases act with
  | change world => trivial
  | call manager c =>
    obtain ⟨new, hlog, hok, -⟩ := logged_perform host c ⟨s.world, s.managers manager, s.log⟩
    exact ⟨new, hlog, fun e he => (hok e he).1⟩

theorem managers_step (s : Session τ σ) (manager : Nat) (c : SkillCall) :
    (s.step host (.call manager c)).managers = s.managers ∨
      (s.step host (.call manager c)).managers =
        Function.update s.managers manager (left (s.call host manager c)).manager := by
  rw [Session.step]
  split
  next => exact .inl rfl
  next => exact .inr rfl

theorem active_of_started (c : SkillCall) {manager : Manager σ}
    (h : (started c manager).activeSkills.get? name = some skill) :
    manager.activeSkills.get? name = some skill := by
  cases c with
  | construct externalDirs => cases h
  | listSkills status => exact h
  | activate name confirm => exact h
  | deactivate name => exact h
  | getActiveTools => exact h
  | reloadAll => exact h

theorem active_step {s : Session τ σ} {c : SkillCall} {new : List (SkillEvent σ)}
    (hactive : ∀ name skill,
      (left (s.call host manager c)).manager.activeSkills.get? name = some skill →
        (started c (s.managers manager)).activeSkills.get? name = some skill ∨
          ∃ loader m, loader.name = name ∧ .registered loader skill m ∈ new)
    (h : ((s.step host (.call manager c)).managers other).activeSkills.get? name = some skill) :
    (s.managers other).activeSkills.get? name = some skill ∨
      ∃ loader m, loader.name = name ∧ .registered loader skill m ∈ new := by
  cases managers_step s manager c with
  | inl hsame =>
    rw [hsame] at h
    exact .inl h
  | inr hupdate =>
    rw [hupdate] at h
    by_cases hother : other = manager
    · subst hother
      rw [Function.update_self] at h
      exact (hactive name skill h).imp_left (active_of_started c)
    · rw [Function.update_of_ne hother] at h
      exact .inl h

theorem GatedSession.step {s : Session τ σ} (h : GatedSession host s) (act : Action τ) :
    GatedSession host (s.step host act) := by
  cases act with
  | change world => exact ⟨h.gated, h.registered⟩
  | call manager c =>
    obtain ⟨new, hlog, hok, hactive⟩ := logged_perform host c ⟨s.world, s.managers manager, s.log⟩
    have hlog' : (s.step host (.call manager c)).log = s.log ++ new := hlog
    refine ⟨?_, ?_⟩
    · intro e he
      rw [hlog'] at he
      cases List.mem_append.1 he with
      | inl h' => exact h.gated e h'
      | inr h' => exact (hok e h').2
    · intro other name skill hskill
      rw [hlog']
      cases active_step hactive hskill with
      | inl hbefore =>
        obtain ⟨loader, m, hname, hmem⟩ := h.registered other name skill hbefore
        exact ⟨loader, m, hname, List.mem_append_left _ hmem⟩
      | inr hnew =>
        obtain ⟨loader, m, hname, hmem⟩ := hnew
        exact ⟨loader, m, hname, List.mem_append_right _ hmem⟩

/-- In every session an activation runs a module that it finds under `custom/` only when
`validated_by_human.txt` is there; `deactivate` and `get_active_tools` run none. What is active
was restored by a constructor, or activated with `confirm` where its metadata asks for it. -/
theorem session_gated (host : SkillHost τ κ σ) (world : World τ) (acts : List (Action τ)) :
    Run.Along (Session.step host) (fun s act _ => LoadsAsCalled host s act) (.start world) acts ∧
      GatedSession host (Run.final (Session.step host) (.start world) acts) := by
  refine ⟨?_, ?_⟩
  · exact Run.along_of_invariant (I := fun _ => True) trivial
      (fun s act _ _ => ⟨loadsAsCalled s act, trivial⟩) acts
  · exact Run.final_of_invariant (gatedSession_start world) (fun s act h => h.step act) acts

/-- A module that is run is reviewed if it lies under `custom/`. -/
def Reviewed : SkillEvent σ → Prop
  | .executed _ skillDir tree => (∃ name, tree.resolve .custom name = .dir skillDir) →
    (tree.dirs skillDir).validatedByHuman = true
  | .registered _ _ _ => True

def Confirmed : SkillEvent σ → Prop
  | .executed _ _ _ => True
  | .registered loader _ _ => ∃ name, loader = .activate name true

def cautiousMetadata : SkillMetadata := ⟨"fresh", "A skill", "1.0.0", "me", ["shell"], false⟩

def plainHost : SkillHost Unit Unit Unit where
  generate _ _ _ := .ok "generated"
  execModule _ _ := pure (some ())
  new _ := pure ()
  metadata _ := pure cautiousMetadata
  validate _ := pure true
  initializeSkill _ := pure ()
  teardown _ := pure ()
  getTools _ := pure []
  linkElsewhere _ _ := pure ()
  unlinkElsewhere _ := pure ()
  path _ name := name
  dirName _ name := name
  repr text := text

/-- One skill under `custom/` that nobody has reviewed. -/
def freshTree (active : Folder) : SkillTree where
  folder area := match area with
    | .custom => .dir [⟨"fresh", false, .dir 0⟩]
    | .active => active
    | _ => .missing
  elsewhere _ _ := .missing
  dirs _ := ⟨some "class Fresh(BaseSkill): ...", none, false⟩

def freshLink : Folder := .dir [⟨"fresh", true, .dir 0⟩]

theorem iterdir_one {s : SkillsState τ σ} (h : s.world.tree.folder area = .dir [e]) :
    (iterdir area : SkillsM τ σ _) s = .ok [e.name] s := by
  have hsorted : (sortBy (fun e : Entry => e.name) [e]).map (fun e => e.name) = [e.name] := by
    rw [sortBy_singleton]
    rfl
  rw [← hsorted]
  apply (bind_of_ok (show (get : SkillsM τ σ _) s = .ok s s from rfl)).trans
  rw [h]
  rfl


/-- A manager that has just been made, before it restores what `active` holds. -/
def freshState (active : Folder) : SkillsState Unit Unit := ⟨⟨freshTree active, ()⟩, ⟨[], ∅⟩, []⟩

theorem construct_fresh :
    construct plainHost [] (freshState freshLink) =
      .ok ⟨⟩ { freshState freshLink with
        manager := ⟨[], (∅ : Dict String Unit).set "fresh" ()⟩
        log := [.executed (.restore "fresh") 0 (freshTree freshLink),
          .registered (.restore "fresh") () none] } := by
  have hnames : (iterdir .active : SkillsM Unit Unit _) (freshState freshLink) =
      .ok ["fresh"] (freshState freshLink) := iterdir_one (e := ⟨"fresh", true, .dir 0⟩) rfl
  change restoreActiveSkills plainHost (freshState freshLink) = _
  rw [restoreActiveSkills, bind_of_ok hnames]
  rfl

theorem step_fresh :
    Run.final (Session.step plainHost) (.start ⟨freshTree freshLink, ()⟩)
      [.call 0 (.construct [])] =
        ⟨⟨freshTree freshLink, ()⟩,
          Function.update (fun _ => ⟨[], ∅⟩) 0 ⟨[], (∅ : Dict String Unit).set "fresh" ()⟩,
          [.executed (.restore "fresh") 0 (freshTree freshLink),
            .registered (.restore "fresh") () none]⟩ := by
  have hcall : (Session.start ⟨freshTree freshLink, ()⟩).call plainHost 0 (.construct []) = _ :=
    construct_fresh
  rw [Run.final_singleton, Session.step, hcall]
  rfl

theorem log_listed :
    (left (listSkills plainHost none (freshState .missing))).log =
      [.executed (.scan .custom "fresh") 0 (freshTree .missing)] := by
  have hactive : activeInfos plainHost
      (sortBy Prod.fst (freshState .missing).manager.activeSkills.entries) (freshState .missing) =
        .ok [] (freshState .missing) := by
    rw [show sortBy Prod.fst (freshState .missing).manager.activeSkills.entries = [] from
      List.mergeSort_nil]
    rfl
  have havailable : scanDir plainHost .available .available
      (freshState .missing).manager.activeSkills.keys (freshState .missing) =
        .ok [] (freshState .missing) := rfl
  have hnames : (iterdir .custom : SkillsM Unit Unit _) (freshState .missing) =
      .ok ["fresh"] (freshState .missing) := iterdir_one (e := ⟨"fresh", false, .dir 0⟩) rfl
  have hcustom : scanDir plainHost .custom .custom
      (freshState .missing).manager.activeSkills.keys (freshState .missing) =
        .ok [cautiousMetadata.info .custom] { freshState .missing with
          log := [.executed (.scan .custom "fresh") 0 (freshTree .missing)] } := by
    rw [scanDir, bind_of_ok hnames]
    rfl
  have hget : (get : SkillsM Unit Unit _) (freshState .missing) =
      .ok (freshState .missing) (freshState .missing) := rfl
  rw [listSkills, bind_of_ok hget, bind_of_ok hactive, bind_of_ok havailable, bind_of_ok hcustom]
  rfl

/-- Listing the skills runs an unreviewed module. Construction runs one too, and makes a skill
active that nobody has confirmed. -/
theorem unreviewed_runs :
    (∃ e ∈ (Run.final (Session.step plainHost) (.start ⟨freshTree .missing, ()⟩)
      [.call 0 (.construct []), .call 0 (.listSkills none)]).log, ¬ Reviewed e) ∧
    (∃ e ∈ (Run.final (Session.step plainHost) (.start ⟨freshTree freshLink, ()⟩)
      [.call 0 (.construct [])]).log, ¬ Reviewed e) ∧
    (∃ e ∈ (Run.final (Session.step plainHost) (.start ⟨freshTree freshLink, ()⟩)
      [.call 0 (.construct [])]).log, ¬ Confirmed e) ∧
    ((Run.final (Session.step plainHost) (.start ⟨freshTree freshLink, ()⟩)
      [.call 0 (.construct [])]).managers 0).activeSkills.get? "fresh" = some () ∧
    (∀ world, plainHost.metadata () world = .ok cautiousMetadata world) ∧
    cautiousMetadata.needsConfirm = true := by
  have hunreviewed : ∀ loader active,
      ¬ Reviewed (.executed loader 0 (freshTree active) : SkillEvent Unit) := by
    intro loader active h
    cases h ⟨"fresh", rfl⟩
  have hlisted : (Run.final (Session.step plainHost) (.start ⟨freshTree .missing, ()⟩)
      [.call 0 (.construct []), .call 0 (.listSkills none)]).log =
        [.executed (.scan .custom "fresh") 0 (freshTree .missing)] := by
    rw [← log_listed, ← (left_map (f := fun _ => PUnit.unit) _).1]
    rfl
  refine ⟨?_, ?_, ?_, ?_, fun _ => rfl, rfl⟩
  · rw [hlisted]
    exact ⟨_, List.mem_singleton_self _, hunreviewed _ _⟩
  · rw [step_fresh]
    exact ⟨_, List.mem_cons_self, hunreviewed _ _⟩
  · rw [step_fresh]
    refine ⟨_, List.mem_cons_of_mem _ List.mem_cons_self, ?_⟩
    intro h
    obtain ⟨name, hname⟩ := h
    cases hname
  · rw [step_fresh]
    rfl

end Prismal.Skills
