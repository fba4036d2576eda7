import Mathlib.Data.String.Basic
import Prismal.Lib.Dict
import Prismal.Lib.State
import Prismal.Lib.SortBy

namespace Prismal.Skills
open Lib
set_option autoImplicit true

inductive SkillStatus
  | active | available | custom | external | error
  deriving DecidableEq, Repr

structure SkillMetadata where
  name : String
  description : String
  version : String
  author : String
  requiresPermissions : List String
  safeToAutoActivate : Bool
  deriving DecidableEq, Repr

structure SkillInfo where
  name : String
  status : SkillStatus
  version : String
  description : String
  author : String
  safeToAutoActivate : Bool
  requiresPermissions : List String
  errorMessage : Option String
  deriving DecidableEq, Repr

structure Tool where
  name : String
  deriving DecidableEq, Repr

inductive SkillError
  | load (skillName reason : String)
  | validation (skillName : String) (violations : List String)
  | other (text : String)
  /-- Raised past every `except Exception`. -/
  | exit (text : String)
  deriving DecidableEq, Repr

def SkillError.isException : SkillError → Bool
  | .exit _ => false
  | _ => true

def SkillError.str : SkillError → String
  | .load skillName reason => s!"Failed to load skill '{skillName}': {reason}"
  | .validation skillName violations =>
    let joined := "; ".intercalate violations
    s!"Skill '{skillName}' failed validation with {violations.length} violation(s): {joined}"
  | .other text => text
  | .exit text => text

/-! The skills tree on disk. A skill directory is a number, whatever paths lead to it. -/

/-- What a path leads to when its links are followed. -/
inductive Node
  | missing
  | file
  | dir (skillDir : Nat)
  deriving DecidableEq, Repr

structure Entry where
  name : String
  symlink : Bool
  target : Node
  deriving DecidableEq, Repr

inductive Folder
  | missing
  | file
  | dir (entries : List Entry)
  deriving DecidableEq, Repr

inductive Area
  | available
  | custom
  | active
  | external (path : String)
  deriving DecidableEq, Repr

/-- What the manager looks at in a skill directory. -/
structure SkillDir where
  skillPy : Option String
  skillMd : Option String
  validatedByHuman : Bool
  deriving DecidableEq, Repr

/-- `elsewhere` is where a name leads that is not the name of an entry, such as `../x`. -/
structure SkillTree where
  folder : Area → Folder
  elsewhere : Area → String → Node
  dirs : Nat → SkillDir

def isComponent (name : String) : Bool :=
  name != "" && name != "." && name != ".." && !name.toList.contains '/'

namespace SkillTree

def entries (tree : SkillTree) (area : Area) : List Entry :=
  match tree.folder area with
  | .dir entries => entries
  | _ => []

/-- The path `area / name`. -/
def resolve (tree : SkillTree) (area : Area) (name : String) : Node :=
  if isComponent name then
    match (tree.entries area).find? fun e => e.name = name with
    | some entry => entry.target
    | none => .missing
  else tree.elsewhere area name

def setFolder (tree : SkillTree) (area : Area) (entries : List Entry) : SkillTree :=
  { tree with folder := Function.update tree.folder area (.dir entries) }

def setSkillPy (tree : SkillTree) (skillDir : Nat) (code : String) : SkillTree :=
  { tree with
    dirs := Function.update tree.dirs skillDir
      { tree.dirs skillDir with skillPy := some code } }

end SkillTree

/-- The files, and everything else that the code of a skill reads and changes. -/
structure World (τ : Type) where
  tree : SkillTree
  rest : τ

/-- What is not the manager's own code: the code of the skills, with its classes `κ` and skill
objects `σ`, and how paths are written. -/
structure SkillHost (τ κ σ : Type) where
  generate : String → String → τ → Except SkillError String
  /-- Runs a module; the answer is the first `BaseSkill` subclass it defines. -/
  execModule : Nat → String → EStateM SkillError (World τ) (Option κ)
  new : κ → EStateM SkillError (World τ) σ
  metadata : σ → EStateM SkillError (World τ) SkillMetadata
  validate : σ → EStateM SkillError (World τ) Bool
  initializeSkill : σ → EStateM SkillError (World τ) PUnit
  teardown : σ → EStateM SkillError (World τ) PUnit
  getTools : σ → EStateM SkillError (World τ) (List Tool)
  linkElsewhere : String → Nat → EStateM SkillError (World τ) PUnit
  unlinkElsewhere : String → EStateM SkillError (World τ) PUnit
  path : Area → String → String
  dirName : Area → String → String
  repr : String → String

structure Manager (σ : Type) where
  externalDirs : List String
  activeSkills : Dict String σ

inductive Loader
  | scan (area : Area) (name : String)
  | restore (name : String)
  | activate (name : String) (confirm : Bool)
  deriving DecidableEq, Repr

/-- `executed`: the `skill.py` of a directory runs, in the tree of that moment. `registered`: a
skill becomes active; an activation has read its metadata before. -/
inductive SkillEvent (σ : Type)
  | executed (loader : Loader) (skillDir : Nat) (tree : SkillTree)
  | registered (loader : Loader) (skill : σ) (metadata : Option SkillMetadata)

structure SkillsState (τ σ : Type) where
  world : World τ
  manager : Manager σ
  log : List (SkillEvent σ)

abbrev SkillsM (τ σ : Type) := EStateM SkillError (SkillsState τ σ)

variable {τ κ σ : Type}

def onWorld (s : SkillsState τ σ) : EStateM.Result SkillError (World τ) α →
    EStateM.Result SkillError (SkillsState τ σ) α
  | .ok a world => .ok a { s with world }
  | .error e world => .error e { s with world }

def skillCode (code : EStateM SkillError (World τ) α) : SkillsM τ σ α :=
  fun s => onWorld s (code s.world)

def record (event : SkillEvent σ) : SkillsM τ σ PUnit :=
  modify fun s => { s with log := s.log ++ [event] }

def setTree (f : SkillTree → SkillTree) : SkillsM τ σ PUnit :=
  modify fun s => { s with world := { s.world with tree := f s.world.tree } }

/-- `except Exception`. -/
def exceptException (m : SkillsM τ σ α) (handler : SkillError → SkillsM τ σ α) : SkillsM τ σ α :=
  tryCatch m fun e => if e.isException then handler e else throw e

def hidden (name : String) : Bool :=
  match name.toList with
  | '.' :: _ => true
  | '_' :: _ => true
  | _ => false

variable (host : SkillHost τ κ σ)

def generateSkillPy (area : Area) (name : String) (skillDir : Nat) (skillMd : String) :
    SkillsM τ σ PUnit := do
  let s ← get
  match host.generate (host.dirName area name) skillMd s.world.rest with
  | .ok code => setTree fun tree => tree.setSkillPy skillDir code
  | .error e => throw e

/-- There is a `skill.py`, if need be one made from `skill.md`. -/
def ensureSkillPy (area : Area) (name : String) (skillDir : Nat) : SkillsM τ σ Bool := do
  let s ← get
  let files := s.world.tree.dirs skillDir
  if files.skillPy.isSome then return true
  match files.skillMd with
  | none => return false
  | some skillMd =>
    generateSkillPy host area name skillDir skillMd
    return true

def executingError (skillName text : String) : SkillError :=
  .load skillName s!"Error executing module: {text}"

def loadSkillClass (loader : Loader) (area : Area) (name : String) (skillDir : Nat) :
    SkillsM τ σ κ := do
  let s ← get
  let skillName := host.dirName area name
  let skillPath := host.path area name
  match (s.world.tree.dirs skillDir).skillPy with
  | none =>
    throw (executingError skillName s!"[Errno 2] No such file or directory: '{skillPath}/skill.py'")
  | some code =>
    record (.executed loader skillDir s.world.tree)
    let found ← exceptException (skillCode (host.execModule skillDir code)) fun e =>
      throw (executingError skillName e.str)
    match found with
    | some cls => return cls
    | none => throw (.load skillName "No BaseSkill subclass found in skill.py")

def SkillMetadata.info (m : SkillMetadata) (status : SkillStatus) : SkillInfo where
  name := m.name
  status := status
  version := m.version
  description := m.description
  author := m.author
  safeToAutoActivate := m.safeToAutoActivate
  requiresPermissions := m.requiresPermissions
  errorMessage := none

def errorInfo (name : String) (e : SkillError) : SkillInfo where
  name := name
  status := .error
  version := "?"
  description := ""
  author := "?"
  safeToAutoActivate := false
  requiresPermissions := []
  errorMessage := some e.str

def scanEntry (area : Area) (status : SkillStatus) (skipNames : List String) (name : String) :
    SkillsM τ σ (Option SkillInfo) := do
  if hidden name then return none
  let s ← get
  match s.world.tree.resolve area name with
  | .dir skillDir =>
    if skipNames.contains name then return none
    exceptException
      (do
        if ← ensureSkillPy host area name skillDir then
          let cls ← loadSkillClass host (.scan area name) area name skillDir
          let skill ← skillCode (host.new cls)
          let m ← skillCode (host.metadata skill)
          return some (m.info status)
        else return none)
      fun e => return some (errorInfo name e)
  | _ => return none

def scanEntries (area : Area) (status : SkillStatus) (skipNames : List String) :
    List String → SkillsM τ σ (List SkillInfo)
  | [] => return []
  | name :: rest => do
    let info ← scanEntry host area status skipNames name
    let infos ← scanEntries area status skipNames rest
    return info.toList ++ infos

/-- `sorted(directory.iterdir())`, the paths by their names. -/
def iterdir (area : Area) : SkillsM τ σ (List String) := do
  let s ← get
  match s.world.tree.folder area with
  | .missing => return []
  | .file => throw (.other "NotADirectoryError")
  | .dir entries => return (sortBy (fun e => e.name) entries).map fun e => e.name

def scanDir (area : Area) (status : SkillStatus) (skipNames : List String) :
    SkillsM τ σ (List SkillInfo) := do
  let names ← iterdir area
  scanEntries host area status skipNames names

def activeInfos : List (String × σ) → SkillsM τ σ (List SkillInfo)
  | [] => return []
  | (_, skill) :: rest => do
    let m ← skillCode (host.metadata skill)
    let infos ← activeInfos rest
    return m.info .active :: infos

def externalInfos (skipNames : List String) : List String → SkillsM τ σ (List SkillInfo)
  | [] => return []
  | path :: rest => do
    let infos ← scanDir host (.external path) .external skipNames
    let more ← externalInfos skipNames rest
    return infos ++ more

def listSkills (status : Option SkillStatus) : SkillsM τ σ (List SkillInfo) := do
  let s ← get
  let active ← activeInfos host (sortBy Prod.fst s.manager.activeSkills.entries)
  let activeNames := s.manager.activeSkills.keys
  let available ← scanDir host .available .available activeNames
  let custom ← scanDir host .custom .custom activeNames
  let external ← externalInfos host activeNames s.manager.externalDirs
  let infos := active ++ available ++ custom ++ external
  let kept := match status with
    | some status => infos.filter fun i => i.status = status
    | none => infos
  return sortBy (fun i => i.name) kept

def externalDir (tree : SkillTree) (name : String) : List String → Option (Area × Nat)
  | [] => none
  | path :: rest =>
    match tree.resolve (.external path) name with
    | .dir skillDir => some (.external path, skillDir)
    | _ => externalDir tree name rest

def pyList (repr : String → String) (texts : List String) : String :=
  "[" ++ ", ".intercalate (texts.map repr) ++ "]"

def findSkillDir (tree : SkillTree) (externalDirs : List String) (name : String) :
    Except SkillError (Area × Nat) :=
  match tree.resolve .available name with
  | .dir skillDir => .ok (.available, skillDir)
  | _ =>
    match tree.resolve .custom name with
    | .dir skillDir => .ok (.custom, skillDir)
    | _ =>
      match externalDir tree name externalDirs with
      | some found => .ok found
      | none =>
        let dirs := pyList host.repr externalDirs
        .error (.load name s!"Not found in available/, custom/, or external dirs: {dirs}")

def reviewMissing : String :=
  "Custom skills require 'validated_by_human.txt' before activation. Review the generated code " ++
    "and rename 'human_review_required.txt' to 'validated_by_human.txt'."

def confirmMissing (name : String) : String :=
  s!"Skill '{name}' requires explicit confirmation (safe_to_auto_activate=False or " ++
    "requires_permissions set). Pass confirm=True to activate."

def SkillMetadata.needsConfirm (m : SkillMetadata) : Bool :=
  !m.requiresPermissions.isEmpty || !m.safeToAutoActivate

def linkActive (name : String) (skillDir : Nat) : SkillsM τ σ PUnit := do
  let s ← get
  let tree := s.world.tree
  if tree.resolve .active name = .missing then
    if isComponent name then
      match tree.folder .active with
      | .missing => throw (.other "FileNotFoundError")
      | .file => throw (.other "NotADirectoryError")
      | .dir entries =>
        if entries.any fun e => e.name = name then throw (.other "FileExistsError")
        else setTree fun tree => tree.setFolder .active (entries ++ [⟨name, true, .dir skillDir⟩])
    else skillCode (host.linkElsewhere name skillDir)

def register (loader : Loader) (name : String) (skill : σ) (m : Option SkillMetadata) :
    SkillsM τ σ PUnit := do
  record (.registered loader skill m)
  modify fun s =>
    { s with manager := { s.manager with activeSkills := s.manager.activeSkills.set name skill } }

def activateDir (name : String) (confirm : Bool) (area : Area) (skillDir : Nat) :
    SkillsM τ σ PUnit := do
  let loader := Loader.activate name confirm
  let skill ← exceptException
    (do
      let cls ← loadSkillClass host loader area name skillDir
      skillCode (host.new cls))
    fun e => match e with
      | .load _ _ => throw e
      | _ => throw (.load name e.str)
  let m ← skillCode (host.metadata skill)
  if m.needsConfirm && !confirm then throw (.validation name [confirmMissing name])
  if !(← skillCode (host.validate skill)) then
    throw (.validation name [s!"Skill '{name}' failed its own validate() check."])
  skillCode (host.initializeSkill skill)
  linkActive host name skillDir
  register loader name skill (some m)

def activate (name : String) (confirm : Bool) : SkillsM τ σ PUnit := do
  let s ← get
  if s.manager.activeSkills.keys.contains name then return
  match findSkillDir host s.world.tree s.manager.externalDirs name with
  | .error e => throw e
  | .ok (area, skillDir) =>
    let skillPath := host.path area name
    if !(← ensureSkillPy host area name skillDir) then
      throw (.load name s!"skill.py not found in {skillPath}")
    if area = .custom && !((← get).world.tree.dirs skillDir).validatedByHuman then
      throw (.validation name [reviewMissing])
    activateDir host name confirm area skillDir

def unlinkActive (name : String) : SkillsM τ σ PUnit := do
  let s ← get
  if isComponent name then
    match s.world.tree.folder .active with
    | .dir entries =>
      setTree fun tree =>
        tree.setFolder .active (entries.filter fun e => !(e.name = name && e.symlink))
    | _ => return
  else skillCode (host.unlinkElsewhere name)

def deactivate (name : String) : SkillsM τ σ PUnit := do
  let s ← get
  match s.manager.activeSkills.get? name with
  | some skill =>
    modify fun s =>
      { s with manager := { s.manager with activeSkills := s.manager.activeSkills.erase name } }
    exceptException (skillCode (host.teardown skill)) fun _ => pure ()
  | none => pure ()
  unlinkActive host name

def addTool (tools : List Tool) (tool : Tool) : List Tool :=
  if tools.any fun t => t.name = tool.name then tools else tools ++ [tool]

def collectTools : List σ → List Tool → SkillsM τ σ (List Tool)
  | [], tools => return tools
  | skill :: rest, tools => do
    let tools' ← exceptException
      (do
        let more ← skillCode (host.getTools skill)
        return more.foldl addTool tools)
      fun _ => do
        -- the log line of the error reads the name of the skill
        let _ ← skillCode (host.metadata skill)
        return tools
    collectTools rest tools'

def getActiveTools : SkillsM τ σ (List Tool) := do
  let s ← get
  collectTools host s.manager.activeSkills.values []

/-- The names under `active/` that are not hidden and lead to a directory. -/
def linkedNames (tree : SkillTree) (names : List String) : List String :=
  names.filter fun name => !hidden name && match tree.resolve .active name with
    | .dir _ => true
    | _ => false

def reloadAll : SkillsM τ σ PUnit := do
  let names ← iterdir .active
  let s ← get
  s.manager.activeSkills.keys.forM fun name => deactivate host name
  (linkedNames s.world.tree names).forM fun name =>
    exceptException (activate host name true) fun _ => pure ()

def restoreEntry (name : String) : SkillsM τ σ PUnit := do
  if hidden name then return
  let s ← get
  match s.world.tree.resolve .active name with
  | .dir skillDir =>
    exceptException
      (do
        if ← ensureSkillPy host .active name skillDir then
          let cls ← loadSkillClass host (.restore name) .active name skillDir
          let skill ← skillCode (host.new cls)
          register (.restore name) name skill none)
      fun _ => pure ()
  | _ => pure ()

def restoreActiveSkills : SkillsM τ σ PUnit := do
  let names ← iterdir .active
  names.forM fun name => restoreEntry host name

def construct (externalDirs : List String) : SkillsM τ σ PUnit := do
  modify fun s => { s with manager := ⟨externalDirs, ∅⟩ }
  restoreActiveSkills host

/-! Sessions: managers are made and called, and files change between the calls. -/

inductive SkillCall
  | construct (externalDirs : List String)
  | listSkills (status : Option SkillStatus)
  | activate (name : String) (confirm : Bool)
  | deactivate (name : String)
  | getActiveTools
  | reloadAll
  deriving DecidableEq, Repr

def SkillCall.isConstructor : SkillCall → Bool
  | .construct _ => true
  | _ => false

def perform : SkillCall → SkillsM τ σ PUnit
  | .construct externalDirs => construct host externalDirs
  | .listSkills status => do
    let _ ← listSkills host status
    return
  | .activate name confirm => activate host name confirm
  | .deactivate name => deactivate host name
  | .getActiveTools => do
    let _ ← getActiveTools host
    return
  | .reloadAll => reloadAll host

structure Session (τ σ : Type) where
  world : World τ
  managers : Nat → Manager σ
  log : List (SkillEvent σ)

inductive Action (τ : Type)
  | call (manager : Nat) (call : SkillCall)
  | change (world : World τ)

def Session.call (s : Session τ σ) (manager : Nat) (c : SkillCall) :
    EStateM.Result SkillError (SkillsState τ σ) PUnit :=
  perform host c ⟨s.world, s.managers manager, s.log⟩

def Session.step (s : Session τ σ) : Action τ → Session τ σ
  | .change world => { s with world }
  | .call manager c =>
    let res := s.call host manager c
    let managers := Function.update s.managers manager (left res).manager
    ⟨(left res).world, if c.isConstructor && raises res then s.managers else managers,
      (left res).log⟩

end Prismal.Skills
