import Mathlib.Data.List.DropRight
import Mathlib.Data.List.Sort
import Prismal.Lib.Disk

namespace Prismal.Skills.ZipInstall
open Prismal.Lib Prismal.Lib.Disk
set_option autoImplicit true

/-! Installing a skill from a zip archive. -/

abbrev Text := List Char

/-- What `namelist` gives, and what is read from a member. -/
structure Archive (β : Type) where
  names : List Text
  data : Text → β

inductive Raised where
  | badZipFile
  | blocked (place : Path)
  | other (text : Text)

/-- The steps of an installation that can fail; members are counted. -/
inductive Step where
  | skillDir (place : Path)
  | mkdir (i : Nat) (place : Path)
  | openMember (i : Nat)
  | openTarget (i : Nat)
  | readMember (i : Nat)
  | writeTarget (i : Nat)
  | openWrapper
  | writeWrapper

/-- What is not the manager's own code. `generate` makes the text of the wrapper of what is in the
directory. -/
structure Host (β : Type) where
  lower : Text → Text
  str : Raised → Text
  zipFile : Except Raised (Archive β)
  generate : Name → Nodes β → Except Text β
  device : Device Step Raised β

/-- The argument as it is given, and the last component of the path it leads to. -/
structure Source where
  zipPath : Text
  present : Bool
  name : Name

/-- `PurePath.stem` and `PurePath.suffix` -/
def Source.split (src : Source) : Text × Text :=
  let tail := src.name.rtakeWhile fun c => c != '.'
  let i := src.name.length - tail.length - 1
  if 0 < i && !tail.isEmpty then (src.name.take i, '.' :: tail) else (src.name, [])

def components (text : Text) : List Name :=
  (text.splitOn '/').filter fun name => name != [] && name != ".".toList

/-- The operator `/` of paths. -/
def join (base : List Name) (text : Text) : List Name :=
  if text.head? == some '/' then components text else base ++ components text

def skillMd : Text := "skill.md".toList

def atMost (a b : Text) : Bool := !b.lex a fun x y => decide (x.toNat < y.toNat)

def zipDetectPrefix (lower : Text → Text) (names : List Text) : Option Text :=
  let namesLower := names.map lower
  if namesLower.contains skillMd then some []
  else
    let topDirs := ((names.filter fun n => n.contains '/').map fun n =>
      n.takeWhile fun c => c != '/').dedup
    ((topDirs.insertionSort fun a b => atMost a b = true).find? fun top =>
      namesLower.contains (lower top ++ '/' :: skillMd)).map fun top => top ++ ['/']

def dashes (text : Text) : Text := text.map fun c => if c = '-' then '_' else c

def zipSkillName (top : Text) (src : Source) : Name :=
  if top.isEmpty then dashes src.split.1 else dashes (top.rdropWhile fun c => c == '/')

def notFound (src : Source) : Text := "Archivo no encontrado: ".toList ++ src.zipPath

def notZip (src : Source) : Text := "Se esperaba un archivo .zip: ".toList ++ src.zipPath

def noSkillMd : Text :=
  ("El zip no contiene skill.md " ++ "(ni en la raíz ni en un directorio raíz único).").toList

def taken (skillName : Name) : Text :=
  "Ya existe un skill llamado '".toList ++ skillName ++
    ("' en available/. " ++ "Elige un nombre distinto o elimínalo primero.").toList

def extractError (host : Host β) (src : Source) : Raised → Text
  | .badZipFile => "Archivo zip inválido: ".toList ++ src.zipPath
  | exc => "Error al extraer el zip: ".toList ++ host.str exc

def wrapperError (host : Host β) (exc : Raised) : Text :=
  "Error generando skill.py desde skill.md: ".toList ++ host.str exc

section Install

variable (host : Host β) (avail : List Name) (src : Source)

def memberSaving (i : Nat) : Device.Saving Step :=
  ⟨[.openMember i], .openTarget i, [.readMember i], .writeTarget i⟩

def extractMember (zf : Archive β) (top : Text) (dest : List Name) (i : Nat) (member : Text) :
    EStateM Raised (Disk β) PUnit := do
  let rel := member.drop top.length
  if rel.isEmpty then return ⟨⟩
  let path := join dest rel
  if member.getLast? == some '/' then
    host.device.makeDirs (.mkdir i) (stops host.device.links [] path)
  else
    host.device.makeDirs (.mkdir i) (way host.device.links path)
    host.device.saveFile (memberSaving i) (target host.device.links path) (zf.data member)

/-- How the extraction ends when it raises nothing. -/
inductive Unzipped where
  | refused (text : Text)
  | placed (skillName : Name) (dest : List Name)

def unzip : EStateM Raised (Disk β) Unzipped :=
  match host.zipFile with
  | .error exc => throw exc
  | .ok zf =>
    match zipDetectPrefix host.lower zf.names with
    | none => return .refused noSkillMd
    | some top => do
      let skillName := zipSkillName top src
      let dest := join avail skillName
      let d ← get
      if pathExists host.device.links d.nodes dest then return .refused (taken skillName)
      host.device.makeNewDir .skillDir dest
      zf.names.zipIdx.forM fun e => extractMember host zf top dest e.2 e.1
      return .placed skillName dest

def wrapperSaving : Device.Saving Step := ⟨[], .openWrapper, [], .writeWrapper⟩

def skillPy : Name := "skill.py".toList

def generateSkillPy (dest : List Name) : EStateM Raised (Disk β) PUnit := do
  let d ← get
  let place := (target host.device.links dest).place
  match host.generate (dest.getLastD []) fun p => d.nodes (place ++ p) with
  | .error text => throw (.other text)
  | .ok code =>
    host.device.saveFile wrapperSaving (target host.device.links (dest ++ [skillPy])) code

/-- The name of the skill, or `""` and an error message. -/
def installFromZip (d : Disk β) : (Name × Option Text) × Disk β :=
  if !src.present then (([], some (notFound src)), d)
  else if host.lower src.split.2 != ".zip".toList then (([], some (notZip src)), d)
  else
    match unzip host avail src d with
    | .error exc d => (([], some (extractError host src exc)), d)
    | .ok (.refused text) d => (([], some text), d)
    | .ok (.placed skillName dest) d =>
      match generateSkillPy host dest d with
      | .error exc d =>
        (([], some (wrapperError host exc)), rmtree d (target host.device.links dest).place)
      | .ok _ d => ((skillName, none), d)

end Install

/-! What an installation promises. -/

/-- An archive in which a `skill.md` was found, below `top`. -/
structure Package (β : Type) where
  zf : Archive β
  top : Text

def Host.package (host : Host β) : Option (Package β) :=
  match host.zipFile with
  | .error _ => none
  | .ok zf => (zipDetectPrefix host.lower zf.names).map fun top => ⟨zf, top⟩

/-- What the promise and its condition are about. -/
structure Call (β : Type) where
  host : Host β
  tree : Tree β host.device.links
  avail : List Name
  src : Source

namespace Call

variable (c : Call β) (k : Package β)

def dest : List Name := join c.avail (zipSkillName k.top c.src)

def place : Path := (target c.host.device.links (c.dest k)).place

def roads : List Path :=
  (way c.host.device.links (c.dest k) ++ [target c.host.device.links (c.dest k)]).map Stop.place

def rel (m : Text) : Text := m.drop k.top.length

def path (m : Text) : List Name := join (c.dest k) (rel k m)

def isFolder (m : Text) : Bool := m.getLast? == some '/'

def ways (m : Text) : List Path :=
  if (rel k m).isEmpty then []
  else if isFolder m then (stops c.host.device.links [] (c.path k m)).map Stop.place
  else (way c.host.device.links (c.path k m)).map Stop.place

def puts (m : Text) : List (Path × β) :=
  if (rel k m).isEmpty || isFolder m then []
  else [((target c.host.device.links (c.path k m)).place, k.zf.data m)]

def spots (m : Text) : List Path := c.ways k m ++ (c.puts k m).map Prod.fst

def wrapper : Path := c.place k ++ [skillPy]

def Within (p : Path) : Prop := p ∈ c.roads k ∨ c.place k <+: p

def Under (m : Text) : Prop := k.top <+: m ∧ rel k m ≠ []

/-- The members under the prefix are at their paths, and with them only the wrapper. -/
structure Holds (nodes : Nodes β) : Prop where
  folders : ∀ m ∈ k.zf.names, Under k m → isFolder m = true →
    nodes (target c.host.device.links (c.path k m)).place = some .dir
  files : ∀ m ∈ k.zf.names, Under k m → isFolder m = false →
    (target c.host.device.links (c.path k m)).place = c.wrapper k ∨
      nodes (target c.host.device.links (c.path k m)).place = some (.file (k.zf.data m))
  wrapped : ∃ view code, c.host.generate ((c.dest k).getLastD []) view = .ok code ∧
    nodes (c.wrapper k) = some (.file code)
  only : ∀ p, c.place k <+: p → nodes p ≠ none →
    p ∈ c.roads k ∨ p = c.wrapper k ∨ ∃ m ∈ k.zf.names, Under k m ∧ p ∈ c.spots k m

def run : (Name × Option Text) × Disk β :=
  installFromZip c.host c.avail c.src ⟨c.tree.nodes, []⟩

/-- It writes only inside the skill directory, which holds the members if it succeeds; an error
leaves everything as it was. -/
structure Kept : Prop where
  inside : ∀ p ∈ c.run.2.written, ∃ k, c.host.package = some k ∧ c.Within k p
  installed : c.run.1.2 = none → ∃ k, c.host.package = some k ∧ c.Holds k c.run.2.nodes
  unchanged : c.run.1.2 ≠ none → c.run.2.nodes = c.tree.nodes

/-! When it keeps the promise. -/

/-- Nothing hinders the extraction of a member, the `i`-th, from a tree as laid out. -/
structure Fits (ways : List Path) (puts : List (Path × β)) (i : Nat) (m : Text) : Prop where
  folder : isFolder m = true →
    c.host.device.Clear (.mkdir i) c.tree.nodes ways puts
      (stops c.host.device.links [] (c.path k m))
  parent : isFolder m = false →
    c.host.device.Clear (.mkdir i) c.tree.nodes ways puts (way c.host.device.links (c.path k m))
  file : isFolder m = false → c.host.device.Savable (memberSaving i)
    (laid c.tree.nodes (ways ++ (way c.host.device.links (c.path k m)).map Stop.place) puts)
    (target c.host.device.links (c.path k m))

def laidOut (ms : List Text) : Nodes β :=
  laid c.tree.nodes (c.roads k ++ ms.flatMap (c.ways k)) (ms.flatMap (c.puts k))

def Smooth : Prop :=
  Throughout (fun pre e => rel k e.1 ≠ [] →
    c.Fits k (c.roads k ++ (pre.map Prod.fst).flatMap (c.ways k))
      ((pre.map Prod.fst).flatMap (c.puts k)) e.2 e.1) k.zf.names.zipIdx

/-- Each member stays inside, but for directories that were there. -/
structure Confined : Prop where
  ways : ∀ m ∈ k.zf.names, ∀ p ∈ c.ways k m, c.Within k p ∨ c.tree.nodes p = some .dir
  puts : ∀ m ∈ k.zf.names, ∀ f ∈ c.puts k m, c.Within k f.1

def Wraps : Prop :=
  ∃ code, c.host.generate ((c.dest k).getLastD [])
      (fun p => c.laidOut k k.zf.names (c.place k ++ p)) = .ok code ∧
    c.host.device.Savable wrapperSaving (c.laidOut k k.zf.names)
      (target c.host.device.links (c.dest k ++ [skillPy]))

/-- No member under the prefix gives way to another one, and no other member has a place of its
own in the skill directory. -/
structure Exact : Prop where
  kept : ∀ m ∈ k.zf.names, Under k m → ∀ f ∈ c.puts k m, f.1 = c.wrapper k ∨
    (k.zf.names.flatMap (c.puts k)).reverse.find? (fun g => g.1 = f.1) = some f
  only : ∀ m ∈ k.zf.names, ¬ k.top <+: m → ∀ p ∈ c.spots k m, c.place k <+: p →
    p ∈ c.roads k ∨ p = c.wrapper k ∨ ∃ m' ∈ k.zf.names, Under k m' ∧ p ∈ c.spots k m'

def Parents : Prop := ∀ p ∈ c.roads k, c.tree.nodes p ≠ none ∨ c.place k <+: p

def Sound : Prop :=
  ∀ k, c.src.present = true → c.host.lower c.src.split.2 = ".zip".toList →
    c.host.package = some k → pathExists c.host.device.links c.tree.nodes (c.dest k) = false →
    c.host.device.Barred .skillDir c.tree.nodes (c.dest k) ∨
      c.host.device.Makeable .skillDir c.tree.nodes (c.dest k) ∧ c.Smooth k ∧ c.Confined k ∧
        (c.Wraps k ∧ c.Exact k ∨ ¬ c.Wraps k ∧ c.Parents k)

variable {c : Call β} {k : Package β}

theorem extractMember_spec (ways : List Path) (puts : List (Path × β)) (i : Nat) (m : Text) :
    Spec (Laid c.tree.nodes ways puts) (extractMember c.host k.zf k.top (c.dest k) i m)
      (fun _ d => (rel k m ≠ [] → c.Fits k ways puts i m) ∧
        Laid c.tree.nodes (ways ++ c.ways k m) (puts ++ c.puts k m) d)
      (fun _ d => ¬ (rel k m ≠ [] → c.Fits k ways puts i m) ∧
        ∃ ws ps, Laid c.tree.nodes (ways ++ ws) ps d) := by
  intro d hd
  rw [extractMember, Call.ways, Call.puts, isFolder]
  by_cases hrel : (rel k m).isEmpty = true
  · have hdrop : (m.drop k.top.length).isEmpty = true := hrel
    rw [if_pos hdrop, if_pos hrel, hrel, Bool.true_or, if_pos rfl, List.append_nil, List.append_nil]
    rw [List.isEmpty_iff] at hrel
    exact ⟨fun hne => absurd hrel hne, hd⟩
  have hdrop : ¬ (m.drop k.top.length).isEmpty = true := hrel
  have hne : rel k m ≠ [] := by
    rwa [List.isEmpty_iff] at hrel
  rw [if_neg hdrop, if_neg hrel, Bool.eq_false_iff.2 hrel, Bool.false_or]
  split
  next hfolder =>
    have hnot : isFolder m ≠ false := by
      intro hfile
      rw [isFolder, hfolder] at hfile
      cases hfile
    rw [List.append_nil]
    refine (c.host.device.makeDirs_spec (.mkdir i) _ d hd).mono ?_ ?_
    · rintro _ d' ⟨hclear, hlaid⟩
      exact ⟨fun _ => ⟨fun _ => hclear, fun hfile => absurd hfile hnot,
        fun hfile => absurd hfile hnot⟩, hlaid⟩
    · rintro _ d' ⟨pre, s, post, hss, -, hs, hlaid⟩
      exact ⟨fun hfit => hs ((hfit hne).folder hfolder pre s post hss), _, _, hlaid⟩
  next hfile =>
    rw [Bool.not_eq_true] at hfile
    have hnot : isFolder m ≠ true := by
      rw [isFolder, hfile]
      exact Bool.false_ne_true
    have hway := c.host.device.makeDirs_spec (.mkdir i) (way c.host.device.links (c.path k m)) d hd
    change Ends _ _ ((c.host.device.makeDirs (.mkdir i) (way c.host.device.links (c.path k m)) >>=
      fun _ => c.host.device.saveFile (memberSaving i) (target c.host.device.links (c.path k m))
        (k.zf.data m)) d)
    cases h : c.host.device.makeDirs (.mkdir i) (way c.host.device.links (c.path k m)) d with
    | error e d' =>
      rw [h] at hway
      obtain ⟨pre, s, post, hss, -, hs, hlaid⟩ := hway
      rw [bind_of_error h]
      exact ⟨fun hfit => hs ((hfit hne).parent hfile pre s post hss), _, _, hlaid⟩
    | ok a d' =>
      rw [h] at hway
      rw [bind_of_ok h]
      refine (c.host.device.saveFile_spec _ _ _ d' hway.2).mono ?_ ?_
      · rintro _ d'' ⟨hsave, hlaid⟩
        exact ⟨fun _ => ⟨fun hfolder => absurd hfolder hnot, fun _ => hway.1, fun _ => hsave⟩,
          hlaid⟩
      · rintro _ d'' ⟨hsave, qs, -, hlaid⟩
        exact ⟨fun hfit => hsave ((hfit hne).file hfile), _, _, hlaid⟩

theorem extraction_spec :
    Spec (Laid c.tree.nodes (c.roads k) [])
      (k.zf.names.zipIdx.forM fun e => extractMember c.host k.zf k.top (c.dest k) e.2 e.1)
      (fun _ d => c.Smooth k ∧ Laid c.tree.nodes (c.roads k ++ k.zf.names.flatMap (c.ways k))
        (k.zf.names.flatMap (c.puts k)) d)
      (fun _ d => ¬ c.Smooth k ∧ ∃ ws ps, Laid c.tree.nodes (c.roads k ++ ws) ps d) := by
  let I := fun (pre : List (Text × Nat)) (d : Disk β) => Laid c.tree.nodes
    (c.roads k ++ (pre.map Prod.fst).flatMap (c.ways k)) ((pre.map Prod.fst).flatMap (c.puts k)) d
  have hrun : Spec (I [])
      (k.zf.names.zipIdx.forM fun e => extractMember c.host k.zf k.top (c.dest k) e.2 e.1)
      (fun _ d => c.Smooth k ∧ I k.zf.names.zipIdx d) _ :=
    Spec.forM_done (I := I) (E := fun _ d => ∃ ws ps, Laid c.tree.nodes (c.roads k ++ ws) ps d)
      fun pre e => by
        refine (extractMember_spec _ _ e.2 e.1).conseq (fun _ h => h) ?_ ?_
        · rintro _ d ⟨hfit, hlaid⟩
          refine ⟨hfit, ?_⟩
          simpa [I, List.flatMap_append] using hlaid
        · rintro _ d ⟨hfit, ws, ps, hlaid⟩
          rw [List.append_assoc] at hlaid
          exact ⟨hfit, _, _, hlaid⟩
  refine hrun.conseq ?_ ?_ ?_
  · intro d hd
    simpa [I] using hd
  · rintro _ d ⟨hsmooth, hlaid⟩
    have hfst : k.zf.names.zipIdx.map Prod.fst = k.zf.names := List.zipIdx_map_fst 0 k.zf.names
    simp only [I, hfst] at hlaid
    exact ⟨hsmooth, hlaid⟩
  · rintro _ d ⟨pre, e, post, hnames, -, hfit, hlaid⟩
    exact ⟨fun hsmooth => hfit (hsmooth pre e post hnames), hlaid⟩

theorem place_new (h : c.host.device.Makeable .skillDir c.tree.nodes (c.dest k)) :
    c.tree.nodes (c.place k) = none := none_of_laid h.2.2.1

theorem package_eq_some (h : c.host.package = some k) :
    c.host.zipFile = .ok k.zf ∧ zipDetectPrefix c.host.lower k.zf.names = some k.top := by
  rw [Host.package] at h
  cases hzf : c.host.zipFile with
  | error exc =>
    rw [hzf] at h
    cases h
  | ok zf =>
    rw [hzf] at h
    obtain ⟨top, htop, rfl⟩ := Option.map_eq_some_iff.1 h
    exact ⟨rfl, htop⟩

theorem unzip_of_no_package (h : c.host.package = none) (d : Disk β) :
    (∃ exc, unzip c.host c.avail c.src d = .error exc d) ∨
      ∃ text, unzip c.host c.avail c.src d = .ok (.refused text) d := by
  rw [Host.package] at h
  rw [unzip]
  cases hzf : c.host.zipFile with
  | error exc => exact .inl ⟨exc, rfl⟩
  | ok zf =>
    rw [hzf] at h
    dsimp only
    rw [Option.map_eq_none_iff.1 h]
    exact .inr ⟨_, rfl⟩

theorem unzip_of_taken {d : Disk β} (hk : c.host.package = some k)
    (h : pathExists c.host.device.links d.nodes (c.dest k) = true) :
    ∃ text, unzip c.host c.avail c.src d = .ok (.refused text) d := by
  obtain ⟨hzf, htop⟩ := package_eq_some hk
  have hget : (get : EStateM Raised (Disk β) (Disk β)) d = .ok d d := rfl
  have h' : pathExists c.host.device.links d.nodes
      (join c.avail (zipSkillName k.top c.src)) = true := h
  refine ⟨taken (zipSkillName k.top c.src), ?_⟩
  rw [unzip, hzf]
  dsimp only
  rw [htop]
  dsimp only
  rw [bind_of_ok hget, if_pos h']
  rfl

theorem unzip_of_new {d : Disk β} (hk : c.host.package = some k)
    (h : pathExists c.host.device.links d.nodes (c.dest k) = false) :
    unzip c.host c.avail c.src d =
      (do
        c.host.device.makeNewDir .skillDir (c.dest k)
        k.zf.names.zipIdx.forM fun e => extractMember c.host k.zf k.top (c.dest k) e.2 e.1
        return .placed (zipSkillName k.top c.src) (c.dest k) :
          EStateM Raised (Disk β) Unzipped) d := by
  obtain ⟨hzf, htop⟩ := package_eq_some hk
  have hget : (get : EStateM Raised (Disk β) (Disk β)) d = .ok d d := rfl
  have h' : ¬ pathExists c.host.device.links d.nodes
      (join c.avail (zipSkillName k.top c.src)) = true := Bool.eq_false_iff.1 h
  rw [unzip, hzf]
  dsimp only
  rw [htop]
  dsimp only
  rw [bind_of_ok hget, if_neg h']
  rfl

theorem unzip_spec (hk : c.host.package = some k)
    (hnew : pathExists c.host.device.links c.tree.nodes (c.dest k) = false) :
    Ends (fun r d => r = .placed (zipSkillName k.top c.src) (c.dest k) ∧
        (c.host.device.Makeable .skillDir c.tree.nodes (c.dest k) ∧ c.Smooth k) ∧
        Laid c.tree.nodes (c.roads k ++ k.zf.names.flatMap (c.ways k))
          (k.zf.names.flatMap (c.puts k)) d)
      (fun _ d => ¬ (c.host.device.Makeable .skillDir c.tree.nodes (c.dest k) ∧ c.Smooth k) ∧
        (d.nodes = c.tree.nodes → c.host.device.Barred .skillDir c.tree.nodes (c.dest k)))
      (unzip c.host c.avail c.src ⟨c.tree.nodes, []⟩) := by
  rw [unzip_of_new hk hnew]
  have hmake := c.host.device.makeNewDir_spec .skillDir hnew ⟨c.tree.nodes, []⟩ Laid.start
  cases h : c.host.device.makeNewDir .skillDir (c.dest k) ⟨c.tree.nodes, []⟩ with
  | error e d =>
    rw [h] at hmake
    rw [bind_of_error h]
    exact ⟨fun hboth => hmake.1 hboth.1, hmake.2⟩
  | ok a d =>
    rw [h] at hmake
    rw [bind_of_ok h]
    have hall := extraction_spec d hmake.2
    cases h' : (k.zf.names.zipIdx.forM fun e =>
        extractMember c.host k.zf k.top (c.dest k) e.2 e.1) d with
    | error e d' =>
      rw [h'] at hall
      rw [bind_of_error h']
      obtain ⟨hrough, ws, ps, hlaid⟩ := hall
      refine ⟨fun hboth => hrough hboth.2, fun htree => ?_⟩
      have hdir : d'.nodes (c.place k) = some .dir := by
        apply hlaid.dirs
        left
        apply List.mem_append_left
        exact List.mem_map_of_mem (List.mem_append_right _ List.mem_cons_self)
      rw [htree, place_new hmake.1] at hdir
      cases hdir
    | ok a' d' =>
      rw [h'] at hall
      rw [bind_of_ok h']
      exact ⟨rfl, ⟨hmake.1, hall.1⟩, hall.2⟩

abbrev Extracted (c : Call β) (k : Package β) (qs : List (Path × β)) (d : Disk β) : Prop :=
  Laid c.tree.nodes (c.roads k ++ k.zf.names.flatMap (c.ways k))
    (k.zf.names.flatMap (c.puts k) ++ qs) d

theorem target_wrapper (hnew : c.tree.nodes (c.place k) = none) :
    target c.host.device.links (c.dest k ++ [skillPy]) = ⟨c.wrapper k, true⟩ := by
  rw [target_concat]
  exact c.tree.stop_new hnew (by decide)

theorem generateSkillPy_of_error {dest : List Name} {text : Text} {d : Disk β}
    (h : c.host.generate (dest.getLastD [])
      (fun p => d.nodes ((target c.host.device.links dest).place ++ p)) = .error text) :
    generateSkillPy c.host dest d = .error (.other text) d := by
  have hget : (get : EStateM Raised (Disk β) (Disk β)) d = .ok d d := rfl
  rw [generateSkillPy, bind_of_ok hget, h]
  rfl

theorem generateSkillPy_of_ok {dest : List Name} {code : β} {d : Disk β}
    (h : c.host.generate (dest.getLastD [])
      (fun p => d.nodes ((target c.host.device.links dest).place ++ p)) = .ok code) :
    generateSkillPy c.host dest d = c.host.device.saveFile wrapperSaving
      (target c.host.device.links (dest ++ [skillPy])) code d := by
  have hget : (get : EStateM Raised (Disk β) (Disk β)) d = .ok d d := rfl
  rw [generateSkillPy, bind_of_ok hget, h]

theorem generateSkillPy_spec {d : Disk β} (hnew : c.tree.nodes (c.place k) = none)
    (hd : c.Extracted k [] d) :
    Ends (fun _ d' => c.Wraps k ∧ ∃ view code,
        c.host.generate ((c.dest k).getLastD []) view = .ok code ∧
        c.Extracted k [(c.wrapper k, code)] d')
      (fun _ d' => ¬ c.Wraps k ∧ ∃ qs, (∀ f ∈ qs, f.1 = c.wrapper k) ∧ c.Extracted k qs d')
      (generateSkillPy c.host (c.dest k) d) := by
  rw [Extracted, List.append_nil] at hd
  have hnodes : d.nodes = c.laidOut k k.zf.names := hd.nodes
  rw [Wraps, ← hnodes]
  cases hgen : c.host.generate ((c.dest k).getLastD []) (fun p => d.nodes (c.place k ++ p)) with
  | error text =>
    rw [generateSkillPy_of_error hgen]
    refine ⟨?_, [], by simp, by rwa [Extracted, List.append_nil]⟩
    rintro ⟨code, hcode, -⟩
    cases hcode
  | ok code =>
    rw [generateSkillPy_of_ok hgen]
    refine (c.host.device.saveFile_spec wrapperSaving _ code d hd).mono ?_ ?_
    · rintro _ d' ⟨hsave, hlaid⟩
      rw [target_wrapper hnew] at hlaid
      rw [← hd.nodes] at hsave
      exact ⟨⟨code, rfl, hsave⟩, _, code, hgen, hlaid⟩
    · rintro _ d' ⟨hsave, qs, hqs, hlaid⟩
      rw [target_wrapper hnew] at hqs
      rw [← hd.nodes] at hsave
      refine ⟨?_, qs, hqs, hlaid⟩
      rintro ⟨code', -, hsave'⟩
      exact hsave hsave'

theorem mem_spots {m : Text} {p : Path} :
    p ∈ c.spots k m ↔ p ∈ c.ways k m ∨ p ∈ (c.puts k m).map Prod.fst := List.mem_append

theorem Extracted.inside_iff {qs : List (Path × β)} {d : Disk β} (hd : c.Extracted k qs d)
    (hqs : ∀ f ∈ qs, f.1 = c.wrapper k) :
    (∀ p ∈ d.written, c.Within k p) ↔ c.Confined k := by
  constructor
  · intro h
    constructor
    · intro m hm p hp
      have hway : p ∈ c.roads k ++ k.zf.names.flatMap (c.ways k) :=
        List.mem_append_right _ (List.mem_flatMap.2 ⟨m, hm, hp⟩)
      by_cases hn : c.tree.nodes p = none
      · exact .inl (h p ((hd.written p).2 (.inr ⟨hway, hn⟩)))
      · exact .inr (hd.was_dir hway hn)
    · intro m hm f hf
      apply h
      rw [hd.written]
      left
      rw [List.map_append]
      exact List.mem_append_left _ (List.mem_map_of_mem (List.mem_flatMap.2 ⟨m, hm, hf⟩))
  · intro h p hp
    rw [hd.written] at hp
    rcases hp with hp | ⟨hp, hn⟩
    · obtain ⟨f, hf, rfl⟩ := List.mem_map.1 hp
      rcases List.mem_append.1 hf with hf | hf
      · obtain ⟨m, hm, hf⟩ := List.mem_flatMap.1 hf
        exact h.puts m hm f hf
      · rw [hqs f hf]
        exact .inr (List.prefix_append _ _)
    · rcases List.mem_append.1 hp with hp | hp
      · exact .inl hp
      · obtain ⟨m, hm, hp⟩ := List.mem_flatMap.1 hp
        rcases h.ways m hm p hp with hin | hdir
        · exact hin
        · rw [hn] at hdir
          cases hdir

theorem Extracted.removed_iff {qs : List (Path × β)} {d : Disk β} (hd : c.Extracted k qs d)
    (hqs : ∀ f ∈ qs, f.1 = c.wrapper k) (hnew : c.tree.nodes (c.place k) = none)
    (hin : c.Confined k) :
    (rmtree d (c.place k)).nodes = c.tree.nodes ↔ c.Parents k := by
  have hroad : ∀ p ∈ c.roads k, d.nodes p = some .dir :=
    fun p hp => hd.dirs p (.inl (List.mem_append_left _ hp))
  constructor
  · intro h p hp
    by_cases hbelow : c.place k <+: p
    · exact .inr hbelow
    · left
      rw [← h, rmtree_beside hbelow, hroad p hp]
      exact Option.some_ne_none _
  · intro h
    funext p
    by_cases hbelow : c.place k <+: p
    · rw [rmtree_below hbelow, c.tree.nodes_below hnew hbelow]
    rw [rmtree_beside hbelow]
    by_cases hp : p ∈ c.roads k
    · rw [hroad p hp]
      exact (hd.was_dir (List.mem_append_left _ hp) ((h p hp).resolve_right hbelow)).symm
    · have hout : ¬ c.Within k p := by
        rintro (hp' | hp')
        · exact hp hp'
        · exact hbelow hp'
      have hput : p ∉ (k.zf.names.flatMap (c.puts k) ++ qs).map Prod.fst := by
        intro hmem
        obtain ⟨f, hf, rfl⟩ := List.mem_map.1 hmem
        rcases List.mem_append.1 hf with hf | hf
        · obtain ⟨m, hm, hf⟩ := List.mem_flatMap.1 hf
          exact hout (hin.puts m hm f hf)
        · rw [hqs f hf] at hbelow
          exact hbelow (List.prefix_append _ _)
      rw [hd.nodes, laid_of_not_put hput]
      split
      next hway =>
        rw [Bool.and_eq_true, Option.isNone_iff_eq_none, List.contains_iff_mem] at hway
        rcases List.mem_append.1 hway.2 with hp' | hp'
        · exact absurd hp' hp
        · obtain ⟨m, hm, hp'⟩ := List.mem_flatMap.1 hp'
          rw [(hin.ways m hm p hp').resolve_left hout] at hway
          cases hway.1
      next => rfl

theorem path_spot {m : Text} (hm : rel k m ≠ []) (hfolder : isFolder m = true) :
    (target c.host.device.links (c.path k m)).place ∈ c.ways k m ∨
      (target c.host.device.links (c.path k m)).place = [] := by
  have hrel : ¬ (rel k m).isEmpty = true := by
    rwa [List.isEmpty_iff]
  rw [Call.ways, if_neg hrel, if_pos hfolder, target]
  cases h : (stops c.host.device.links [] (c.path k m)).getLast? with
  | none => exact .inr rfl
  | some s => exact .inl (List.mem_map_of_mem (List.mem_of_getLast? h))

theorem puts_file {m : Text} (hm : rel k m ≠ []) (hfile : isFolder m = false) :
    c.puts k m = [((target c.host.device.links (c.path k m)).place, k.zf.data m)] := by
  have hrel : (rel k m).isEmpty = false := by
    rwa [List.isEmpty_eq_false_iff]
  rw [Call.puts, hrel, hfile]
  rfl

theorem spots_rel {m : Text} {p : Path} (hp : p ∈ c.spots k m) : rel k m ≠ [] := by
  intro hrel
  rw [← List.isEmpty_iff] at hrel
  rw [mem_spots, Call.ways, Call.puts, if_pos hrel, hrel] at hp
  simp at hp

theorem puts_spot {m : Text} {f : Path × β} (hf : f ∈ c.puts k m) :
    rel k m ≠ [] ∧ isFolder m = false ∧
      f = ((target c.host.device.links (c.path k m)).place, k.zf.data m) := by
  have hrel : rel k m ≠ [] := spots_rel (mem_spots.2 (.inr (List.mem_map_of_mem hf)))
  cases hfile : isFolder m with
  | true =>
    rw [Call.puts, hfile, Bool.or_true] at hf
    cases hf
  | false =>
    rw [puts_file hrel hfile, List.mem_singleton] at hf
    exact ⟨hrel, rfl, hf⟩

theorem Extracted.holds_iff {view : Nodes β} {code : β} {d : Disk β}
    (hd : c.Extracted k [(c.wrapper k, code)] d) (hnew : c.tree.nodes (c.place k) = none)
    (hgen : c.host.generate ((c.dest k).getLastD []) view = .ok code) :
    c.Holds k d.nodes ↔ c.Exact k := by
  have hnodes : d.nodes = Function.update (c.laidOut k k.zf.names) (c.wrapper k)
      (some (.file code)) := by
    rw [hd.nodes, laid_concat_put]
    rfl
  have hlaid : ∀ p, p ≠ c.wrapper k → d.nodes p = c.laidOut k k.zf.names p := by
    intro p hp
    rw [hnodes, Function.update_of_ne hp]
  have hspot : ∀ m ∈ k.zf.names, ∀ p ∈ c.spots k m, d.nodes p ≠ none := by
    intro m hm p hp
    rcases mem_spots.1 hp with hp | hp
    · rw [hd.dirs p (.inl (List.mem_append_right _ (List.mem_flatMap.2 ⟨m, hm, hp⟩)))]
      exact Option.some_ne_none _
    · have hput : p ∈ (k.zf.names.flatMap (c.puts k) ++ [(c.wrapper k, code)]).map Prod.fst := by
        obtain ⟨f, hf, rfl⟩ := List.mem_map.1 hp
        exact List.mem_map_of_mem (List.mem_append_left _ (List.mem_flatMap.2 ⟨m, hm, hf⟩))
      rw [hd.nodes]
      obtain ⟨b, -, hb⟩ := laid_of_put hput
      rw [hb]
      exact Option.some_ne_none _
  have hput : ∀ m ∈ k.zf.names, ∀ f ∈ c.puts k m,
      f.1 ∈ (k.zf.names.flatMap (c.puts k)).map Prod.fst :=
    fun m hm f hf => List.mem_map_of_mem (List.mem_flatMap.2 ⟨m, hm, hf⟩)
  constructor
  · intro h
    constructor
    · intro m hm hunder f hf
      obtain ⟨hrel, hfile, rfl⟩ := puts_spot hf
      by_cases hw : (target c.host.device.links (c.path k m)).place = c.wrapper k
      · exact .inl hw
      · have hat := (h.files m hm hunder hfile).resolve_left hw
        rw [hlaid _ hw, laidOut, laid_put_iff (hput m hm _ hf)] at hat
        exact .inr hat
    · intro m hm _ p hp hbelow
      exact h.only p hbelow (hspot m hm p hp)
  · intro h
    constructor
    · intro m hm hunder hfolder
      apply hd.dirs
      rcases path_spot (c := c) hunder.2 hfolder with hway | hroot
      · exact .inl (List.mem_append_right _ (List.mem_flatMap.2 ⟨m, hm, hway⟩))
      · rw [hroot]
        exact .inr c.tree.root
    · intro m hm hunder hfile
      by_cases hw : (target c.host.device.links (c.path k m)).place = c.wrapper k
      · exact .inl hw
      · have hf : ((target c.host.device.links (c.path k m)).place, k.zf.data m) ∈ c.puts k m := by
          rw [puts_file hunder.2 hfile]
          exact List.mem_singleton_self _
        right
        rw [hlaid _ hw, laidOut, laid_put_iff (hput m hm _ hf)]
        exact (h.kept m hm hunder _ hf).resolve_left hw
    · exact ⟨view, code, hgen, by rw [hnodes, Function.update_self]⟩
    · intro p hbelow hp
      by_cases hw : p = c.wrapper k
      · exact .inr (.inl hw)
      rw [hlaid p hw, laidOut] at hp
      have hmem : p ∈ c.roads k ∨ ∃ m ∈ k.zf.names, p ∈ c.spots k m := by
        by_cases hfile : p ∈ (k.zf.names.flatMap (c.puts k)).map Prod.fst
        · obtain ⟨f, hf, rfl⟩ := List.mem_map.1 hfile
          obtain ⟨m, hm, hf⟩ := List.mem_flatMap.1 hf
          exact .inr ⟨m, hm, mem_spots.2 (.inr (List.mem_map_of_mem hf))⟩
        · rw [laid_of_not_put hfile, c.tree.nodes_below hnew hbelow] at hp
          have hway : p ∈ c.roads k ++ k.zf.names.flatMap (c.ways k) := by
            by_contra hnot
            simp [hnot] at hp
          rcases List.mem_append.1 hway with hway | hway
          · exact .inl hway
          · obtain ⟨m, hm, hway⟩ := List.mem_flatMap.1 hway
            exact .inr ⟨m, hm, mem_spots.2 (.inl hway)⟩
      rcases hmem with hroad | ⟨m, hm, hspot⟩
      · exact .inl hroad
      · by_cases htop : k.top <+: m
        · exact .inr (.inr ⟨m, hm, ⟨htop, spots_rel hspot⟩, hspot⟩)
        · exact h.only m hm htop p hspot hbelow

/-- The checks are passed, so that the archive is extracted. -/
structure Starts (c : Call β) (k : Package β) : Prop where
  present : c.src.present = true
  zip : c.host.lower c.src.split.2 = ".zip".toList
  package : c.host.package = some k
  free : pathExists c.host.device.links c.tree.nodes (c.dest k) = false

theorem run_refused (h : ∀ k, ¬ c.Starts k) :
    ∃ text, c.run = (([], some text), ⟨c.tree.nodes, []⟩) := by
  rw [run, installFromZip]
  by_cases hpresent : c.src.present = true
  case neg =>
    rw [Bool.not_eq_true] at hpresent
    rw [hpresent]
    exact ⟨_, rfl⟩
  by_cases hzip : c.host.lower c.src.split.2 = ".zip".toList
  case neg =>
    rw [hpresent, if_neg (by simp), if_pos (by simpa using hzip)]
    exact ⟨_, rfl⟩
  rw [hpresent, hzip, if_neg (by simp), if_neg (by simp)]
  cases hk : c.host.package with
  | none =>
    rcases unzip_of_no_package hk ⟨c.tree.nodes, []⟩ with ⟨exc, hrun⟩ | ⟨text, hrun⟩
    · rw [hrun]
      exact ⟨_, rfl⟩
    · rw [hrun]
      exact ⟨_, rfl⟩
  | some k =>
    have htaken : pathExists c.host.device.links c.tree.nodes (c.dest k) = true := by
      by_contra hfree
      exact h k ⟨hpresent, hzip, hk, Bool.not_eq_true _ ▸ hfree⟩
    obtain ⟨text, hrun⟩ := unzip_of_taken (d := ⟨c.tree.nodes, []⟩) hk htaken
    rw [hrun]
    exact ⟨_, rfl⟩

theorem run_of_error {exc : Raised} {d : Disk β} (h : c.Starts k)
    (hrun : unzip c.host c.avail c.src ⟨c.tree.nodes, []⟩ = .error exc d) :
    c.run = (([], some (extractError c.host c.src exc)), d) := by
  rw [run, installFromZip, h.present, h.zip, if_neg (by simp), if_neg (by simp), hrun]

theorem run_of_unwrapped {skillName : Name} {exc : Raised} {d d' : Disk β} (h : c.Starts k)
    (hrun : unzip c.host c.avail c.src ⟨c.tree.nodes, []⟩ = .ok (.placed skillName (c.dest k)) d)
    (hgen : generateSkillPy c.host (c.dest k) d = .error exc d') :
    c.run = (([], some (wrapperError c.host exc)), rmtree d' (c.place k)) := by
  rw [run, installFromZip, h.present, h.zip, if_neg (by simp), if_neg (by simp), hrun]
  dsimp only
  rw [hgen]
  rfl

theorem run_of_wrapped {skillName : Name} {u : PUnit} {d d' : Disk β} (h : c.Starts k)
    (hrun : unzip c.host c.avail c.src ⟨c.tree.nodes, []⟩ = .ok (.placed skillName (c.dest k)) d)
    (hgen : generateSkillPy c.host (c.dest k) d = .ok u d') :
    c.run = ((skillName, none), d') := by
  rw [run, installFromZip, h.present, h.zip, if_neg (by simp), if_neg (by simp), hrun]
  dsimp only
  rw [hgen]

theorem kept_of_nothing (h : c.run = (([], some text), ⟨c.tree.nodes, []⟩)) : c.Kept := by
  constructor
  · rw [h]
    simp
  · rw [h]
    simp
  · rw [h]
    simp

theorem unzip_of_barred (h : c.Starts k)
    (hbar : c.host.device.Barred .skillDir c.tree.nodes (c.dest k)) :
    ∃ exc, unzip c.host c.avail c.src ⟨c.tree.nodes, []⟩ = .error exc ⟨c.tree.nodes, []⟩ := by
  obtain ⟨exc, hexc⟩ := c.host.device.makeNewDir_of_barred (d := ⟨c.tree.nodes, []⟩) hbar
  refine ⟨exc, ?_⟩
  rw [unzip_of_new (d := ⟨c.tree.nodes, []⟩) h.package h.free]
  exact bind_of_error hexc

theorem Starts.eq (h : c.Starts k) (h' : c.host.package = some k') : k' = k := by
  rw [h.package] at h'
  exact (Option.some.inj h').symm

theorem inside_of (h : c.Starts k) :
    (∀ p ∈ c.run.2.written, ∃ k, c.host.package = some k ∧ c.Within k p) ↔
      ∀ p ∈ c.run.2.written, c.Within k p := by
  constructor
  · intro hin p hp
    obtain ⟨k', hk', hw⟩ := hin p hp
    rwa [h.eq hk'] at hw
  · intro hin p hp
    exact ⟨k, h.package, hin p hp⟩

theorem kept_of_wrapped_iff {skillName : Name} {u : PUnit} {view : Nodes β} {code : β}
    {d d' : Disk β} (h : c.Starts k)
    (hrun : unzip c.host c.avail c.src ⟨c.tree.nodes, []⟩ = .ok (.placed skillName (c.dest k)) d)
    (hwrap : generateSkillPy c.host (c.dest k) d = .ok u d')
    (hnew : c.tree.nodes (c.place k) = none)
    (hcode : c.host.generate ((c.dest k).getLastD []) view = .ok code)
    (hd : c.Extracted k [(c.wrapper k, code)] d') : c.Kept ↔ c.Confined k ∧ c.Exact k := by
  have hall := run_of_wrapped h hrun hwrap
  have hin := inside_of h
  rw [hall] at hin
  have hconf := hin.trans (hd.inside_iff (by simp))
  constructor
  · rintro ⟨hinside, hinstalled, -⟩
    rw [hall] at hinside hinstalled
    obtain ⟨k', hk', hholds⟩ := hinstalled rfl
    rw [h.eq hk', hd.holds_iff hnew hcode] at hholds
    exact ⟨hconf.1 hinside, hholds⟩
  · rintro ⟨hconfined, hexact⟩
    constructor
    · rw [hall]
      exact hconf.2 hconfined
    · intro _
      rw [hall]
      exact ⟨k, h.package, (hd.holds_iff hnew hcode).2 hexact⟩
    · rw [hall]
      exact fun hne => absurd rfl hne

theorem kept_of_unwrapped_iff {skillName : Name} {exc : Raised} {qs : List (Path × β)}
    {d d' : Disk β} (h : c.Starts k)
    (hrun : unzip c.host c.avail c.src ⟨c.tree.nodes, []⟩ = .ok (.placed skillName (c.dest k)) d)
    (hwrap : generateSkillPy c.host (c.dest k) d = .error exc d')
    (hnew : c.tree.nodes (c.place k) = none) (hqs : ∀ f ∈ qs, f.1 = c.wrapper k)
    (hd : c.Extracted k qs d') : c.Kept ↔ c.Confined k ∧ c.Parents k := by
  have hall := run_of_unwrapped h hrun hwrap
  have hin := inside_of h
  rw [hall] at hin
  have hconf := hin.trans (hd.inside_iff hqs)
  constructor
  · rintro ⟨hinside, -, hunchanged⟩
    rw [hall] at hinside hunchanged
    have hconfined := hconf.1 hinside
    have hsame := hunchanged (Option.some_ne_none _)
    rw [hd.removed_iff hqs hnew hconfined] at hsame
    exact ⟨hconfined, hsame⟩
  · rintro ⟨hconfined, hparents⟩
    constructor
    · rw [hall]
      exact hconf.2 hconfined
    · rw [hall]
      exact fun hnone => absurd hnone (Option.some_ne_none _)
    · intro _
      rw [hall]
      exact (hd.removed_iff hqs hnew hconfined).2 hparents

theorem Starts.sound_iff (h : c.Starts k) :
    c.Sound ↔ c.host.device.Barred .skillDir c.tree.nodes (c.dest k) ∨
      c.host.device.Makeable .skillDir c.tree.nodes (c.dest k) ∧ c.Smooth k ∧ c.Confined k ∧
        (c.Wraps k ∧ c.Exact k ∨ ¬ c.Wraps k ∧ c.Parents k) := by
  constructor
  · exact fun hsound => hsound k h.present h.zip h.package h.free
  · intro hcond k' _ _ hk' _
    rwa [h.eq hk']

/-- An installation keeps its promise exactly when it is refused, or ends before anything is made,
or else no step of the extraction fails, no member leads out of the skill directory or into another
one's place and, if the wrapper fails, only the skill directory itself was made. -/
theorem kept_iff (c : Call β) : c.Kept ↔ c.Sound := by
  by_cases hstarts : ∃ k, c.Starts k
  case neg =>
    rw [not_exists] at hstarts
    obtain ⟨text, hrun⟩ := run_refused hstarts
    refine iff_of_true (kept_of_nothing hrun) ?_
    intro k hpresent hzip hk hfree
    exact absurd ⟨hpresent, hzip, hk, hfree⟩ (hstarts k)
  obtain ⟨k, hstart⟩ := hstarts
  rw [hstart.sound_iff]
  have hspec := unzip_spec hstart.package hstart.free
  cases hrun : unzip c.host c.avail c.src ⟨c.tree.nodes, []⟩ with
  | error exc d =>
    rw [hrun] at hspec
    have hall := run_of_error hstart hrun
    constructor
    · intro hkept
      left
      apply hspec.2
      have hsame := hkept.unchanged
      rw [hall] at hsame
      exact hsame (by simp)
    · rintro (hbar | ⟨hmake, hsmooth, -⟩)
      · obtain ⟨exc', hbarred⟩ := unzip_of_barred hstart hbar
        rw [hrun] at hbarred
        cases hbarred
        exact kept_of_nothing hall
      · exact absurd ⟨hmake, hsmooth⟩ hspec.1
  | ok r d =>
    rw [hrun] at hspec
    obtain ⟨rfl, ⟨hmake, hsmooth⟩, hd⟩ := hspec
    have hnew := place_new hmake
    have hbar : ¬ c.host.device.Barred .skillDir c.tree.nodes (c.dest k) := by
      intro hbar
      obtain ⟨exc, hbarred⟩ := unzip_of_barred hstart hbar
      rw [hrun] at hbarred
      cases hbarred
    have hgen := generateSkillPy_spec hnew (by rwa [Extracted, List.append_nil])
    cases hwrap : generateSkillPy c.host (c.dest k) d with
    | ok u d' =>
      rw [hwrap] at hgen
      obtain ⟨hwraps, view, code, hcode, hd'⟩ := hgen
      rw [kept_of_wrapped_iff hstart hrun hwrap hnew hcode hd']
      constructor
      · exact fun ⟨hconf, hexact⟩ => .inr ⟨hmake, hsmooth, hconf, .inl ⟨hwraps, hexact⟩⟩
      · rintro (hbarred | ⟨-, -, hconf, ⟨-, hexact⟩ | ⟨hnot, -⟩⟩)
        · exact absurd hbarred hbar
        · exact ⟨hconf, hexact⟩
        · exact absurd hwraps hnot
    | error exc d' =>
      rw [hwrap] at hgen
      obtain ⟨hnot, qs, hqs, hd'⟩ := hgen
      rw [kept_of_unwrapped_iff hstart hrun hwrap hnew hqs hd']
      constructor
      · exact fun ⟨hconf, hparents⟩ => .inr ⟨hmake, hsmooth, hconf, .inr ⟨hnot, hparents⟩⟩
      · rintro (hbarred | ⟨-, -, hconf, ⟨hwraps, -⟩ | ⟨-, hparents⟩⟩)
        · exact absurd hbarred hbar
        · exact absurd hwraps hnot
        · exact ⟨hconf, hparents⟩

end Call

def bareTree (β : Type) (avail : Path) : Tree β fun _ => none where
  nodes p := if p.isPrefixOf avail then some .dir else none
  root := rfl
  closed p n h := by
    rw [if_pos]
    by_contra hp
    apply h
    rw [if_neg]
    intro hn
    exact hp (List.isPrefixOf_iff_prefix.2
      ((List.prefix_append p [n]).trans (List.isPrefixOf_iff_prefix.1 hn)))
  linked _ _ h := absurd rfl h

def climbingCall : Call Nat where
  host :=
    { lower := fun t => t.map Char.toLower
      str := fun _ => []
      zipFile := .ok ⟨["demo/skill.md".toList, "demo/../evil.md".toList], List.length⟩
      generate := fun _ _ => .ok 0
      device := ⟨fun _ => none, fun _ => none, .blocked, 0, fun _ => 0⟩ }
  tree := bareTree Nat ["available".toList]
  avail := ["available".toList]
  src := ⟨"demo.zip".toList, true, "demo.zip".toList⟩

/-- A member whose name climbs is written next to the skill directory. -/
theorem climbing_not_kept : ¬ climbingCall.Kept := by
  intro h
  have hmem : ["available".toList, "evil.md".toList] ∈ climbingCall.run.2.written := by
    decide
  obtain ⟨k, hk, hwithin⟩ := h.inside _ hmem
  have hpackage : climbingCall.host.package =
      some ⟨⟨["demo/skill.md".toList, "demo/../evil.md".toList], List.length⟩, "demo/".toList⟩ := by
    rfl
  rw [hpackage] at hk
  cases hk
  rcases hwithin with hroad | hbelow
  · revert hroad
    decide
  · revert hbelow
    decide

end Prismal.Skills.ZipInstall
