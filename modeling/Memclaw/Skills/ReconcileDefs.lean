import Mathlib.Data.List.Lex
import Mathlib.Data.List.Sort
import Memclaw.Lib.DictDefs
import Memclaw.Lib.FileTree

/-! The reconciler of a node: which directories it keeps, what the catalog wants in them, and
how an owned and a shared directory are brought to it. -/

namespace Memclaw.Skills

open Memclaw.Lib

def isSlugStart (c : Char) : Bool := c.isLower || c.isDigit

/-- `/^[a-z0-9][a-z0-9._-]{0,99}$/` -/
def isSafeSlug (slug : String) : Bool :=
  match slug.toList with
  | [] => false
  | c :: rest =>
    isSlugStart c && rest.length ≤ 99 &&
      rest.all fun c => isSlugStart c || c = '.' || c = '_' || c = '-'

def isTrimmed (c : Char) : Bool :=
  let u := c.toNat
  (9 ≤ u && u ≤ 13) || u = 32 || u = 0xA0 || u = 0x1680 || (0x2000 ≤ u && u ≤ 0x200A) ||
    u = 0x2028 || u = 0x2029 || u = 0x202F || u = 0x205F || u = 0x3000 || u = 0xFEFF

def trim (text : String) : String :=
  String.ofList ((text.toList.dropWhile isTrimmed).reverse.dropWhile isTrimmed).reverse

def hasFence (content : String) : Bool :=
  "---\n".toList.isPrefixOf content.toList || "---\r\n".toList.isPrefixOf content.toList

def escapeDescription (description : String) : String :=
  String.ofList (description.toList.flatMap fun c =>
    if c.toNat = 92 || c.toNat = 34 then ['\\', c] else [c])

def ensureFrontmatter (rawContent name description : String) : String :=
  if hasFence rawContent then rawContent
  else "---\nname: " ++ name ++ "\ndescription: \"" ++ escapeDescription description ++
    "\"\n---\n\n" ++ rawContent

structure CatalogDoc where
  docId : Option String
  data : Dict

/-- The keys are in the order of their first `set`. -/
abbrev Desired := List (String × String)

def Desired.put (desired : Desired) (slug content : String) : Desired :=
  match desired with
  | [] => [(slug, content)]
  | (s, c) :: rest =>
    if s = slug then (slug, content) :: rest else (s, c) :: Desired.put rest slug content

def Desired.has (desired : Desired) (slug : String) : Bool := desired.any fun d => d.1 = slug

def CatalogDoc.slug (doc : CatalogDoc) : String := doc.docId.getD ""

def CatalogDoc.text (doc : CatalogDoc) (key : String) : String :=
  (Dict.get doc.data key).asStr.getD ""

def CatalogDoc.description (doc : CatalogDoc) : String := trim (doc.text "description")

def CatalogDoc.name (doc : CatalogDoc) : String :=
  if trim (doc.text "name") = "" then doc.slug else trim (doc.text "name")

def CatalogDoc.installable (doc : CatalogDoc) : Bool :=
  doc.slug ≠ "" && isSafeSlug doc.slug && doc.text "content" ≠ "" && doc.description ≠ ""

def CatalogDoc.skillText (doc : CatalogDoc) : String :=
  ensureFrontmatter (doc.text "content") doc.name doc.description

def desiredOf (catalog : List CatalogDoc) : Desired :=
  catalog.foldl
    (fun desired doc =>
      if doc.installable then desired.put doc.slug doc.skillText else desired) []

def skippedOf (catalog : List CatalogDoc) : List String :=
  (catalog.filter fun doc => !doc.installable).map fun doc =>
    if doc.slug = "" then "<missing>" else doc.slug

def PROTECTED_SKILLS : List String := ["memclaw"]
def OWNED_MARKER : String := ".memclaw-owned"
def SKILL_FILE : String := "SKILL.md"

def OWNED_MARKER_BODY : String :=
  "This skill directory is managed by the MemClaw plugin reconciler.\n" ++
    "Do not edit by hand — it is overwritten/removed to match the catalog.\n"

inductive FileOp
  | mkdir (p : Path)
  | write (p : Path) (text : String)
  | remove (p : Path)
  | writeConfig
deriving DecidableEq

structure Session where
  tree : FileTree
  ops : List FileOp

/-- Nothing stands for an operation that fails. -/
def Session.mkdirs (s : Session) (p : Path) : Option Session :=
  match s.tree.mkdirs [] p with
  | none => none
  | some tree => some ⟨tree, s.ops ++ [.mkdir p]⟩

def Session.mkdir (s : Session) (base : Path) (name : String) : Option Session :=
  match s.tree.mkdir base name with
  | none => none
  | some tree => some ⟨tree, s.ops ++ [.mkdir (base ++ [name])]⟩

def Session.write (s : Session) (base : Path) (name text : String) : Option Session :=
  match s.tree.write base name text with
  | none => none
  | some tree => some ⟨tree, s.ops ++ [.write (base ++ [name]) text]⟩

def Session.remove (s : Session) (p : Path) : Session :=
  ⟨s.tree.remove p, s.ops ++ [.remove p]⟩

def isMemclawOwned (tree : FileTree) (skillDir : Path) : Bool :=
  tree.has (skillDir ++ [OWNED_MARKER])

/-- `existsSync(target) && readFileSync(target) === content` -/
def isUnchanged (tree : FileTree) (skillDir : Path) (content : String) : Bool :=
  tree.get (skillDir ++ [SKILL_FILE]) = some (.file content)

structure DirReconcileResult where
  added : List String
  removed : List String
  protectedSlugs : List String
  installed : List String
  collisions : List String

def addSlug (slugs : List String) (slug : String) : List String :=
  if slug ∈ slugs then slugs else slugs ++ [slug]

/-- The directory itself, made where it is missing; nothing where it cannot be read. -/
def Session.openDir (s : Session) (skillsRoot : Path) : Option Session :=
  match (if s.tree.has skillsRoot then some s else s.mkdirs skillsRoot) with
  | none => none
  | some s => if s.tree.get skillsRoot = some .dir then some s else none

section Reconcile

variable (skillsRoot : Path) (desired : Desired)

def pruneOwned (acc : Session × DirReconcileResult) (slug : String) :
    Session × DirReconcileResult :=
  let (s, r) := acc
  if desired.has slug then acc
  else if slug ∈ PROTECTED_SKILLS then
    (s, { r with protectedSlugs := r.protectedSlugs ++ [slug] })
  else (s.remove (skillsRoot ++ [slug]), { r with removed := r.removed ++ [slug] })

def writeOwned (acc : Session × DirReconcileResult) (skill : String × String) :
    Option (Session × DirReconcileResult) :=
  let (s, r) := acc
  let dir := skillsRoot ++ [skill.1]
  if isUnchanged s.tree dir skill.2 then some acc
  else
    match s.mkdirs dir with
    | none => none
    | some s =>
      match s.write dir SKILL_FILE skill.2 with
      | none => none
      | some s =>
        some (s, { r with installed := addSlug r.installed skill.1, added := r.added ++ [skill.1] })

def DirReconcileResult.unprotected (r : DirReconcileResult) : DirReconcileResult :=
  { r with installed := r.installed.filter fun slug => slug ∉ PROTECTED_SKILLS }

def reconcileOwnedDir (s : Session) : Option (Session × DirReconcileResult) :=
  match s.openDir skillsRoot with
  | none => none
  | some s =>
    let onDisk := s.tree.dirs skillsRoot
    let (s, r) := onDisk.foldl (pruneOwned skillsRoot desired) (s, ⟨[], [], [], [], []⟩)
    let installed := onDisk.filter fun slug => desired.has slug
    match desired.foldlM (writeOwned skillsRoot) (s, { r with installed := installed }) with
    | none => none
    | some (s, r) => some (s, r.unprotected)

def pruneAdditive (acc : Session × DirReconcileResult) (slug : String) :
    Session × DirReconcileResult :=
  let (s, r) := acc
  if desired.has slug then acc
  else if !isMemclawOwned s.tree (skillsRoot ++ [slug]) then acc
  else if slug ∈ PROTECTED_SKILLS then
    (s, { r with protectedSlugs := r.protectedSlugs ++ [slug] })
  else (s.remove (skillsRoot ++ [slug]), { r with removed := r.removed ++ [slug] })

/-- The directory of a skill: made, or found where it is the reconciler's own. A marker is put
into a new one, and again where it is missing. Nothing inside stands for a collision. -/
def claimDir (s : Session) (slug : String) : Option (Option Session) :=
  let dir := skillsRoot ++ [slug]
  if s.tree.has dir then
    if !isMemclawOwned s.tree dir then some none
    else if s.tree.has (dir ++ [OWNED_MARKER]) then some (some s)
    else (s.write dir OWNED_MARKER OWNED_MARKER_BODY).map some
  else
    match s.mkdir skillsRoot slug with
    | none => none
    | some s => (s.write dir OWNED_MARKER OWNED_MARKER_BODY).map some

def writeAdditive (acc : Session × DirReconcileResult) (skill : String × String) :
    Option (Session × DirReconcileResult) :=
  let (s, r) := acc
  let dir := skillsRoot ++ [skill.1]
  if s.tree.has dir && !isMemclawOwned s.tree dir then
    some (s, { r with collisions := r.collisions ++ [skill.1] })
  else if s.tree.has dir && isUnchanged s.tree dir skill.2 then
    some (s, { r with installed := addSlug r.installed skill.1 })
  else
    match claimDir skillsRoot s skill.1 with
    | none => none
    | some none => some (s, { r with collisions := r.collisions ++ [skill.1] })
    | some (some s) =>
      match s.write dir SKILL_FILE skill.2 with
      | none => none
      | some s =>
        some (s, { r with installed := addSlug r.installed skill.1, added := r.added ++ [skill.1] })

def reconcileAdditiveDir (s : Session) : Option (Session × DirReconcileResult) :=
  match s.openDir skillsRoot with
  | none => none
  | some s =>
    let onDisk := s.tree.dirs skillsRoot
    let (s, r) := onDisk.foldl (pruneAdditive skillsRoot desired) (s, ⟨[], [], [], [], []⟩)
    let installed := onDisk.filter fun slug =>
      desired.has slug && isMemclawOwned s.tree (skillsRoot ++ [slug])
    match desired.foldlM (writeAdditive skillsRoot) (s, { r with installed := installed }) with
    | none => none
    | some (s, r) => some (s, r.unprotected)

end Reconcile

inductive SkillTargetMode
  | owned
  | additive
deriving DecidableEq

structure SkillTarget where
  dir : Path
  mode : SkillTargetMode
  register : Bool
deriving DecidableEq

def joinPath (base : Path) (dir : List Char) : Path :=
  (dir.splitOn '/').foldl
    (fun p part =>
      if part = [] ∨ part = ['.'] then p
      else if part = ['.', '.'] then p.dropLast
      else p ++ [String.ofList part])
    base

def resolvePath (cwd : Path) (dir : String) : Path :=
  joinPath (if ['/'].isPrefixOf dir.toList then [] else cwd) dir.toList

def renderPath (p : Path) : String := "/" ++ "/".intercalate p

/-- What a configured target must have; nothing where it is skipped. -/
def targetOf (cwd : Path) (entry : Json) : Option SkillTarget :=
  match entry with
  | .obj fields =>
    match Dict.get fields "dir", Dict.get fields "mode" with
    | .str dir, .str mode =>
      let register := match Dict.get fields "register" with
        | .bool b => b
        | _ => false
      let normalized := resolvePath cwd dir
      if trim dir = "" then none
      else if mode ≠ "owned" ∧ mode ≠ "additive" then none
      else if normalized.length < 2 then none
      else some ⟨normalized, if mode = "owned" then .owned else .additive, register⟩
    | _, _ => none
  | _ => none

def addTarget (targets : List SkillTarget) (target : SkillTarget) : List SkillTarget :=
  if targets.any fun t => t.dir = target.dir then targets else targets ++ [target]

/-- `configured` is the parsed `MEMCLAW_SKILL_TARGETS`, where it is set and JSON. -/
def resolveSkillTargets (ownedDir cwd : Path) (configured : Option Json) : List SkillTarget :=
  let targets := [⟨ownedDir, .owned, false⟩]
  match configured with
  | some (.arr entries) => (entries.filterMap (targetOf cwd)).foldl addTarget targets
  | _ => targets

structure Registration where
  config : Option Json
  added : List String
  alreadyPresent : List String
  failed : Bool

def unique (texts : List String) : List String := texts.foldl addSlug []

def canonicalDir (home : Path) (dir : String) : String :=
  if dir = "~" then renderPath home
  else if "~/".toList.isPrefixOf dir.toList then
    renderPath (joinPath home (dir.toList.drop 2))
  else if ['/'].isPrefixOf dir.toList then renderPath (resolvePath [] dir)
  else dir

/-- An object under a key: empty where it is absent, nothing where it is something else. -/
def innerObject (fields : Dict) (key : String) : Option Dict :=
  match Dict.get fields key with
  | .null => some []
  | .obj inner => some inner
  | _ => none

def missingDirs (home : Path) (present : List String) : List String → List String
  | [] => []
  | dir :: dirs =>
    if canonicalDir home dir ∈ present then missingDirs home present dirs
    else dir :: missingDirs home (present ++ [canonicalDir home dir]) dirs

/-- `config` is the parsed `openclaw.json`, where it can be read. -/
def ensureExtraSkillDirs (home : Path) (dirs : List String) (config : Option Json) : Registration :=
  let wanted := unique (dirs.filter fun dir => trim dir ≠ "")
  if wanted = [] then ⟨config, [], [], false⟩
  else
    match config with
    | some (.obj fields) =>
      match innerObject fields "skills" with
      | none => ⟨config, [], [], true⟩
      | some skills =>
        match innerObject skills "load" with
        | none => ⟨config, [], [], true⟩
        | some load =>
          let originalExtraDirs := match Dict.get load "extraDirs" with
            | .arr items => items
            | _ => []
          let present := (originalExtraDirs.filterMap Json.asStr).map (canonicalDir home)
          let alreadyPresent := wanted.filter fun dir => canonicalDir home dir ∈ present
          let added := missingDirs home present wanted
          if added = [] then ⟨config, [], alreadyPresent, false⟩
          else
            let load := Dict.set load "extraDirs" (.arr (originalExtraDirs ++ added.map .str))
            let skills := Dict.set skills "load" (.obj load)
            ⟨some (.obj (Dict.set fields "skills" (.obj skills))), added, alreadyPresent, false⟩
    | _ => ⟨config, [], [], true⟩

structure TargetReconcileResult where
  dir : Path
  mode : SkillTargetMode
  result : DirReconcileResult

structure ReconcileSummary where
  catalogCount : ℕ
  installed : List String
  added : List String
  removed : List String
  skipped : List String
  collisions : List String
  protectedSlugs : List String
  targets : List TargetReconcileResult
  registeredDirs : List String

def ReconcileSummary.empty : ReconcileSummary := ⟨0, [], [], [], [], [], [], [], []⟩

def codeUnits (text : String) : List ℕ :=
  text.toList.flatMap fun c =>
    if c.toNat < 0x10000 then [c.toNat]
    else [0xD800 + (c.toNat - 0x10000) / 0x400, 0xDC00 + (c.toNat - 0x10000) % 0x400]

def sorted (slugs : List String) : List String :=
  slugs.insertionSort fun a b => codeUnits a ≤ codeUnits b

def sortedSet (slugs : List String) : List String := sorted (unique slugs)

def DirReconcileResult.sort (r : DirReconcileResult) : DirReconcileResult :=
  ⟨sorted r.added, sorted r.removed, sorted r.protectedSlugs, sorted r.installed,
    sorted r.collisions⟩

def reconcileTarget (desired : Desired) (target : SkillTarget) (s : Session) :
    Option (Session × DirReconcileResult) :=
  match target.mode with
  | .additive => reconcileAdditiveDir target.dir desired s
  | .owned => reconcileOwnedDir target.dir desired s

def reconcileTargets (desired : Desired) :
    List SkillTarget → Session → Option (Session × List TargetReconcileResult)
  | [], s => some (s, [])
  | target :: targets, s =>
    match reconcileTarget desired target s with
    | none => none
    | some (s, r) =>
      match reconcileTargets desired targets s with
      | none => none
      | some (s, rs) => some (s, ⟨target.dir, target.mode, r⟩ :: rs)

/-- The files of the node: the tree, and OpenClaw's `openclaw.json` as it is parsed. -/
structure NodeFiles where
  tree : FileTree
  config : Option Json

structure ReconcileRun where
  files : NodeFiles
  ops : List FileOp
  summary : ReconcileSummary

def summarize (catalog : List CatalogDoc) (results : List TargetReconcileResult)
    (registeredDirs : List String) : ReconcileSummary where
  catalogCount := catalog.length
  installed := sortedSet (results.flatMap fun t => t.result.installed)
  added := sortedSet (results.flatMap fun t => t.result.added)
  removed := sortedSet (results.flatMap fun t => t.result.removed)
  skipped := sortedSet (skippedOf catalog)
  collisions := sortedSet (results.flatMap fun t => t.result.collisions)
  protectedSlugs := sortedSet (results.flatMap fun t => t.result.protectedSlugs)
  targets := results.map fun t => { t with result := t.result.sort }
  registeredDirs := registeredDirs

def registeredDirs (dirs : List String) (reg : Registration) : List String :=
  if dirs = [] then []
  else if reg.failed then sortedSet reg.alreadyPresent
  else sortedSet dirs

/-- `tenantId` is the resolved tenant, if there is one, and `catalog` the answer of the server, if
there is one. Nothing stands for a run in which a file operation fails. -/
def reconcileSkills (home : Path) (targets : List SkillTarget) (tenantId : Option String)
    (catalog : Option (List CatalogDoc)) (files : NodeFiles) : Option ReconcileRun :=
  match tenantId, catalog with
  | some _, some catalog =>
    match reconcileTargets (desiredOf catalog) targets ⟨files.tree, []⟩ with
    | none => none
    | some (s, results) =>
      let dirs := (targets.filter fun t => t.register).map fun t => renderPath t.dir
      let reg := ensureExtraSkillDirs home dirs files.config
      some
        { files := ⟨s.tree, reg.config⟩
          ops := s.ops ++ if reg.added = [] then [] else [.writeConfig]
          summary := summarize catalog results (registeredDirs dirs reg) }
  | _, _ => some ⟨files, [], .empty⟩

end Memclaw.Skills
