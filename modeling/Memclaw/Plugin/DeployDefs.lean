import Mathlib.Algebra.Ring.Nat
import Mathlib.Logic.Function.Basic
import Memclaw.Lib.Groups
import Memclaw.Lib.Interleave
import Memclaw.Lib.Split

/-! The two deploys of the plugin (`heartbeat.ts`, `deploy.ts`) over the files of its directory, and
the cooldown that a failed deploy engages. -/

namespace Memclaw.Plugin

open Memclaw.Lib Memclaw.Lib.Interleave

abbrev Text := List Char

inductive Content
  | text (text : Text)
  | raw (bytes : List UInt8)
deriving DecidableEq

abbrev Path := Text

abbrev Files := Path → Option Content

/-- The platform: what reading bytes as UTF-8 makes of them, the characters that `trim` removes, and
`package.json` with a new version, nothing where it does not parse. -/
structure DeployEnv where
  decode : List UInt8 → Text
  space : Char → Bool
  bumpVersion : Text → Text → Option Text
  maxSourceSize : ℕ

def Content.read (env : DeployEnv) : Content → Text
  | .text t => t
  | .raw bytes => env.decode bytes

/-- How a write ends: it goes through, or it throws before or after it has opened the file. -/
inductive Fault
  | none
  | intact
  | torn (left : Content)

def Fault.throws : Fault → Bool
  | .none => false
  | _ => true

structure Write where
  path : Path
  text : Text

def Write.leave (w : Write) (fault : Fault) (files : Files) : Files :=
  match fault with
  | .none => Function.update files w.path (some (.text w.text))
  | .intact => files
  | .torn left => Function.update files w.path (some left)

def writeAll : List Write → (ℕ → Fault) → Files → Files × Bool
  | [], _, files => (files, true)
  | w :: writes, fault, files =>
    if (fault 0).throws then (w.leave (fault 0) files, false)
    else writeAll writes (fun n => fault (n + 1)) (w.leave (fault 0) files)

def srcDir : Path := "src/".toList
def versionPath : Path := "src/version.ts".toList
def packagePath : Path := "package.json".toList
def envPath : Path := ".env".toList
def indexPath : Path := "src/index.ts".toList
def backupPath : Path := "src/index.ts.bak".toList

def isBookkeeping (p : Path) : Bool :=
  p = ".deploy-pending.json".toList || p = ".deploy-cooldown.json".toList || ".bak".toList.isSuffixOf p

def units (text : Text) : ℕ := (text.map fun c => if c.toNat < 0x10000 then 1 else 2).sum

/-- What a failing build does to the files, nothing for one that it leaves alone. -/
abbrev Changes := Path → Option (Option Content)

def Changes.apply (changes : Changes) (files : Files) : Files := fun p => (changes p).getD (files p)

/-- How a deploy ends, with the files where it reports failure. -/
inductive Outcome
  | done
  | failed (files : Files)

inductive Fetched
  | ok (text : Text)
  | notFound
  | failed

/-- A deploy of the files of a manifest: the lists, what the cooldown gate and the fetches answered,
how each write ends, and what the build does where it fails. An empty list falls back to one that is
not. -/
structure ManifestDeploy where
  srcFiles : List Text
  srcFiles_ne_nil : srcFiles ≠ []
  rootFiles : List Text
  manifestVersion : Option Text
  blocked : Bool
  fetch : ℕ → Fetched
  fault : ℕ → Fault
  build : Files → Option Changes

def safeName (name : Text) : Bool :=
  (name.splitOn '/').all (fun part => part ≠ ['.', '.'] && part ≠ ['.'] && part ≠ []) &&
    name.all (· ≠ '\x00')

def ManifestDeploy.listed (d : ManifestDeploy) : List Path := d.srcFiles.map (srcDir ++ ·) ++ d.rootFiles

def ManifestDeploy.backups (env : DeployEnv) (d : ManifestDeploy) (files : Files) : List Write :=
  d.listed.filterMap fun p => (files p).map fun c => ⟨p, c.read env⟩

/-- One fetch, nothing where it fails; a file that is not found is left out. -/
def ManifestDeploy.fetchStep (env : DeployEnv) (d : ManifestDeploy) (fetched : List (Path × Text))
    (file : Path × ℕ) : Option (List (Path × Text)) :=
  match d.fetch file.2 with
  | .ok text =>
    if 0 < units text ∧ units text ≤ env.maxSourceSize then
      some (Groups.upsert file.1 (fun _ => text) fetched)
    else none
  | .notFound => some fetched
  | .failed => none

def ManifestDeploy.fetchAll (env : DeployEnv) (d : ManifestDeploy) : Option (List (Path × Text)) :=
  d.listed.zipIdx.foldlM (d.fetchStep env) []

def versionTs (version : Text) : Text :=
  "// Auto-generated by deploy command from /plugin-manifest — do not edit\n".toList ++
    "export const PLUGIN_VERSION = \"".toList ++ version ++ "\";\n".toList

def ManifestDeploy.writes (d : ManifestDeploy) (fetched : List (Path × Text)) : List Write :=
  fetched.map (fun file => ⟨file.1, file.2⟩) ++
    (d.manifestVersion.map fun version => ⟨versionPath, versionTs version⟩).toList

/-- The update of `package.json`, whose failure is swallowed. -/
def ManifestDeploy.bump (env : DeployEnv) (d : ManifestDeploy) (fault : Fault) (files : Files) : Files :=
  match d.manifestVersion, files packagePath with
  | some version, some pkg =>
    match env.bumpVersion version (pkg.read env) with
    | some text => Write.leave ⟨packagePath, text⟩ fault files
    | none => files
  | _, _ => files

def ManifestDeploy.broken (env : DeployEnv) (d : ManifestDeploy) (fetched : List (Path × Text))
    (files : Files) : Option Files :=
  let written := writeAll (d.writes fetched) d.fault files
  if written.2 then
    let bumped := d.bump env (d.fault (d.writes fetched).length) written.1
    (d.build bumped).map fun changes => changes.apply bumped
  else some written.1

def restore (backups : List Write) (files : Files) : Files :=
  backups.foldl (fun files backup => backup.leave .none files) files

def ManifestDeploy.begins (env : DeployEnv) (d : ManifestDeploy) : Option (List (Path × Text)) :=
  if d.blocked then none
  else if (d.srcFiles ++ d.rootFiles).all safeName then d.fetchAll env
  else none

/-- The deploy branch of `processCommand`, from the manifest on. The pending marker and the cooldown,
which no other file depends on, are left out. -/
def ManifestDeploy.process (env : DeployEnv) (d : ManifestDeploy) (files : Files) : Outcome :=
  match d.begins env with
  | none => .failed files
  | some fetched =>
    match d.broken env fetched files with
    | none => .done
    | some broken => .failed (restore (d.backups env files) broken)

structure SourceDeploy where
  source : Text
  envVars : Option (List (Text × Option Text))
  fault : ℕ → Fault
  build : Files → Option Changes

def ownKey (key : Text) : Bool := "MEMCLAW_".toList.isPrefixOf key

def readLine (env : DeployEnv) (existing : List (Text × Text)) (line : Text) : List (Text × Text) :=
  let trimmed := trim env.space line
  let eq := trimmed.idxOf '='
  let key := trim env.space (trimmed.take eq)
  if trimmed = [] ∨ trimmed.head? = some '#' ∨ eq = trimmed.length ∨ eq < 1 then existing
  else if ownKey key then Groups.upsert key (fun _ => trim env.space (trimmed.drop (eq + 1))) existing
  else existing

def isChange (entry : Text × Option Text) : Bool := ownKey entry.1 && entry.2.isSome

def mergeEnv (env : DeployEnv) (old : Option Content) (envVars : List (Text × Option Text)) : Option Text :=
  let existing := (old.map fun c => ((c.read env).splitOn '\n').foldl (readLine env) []).getD []
  let merged := (envVars.filter isChange).foldl (fun existing entry =>
    Groups.upsert entry.1 (fun _ => (entry.2.getD []).filter fun c => c ≠ '\r' && c ≠ '\n') existing)
    existing
  if envVars.any isChange then
    some (['\n'].intercalate (merged.map fun entry => entry.1 ++ ['='] ++ entry.2) ++ ['\n'])
  else none

def SourceDeploy.writes (env : DeployEnv) (d : SourceDeploy) (files : Files) : List Write :=
  ((files indexPath).map fun c => ⟨backupPath, c.read env⟩).toList ++ [⟨indexPath, d.source⟩]

def SourceDeploy.envWrite (env : DeployEnv) (d : SourceDeploy) (files : Files) : List Write :=
  ((d.envVars.bind (mergeEnv env (files envPath))).map fun text => ⟨envPath, text⟩).toList

def SourceDeploy.broken (env : DeployEnv) (d : SourceDeploy) (files : Files) : Option Files :=
  let written := writeAll (d.writes env files) d.fault files
  if written.2 then
    let merged := writeAll (d.envWrite env written.1) (fun n => d.fault (n + 2)) written.1
    if merged.2 then (d.build merged.1).map fun changes => changes.apply merged.1
    else some merged.1
  else some written.1

def restoreSource (env : DeployEnv) (files : Files) : Files :=
  match files backupPath with
  | some c => Write.leave ⟨indexPath, c.read env⟩ .none files
  | none => files

def SourceDeploy.process (env : DeployEnv) (d : SourceDeploy) (files : Files) : Outcome :=
  if env.maxSourceSize < units d.source then .failed files
  else
    match d.broken env files with
    | none => .done
    | some broken => .failed (restoreSource env broken)

def failureCooldownHours (parsed : Option ℤ) : ℕ :=
  match parsed with
  | some hours => if 0 < hours then hours.toNat else 24
  | none => 24

def cooldownMs (parsed : Option ℤ) : ℕ := failureCooldownHours parsed * 3600000

structure Cooldown where
  failedVersion : Text
  blockedUntil : ℕ
deriving DecidableEq

/-- The node under its deploys: the two marker files, the version of the running process and whether
it has checked the last deploy, and the clock in milliseconds. -/
structure Node where
  cooldown : Option Cooldown := none
  pending : Option Text := none
  running : Text
  postRestartCheckDone : Bool := false
  now : ℕ := 0

def Node.writeDeployCooldown (parsed : Option ℤ) (n : Node) (version : Text) : Node :=
  { n with cooldown := some ⟨version, n.now + cooldownMs parsed⟩ }

def Node.isDeployBlocked (n : Node) (version : Text) : Bool :=
  n.cooldown.any fun cd => cd.failedVersion = version && n.now < cd.blockedUntil

def Node.verifyDeployPostRestart (parsed : Option ℤ) (n : Node) : Node :=
  if n.postRestartCheckDone then n
  else
    let checked := { n with postRestartCheckDone := true }
    match n.pending with
    | none => checked
    | some target =>
      if target = [] then checked
      else if target = n.running then { checked with pending := none, cooldown := none }
      else { checked.writeDeployCooldown parsed target with pending := none }

/-- How the deploy branch ends for a version that is not blocked: before its writes, with a failed
write or build, or with a build that waits for the restart. -/
inductive DeployEnd
  | aborted
  | failed
  | built
deriving DecidableEq

inductive Event
  | deploy (version : Text) (result : DeployEnd)
  | restart (running : Text)
  | heartbeat
  | wait (ms : ℕ)

def Node.deploy (parsed : Option ℤ) (n : Node) (version : Text) (result : DeployEnd) : Node :=
  if version ≠ [] ∧ n.isDeployBlocked version then n
  else
    match result with
    | .aborted => n
    | .failed =>
      { (if version = [] then n else n.writeDeployCooldown parsed version) with pending := none }
    | .built => if version = [] then n else { n with pending := some version }

def Node.step (parsed : Option ℤ) (n : Node) : Event → Node
  | .deploy version result => n.deploy parsed version result
  | .restart running => { n with running := running, postRestartCheckDone := false }
  | .heartbeat => n.verifyDeployPostRestart parsed
  | .wait ms => { n with now := n.now + ms }

end Memclaw.Plugin
