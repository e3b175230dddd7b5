import Memclaw.Plugin.Rollback

/-! What a failed deploy leaves of the plugin directory: a deploy of a source rolls back from a backup
of its one file, a deploy from the manifest from its snapshot. -/

namespace Memclaw.Plugin

open Memclaw.Lib Memclaw.Lib.Interleave

section Rollback

variable {env : DeployEnv} {files : Files}

def rolledBack (env : DeployEnv) (backup left : Option Content) : Option Content :=
  match backup with
  | some c => some (.text (c.read env))
  | none => left

/-- The backup behind the writes of the source: the text of the source that was there, or without one
an old backup. -/
def sourceBackup (env : DeployEnv) (files : Files) : Option Content :=
  match files indexPath with
  | some c => some (.text (c.read env))
  | none => files backupPath

def SourceDeploy.sourced (env : DeployEnv) (d : SourceDeploy) (files : Files) : Files :=
  Function.update (Function.update files backupPath (sourceBackup env files)) indexPath
    (some (.text d.source))

def SourceDeploy.merged (env : DeployEnv) (d : SourceDeploy) (files : Files) : Option Text :=
  d.envVars.bind (mergeEnv env (files envPath))

def SourceDeploy.release (env : DeployEnv) (d : SourceDeploy) (files : Files) : Files :=
  match d.merged env files with
  | some text => Function.update (d.sourced env files) envPath (some (.text text))
  | none => d.sourced env files

/-- Outside of the source the build leaves what was there: by what it does itself, or where it does
nothing, by a `.env` that was as it is merged. -/
def SourceDeploy.BuildSpares (env : DeployEnv) (d : SourceDeploy) (files : Files)
    (changes : Changes) : Prop :=
  rolledBack env ((changes backupPath).getD (sourceBackup env files))
      ((changes indexPath).getD (some (.text d.source))) = files indexPath ∧
    ∀ p, isBookkeeping p = false → p ≠ indexPath →
      match changes p with
      | some c => c = files p
      | none => p = envPath → ∀ text, d.merged env files = some text → files p = some (.text text)

/-- Behind the writes of the source: a `.env` write that throws leaves the `.env`, and so does a
build that fails. -/
def SourceDeploy.RestSpares (env : DeployEnv) (d : SourceDeploy) (files : Files) : Prop :=
  match d.merged env files, (d.fault 2).throws with
  | some text, true =>
    rolledBack env (sourceBackup env files) (some (.text d.source)) = files indexPath ∧
      (d.fault 2).left text (files envPath) = files envPath
  | _, _ => ∀ changes, d.build (d.release env files) = some changes →
      d.BuildSpares env files changes

/-- A deploy of a source that is not too large can be rolled back where it fails: at the backup, at
the source, or behind them. -/
def SourceDeploy.Covered (env : DeployEnv) (d : SourceDeploy) (files : Files) : Prop :=
  units d.source ≤ env.maxSourceSize →
    match files indexPath with
    | some c =>
      if (d.fault 0).throws then
        rolledBack env ((d.fault 0).left (c.read env) (files backupPath)) (some c) = some c
      else if (d.fault 1).throws then c.isText = true
      else d.RestSpares env files
    | none =>
      if (d.fault 0).throws then
        rolledBack env (files backupPath) ((d.fault 0).left d.source none) = none
      else d.RestSpares env files

section Source

variable {d : SourceDeploy}

theorem restoreSource_index (broken : Files) :
    restoreSource env broken indexPath = rolledBack env (broken backupPath) (broken indexPath) := by
  unfold restoreSource rolledBack
  cases broken backupPath with
  | none => rfl
  | some c =>
    dsimp only
    rw [leave_none, if_pos rfl]

theorem restoreSource_of_ne (broken : Files) {p : Path} (h : p ≠ indexPath) :
    restoreSource env broken p = broken p := by
  unfold restoreSource
  cases broken backupPath with
  | none => rfl
  | some c => exact leave_of_ne _ _ h

theorem source_restored_iff (broken : Files) :
    Restores files (.failed (restoreSource env broken)) ↔
      rolledBack env (broken backupPath) (broken indexPath) = files indexPath ∧
        ∀ p, isBookkeeping p = false → p ≠ indexPath → broken p = files p := by
  rw [restores_failed]
  constructor
  · intro h
    refine ⟨?_, fun p hp hne => ?_⟩
    · rw [← restoreSource_index]
      exact h indexPath (by decide)
    · rw [← restoreSource_of_ne broken hne]
      exact h p hp
  · rintro ⟨hindex, hothers⟩ p hp
    by_cases hp' : p = indexPath
    · rw [hp', restoreSource_index, hindex]
    · rw [restoreSource_of_ne broken hp']
      exact hothers p hp hp'

theorem ne_backupPath {p : Path} (h : isBookkeeping p = false) : p ≠ backupPath := by
  rintro rfl
  exact absurd h (by decide)

theorem sourced_backup : d.sourced env files backupPath = sourceBackup env files := by
  unfold SourceDeploy.sourced
  rw [Function.update_of_ne (by decide), Function.update_self]

theorem sourced_index : d.sourced env files indexPath = some (.text d.source) :=
  Function.update_self ..

theorem sourced_of_ne {p : Path} (hbook : isBookkeeping p = false) (hp : p ≠ indexPath) :
    d.sourced env files p = files p := by
  unfold SourceDeploy.sourced
  rw [Function.update_of_ne hp, Function.update_of_ne (ne_backupPath hbook)]

theorem release_source_of_ne {p : Path} (hbook : isBookkeeping p = false) (hp : p ≠ indexPath) :
    d.release env files p = files p ↔
      (p = envPath → ∀ text, d.merged env files = some text → files p = some (.text text)) := by
  unfold SourceDeploy.release
  cases d.merged env files with
  | none =>
    exact iff_of_true (sourced_of_ne hbook hp) fun _ _ h => nomatch h
  | some text =>
    dsimp only
    rw [Function.update_apply]
    split_ifs with henv
    · constructor
      · exact fun h _ text' hsame => Option.some.inj hsame ▸ h.symm
      · exact fun h => (h henv text rfl).symm
    · exact iff_of_true (sourced_of_ne hbook hp) fun h => absurd h henv

theorem release_source {p : Path} (hp : p ≠ envPath) :
    d.release env files p = d.sourced env files p := by
  unfold SourceDeploy.release
  cases d.merged env files with
  | none => rfl
  | some text => exact Function.update_of_ne hp ..

theorem source_build_iff (changes : Changes) :
    Restores files (.failed (restoreSource env (changes.apply (d.release env files)))) ↔
      d.BuildSpares env files changes := by
  rw [source_restored_iff]
  unfold SourceDeploy.BuildSpares Changes.apply
  rw [release_source (by decide), release_source (by decide), sourced_backup, sourced_index]
  refine and_congr_right fun _ => forall₃_congr fun p hbook hp => ?_
  cases changes p with
  | some c => exact Iff.rfl
  | none => exact release_source_of_ne hbook hp

/-- The `.env` write fails: its own file is all that it can leave changed. -/
theorem source_env_iff (text : Text) (fault : Fault) :
    Restores files
        (.failed (restoreSource env (Write.leave ⟨envPath, text⟩ fault (d.sourced env files)))) ↔
      rolledBack env (sourceBackup env files) (some (.text d.source)) = files indexPath ∧
        fault.left text (files envPath) = files envPath := by
  have hbackup : backupPath ≠ envPath := by decide
  have hindex : indexPath ≠ envPath := by decide
  rw [source_restored_iff, leave_of_ne _ _ hbackup, leave_of_ne _ _ hindex, sourced_backup,
    sourced_index]
  refine and_congr_right fun _ => ⟨fun h => ?_, fun h p hbook hp => ?_⟩
  · have henv := h envPath (by decide) (by decide)
    rwa [leave_apply, if_pos rfl, sourced_of_ne (by decide) (by decide)] at henv
  · rw [leave_apply, sourced_of_ne hbook hp]
    split_ifs with henv
    · have henv : p = envPath := henv
      rw [henv]
      exact h
    · rfl

theorem source_rest_iff :
    Restores files (match
        (let merged := writeAll (d.envWrite env (d.sourced env files)) (fun n => d.fault (n + 2))
          (d.sourced env files)
        if merged.2 then (d.build merged.1).map fun changes => changes.apply merged.1
        else some merged.1) with
      | none => .done
      | some broken => .failed (restoreSource env broken)) ↔
      d.RestSpares env files := by
  -- How a deploy ends whose source is written.
  have hwrite : d.envWrite env (d.sourced env files) =
      ((d.merged env files).map fun text => ⟨envPath, text⟩).toList := by
    unfold SourceDeploy.envWrite SourceDeploy.merged
    rw [sourced_of_ne (by decide) (by decide)]
  have hbuilt : ∀ outcome : Option Changes, d.build (d.release env files) = outcome →
      (Restores files (match outcome.map fun changes => changes.apply (d.release env files) with
        | none => .done
        | some broken => .failed (restoreSource env broken)) ↔
        ∀ changes, d.build (d.release env files) = some changes → d.BuildSpares env files changes) := by
    intro outcome hbuild
    rw [hbuild]
    cases outcome with
    | none => exact iff_of_true (fun after h => nomatch h) fun changes h => nomatch h
    | some changes =>
      dsimp only [Option.map_some]
      rw [source_build_iff]
      exact ⟨fun h changes' hsame => Option.some.inj hsame ▸ h, fun h => h changes rfl⟩
  unfold SourceDeploy.RestSpares
  rw [hwrite]
  cases hmerged : d.merged env files with
  | none =>
    have hrelease : d.sourced env files = d.release env files := by
      unfold SourceDeploy.release
      rw [hmerged]
    dsimp only [Option.map_none, Option.toList_none, writeAll]
    rw [if_pos rfl, hrelease]
    exact hbuilt _ rfl
  | some text =>
    have hrelease : Write.leave ⟨envPath, text⟩ .none (d.sourced env files) = d.release env files := by
      unfold SourceDeploy.release
      rw [hmerged]
      rfl
    cases hthrows : (d.fault 2).throws with
    | true =>
      dsimp only [Option.map_some, Option.toList_some]
      rw [writeAll_throws hthrows, if_neg Bool.false_ne_true]
      exact source_env_iff text (d.fault 2)
    | false =>
      dsimp only [Option.map_some, Option.toList_some]
      rw [writeAll_goes hthrows, writeAll, if_pos rfl, hrelease]
      exact hbuilt _ rfl

theorem leave_backup {c : Content} (h : files indexPath = some c) :
    Write.leave ⟨backupPath, c.read env⟩ .none files =
      Function.update files backupPath (sourceBackup env files) := by
  unfold sourceBackup
  rw [h]
  rfl

theorem leave_index (h : files indexPath = none) :
    Write.leave ⟨indexPath, d.source⟩ .none files = d.sourced env files := by
  have hsame : Function.update files backupPath (sourceBackup env files) = files := by
    unfold sourceBackup
    rw [h]
    exact Function.update_eq_self ..
  unfold SourceDeploy.sourced
  rw [hsame]
  rfl

/-- The write of the source fails behind a backup, which is of texts only. -/
theorem source_index_iff {c : Content} (h : files indexPath = some c) (fault : Fault) :
    Restores files (.failed (restoreSource env (Write.leave ⟨indexPath, d.source⟩ fault
        (Function.update files backupPath (sourceBackup env files))))) ↔ c.isText = true := by
  have hbackup : backupPath ≠ indexPath := by decide
  have hbackedUp : sourceBackup env files = some (.text (c.read env)) := by
    unfold sourceBackup
    rw [h]
  rw [source_restored_iff, leave_of_ne _ _ hbackup, Function.update_self, h, hbackedUp]
  have hothers : ∀ p, isBookkeeping p = false → p ≠ indexPath →
      Write.leave ⟨indexPath, d.source⟩ fault
        (Function.update files backupPath (some (.text (c.read env)))) p = files p :=
    fun p hbook hp => (leave_of_ne _ _ hp).trans (Function.update_of_ne (ne_backupPath hbook) ..)
  exact (and_iff_left hothers).trans (Option.some_inj.trans (text_read_iff c))

theorem source_restores_iff (d : SourceDeploy) :
    Restores files (d.process env files) ↔ d.Covered env files := by
  unfold SourceDeploy.process SourceDeploy.Covered
  by_cases hsize : env.maxSourceSize < units d.source
  · rw [if_pos hsize]
    exact iff_of_true (restores_failed.mpr fun p _ => rfl)
      fun hfits => absurd hsize (Nat.not_lt.mpr hfits)
  rw [if_neg hsize, forall_prop_of_true (Nat.not_lt.mp hsize)]
  unfold SourceDeploy.broken SourceDeploy.writes
  cases hindex : files indexPath with
  | none =>
    dsimp only [Option.map_none, Option.toList_none, List.nil_append]
    cases hthrows : (d.fault 0).throws with
    | true =>
      have hbackup : backupPath ≠ indexPath := by decide
      rw [writeAll_throws hthrows, if_neg Bool.false_ne_true, if_pos rfl]
      dsimp only
      rw [source_restored_iff, leave_of_ne _ _ hbackup, leave_apply, if_pos rfl, hindex]
      exact and_iff_left fun p _ hp => leave_of_ne _ _ hp
    | false =>
      rw [writeAll_goes hthrows, writeAll, if_pos rfl, if_neg Bool.false_ne_true, leave_index hindex]
      exact source_rest_iff
  | some c =>
    dsimp only [Option.map_some, Option.toList_some, List.singleton_append]
    cases hthrows : (d.fault 0).throws with
    | true =>
      rw [writeAll_throws hthrows, if_neg Bool.false_ne_true, if_pos rfl]
      dsimp only
      have hbackup : backupPath ≠ indexPath := by decide
      rw [source_restored_iff, leave_of_ne (q := indexPath) _ _ hbackup.symm, leave_apply, if_pos rfl,
        hindex]
      exact and_iff_left fun p hbook _ => leave_of_ne _ _ (ne_backupPath hbook)
    | false =>
      rw [writeAll_goes hthrows, leave_backup hindex, if_neg Bool.false_ne_true]
      cases hlater : (d.fault 1).throws with
      | true =>
        rw [writeAll_throws hlater, if_neg Bool.false_ne_true, if_pos rfl]
        exact source_index_iff hindex (d.fault 1)
      | false =>
        rw [writeAll_goes hlater, writeAll, if_pos rfl, if_neg Bool.false_ne_true]
        exact source_rest_iff

end Source

inductive DeployCommand
  | manifest (d : ManifestDeploy)
  | source (d : SourceDeploy)

def DeployCommand.process (env : DeployEnv) (files : Files) : DeployCommand → Outcome
  | .manifest d => d.process env files
  | .source d => d.process env files

def DeployCommand.Covered (env : DeployEnv) (files : Files) : DeployCommand → Prop
  | .manifest d => d.Covered env files
  | .source d => d.Covered env files

/-- A failed deploy leaves the plugin as it was exactly when its rollback covers what it may have
touched. -/
theorem deploy_restores_iff (env : DeployEnv) (files : Files) (command : DeployCommand) :
    Restores files (command.process env files) ↔ command.Covered env files := by
  cases command with
  | manifest d => exact manifest_restores_iff d
  | source d => exact source_restores_iff d

def plainEnv : DeployEnv where
  decode _ := []
  space c := c = ' '
  bumpVersion version _ := some version
  maxSourceSize := 9

def stampedDeploy : ManifestDeploy where
  srcFiles := [['i']]
  srcFiles_ne_nil := List.cons_ne_nil _ _
  rootFiles := []
  manifestVersion := some ['2']
  blocked := false
  fetch _ := .ok ['n']
  fault _ := .none
  build _ := some fun _ => none

def installed : Files := fun p =>
  if p = packagePath then some (.text ['1'])
  else if p = srcDir ++ ['i'] then some (.text ['o'])
  else none

/-- Behind the failed build the package file has the new version. -/
theorem failed_deploy_keeps_version :
    ¬ Restores installed ((DeployCommand.manifest stampedDeploy).process plainEnv installed) := by
  have hbegins : stampedDeploy.begins plainEnv = some [(srcDir ++ ['i'], ['n'])] := by decide
  intro h
  have hcovered := (manifest_restores_iff stampedDeploy).mp h _ hbegins
  have hspares := (hcovered.2 (fun _ _ => rfl) (fun _ => none) rfl).2 packagePath (by decide)
    (by decide)
  have hpackage := hspares.2.2 rfl ['2'] (.text ['1']) ['2'] rfl rfl rfl
  exact absurd hpackage (by decide)

end Rollback

end Memclaw.Plugin
