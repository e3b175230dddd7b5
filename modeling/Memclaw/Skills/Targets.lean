import Memclaw.Lib.Dict
import Memclaw.Skills.Settled

/-! The targets of a node, one after the other: what a run over all of them changes, that a
second run finds nothing to do, and which skills are reported as installed. -/

namespace Memclaw.Skills

open Memclaw.Lib

theorem map_fst_put (desired : Desired) (slug content : String) :
    (desired.put slug content).map Prod.fst =
      if slug ∈ desired.map Prod.fst then desired.map Prod.fst
      else desired.map Prod.fst ++ [slug] := by
  induction desired with
  | nil => rfl
  | cons d rest ih =>
    obtain ⟨s, c⟩ := d
    rw [Desired.put]
    by_cases hs : s = slug
    · simp [hs]
    · have hslug : ¬ slug = s := Ne.symm hs
      rw [if_neg hs, List.map_cons, ih]
      by_cases hmem : slug ∈ List.map Prod.fst rest
      · simp [hmem]
      · simp [hslug, hmem]

theorem nodup_desiredOf (catalog : List CatalogDoc) :
    ((desiredOf catalog).map Prod.fst).Nodup := by
  unfold desiredOf
  suffices h : ∀ desired : Desired, (desired.map Prod.fst).Nodup →
      ((catalog.foldl (fun desired doc =>
        if doc.installable then desired.put doc.slug doc.skillText else desired)
        desired).map Prod.fst).Nodup from h [] List.nodup_nil
  induction catalog with
  | nil => exact fun _ h => h
  | cons doc catalog ih =>
    intro desired hdesired
    refine ih _ ?_
    dsimp only
    split_ifs
    · rw [map_fst_put]
      split_ifs with hslug
      · exact hdesired
      · rw [← List.concat_eq_append]
        exact hdesired.concat hslug
    · exact hdesired

theorem missingDirs_eq_nil {home : Path} {present dirs : List String}
    (h : ∀ dir ∈ dirs, canonicalDir home dir ∈ present) : missingDirs home present dirs = [] := by
  induction dirs with
  | nil => rfl
  | cons dir dirs ih =>
    rw [missingDirs, if_pos (h dir List.mem_cons_self)]
    exact ih fun d hd => h d (List.mem_cons_of_mem _ hd)

theorem mem_missingDirs (home : Path) {present dirs : List String} {dir : String}
    (hdir : dir ∈ dirs) :
    canonicalDir home dir ∈ present ++ (missingDirs home present dirs).map (canonicalDir home) := by
  induction dirs generalizing present with
  | nil => exact absurd hdir List.not_mem_nil
  | cons first dirs ih =>
    rw [missingDirs]
    split_ifs with hpresent
    · rcases List.mem_cons.mp hdir with rfl | hdir
      · exact List.mem_append_left _ hpresent
      · exact ih hdir
    · rcases List.mem_cons.mp hdir with rfl | hdir
      · simp
      · rw [List.map_cons, List.append_cons]
        exact ih hdir

theorem innerObject_set (fields inner : Dict) (key : String) :
    innerObject (Dict.set fields key (.obj inner)) key = some inner := by
  rw [innerObject, Dict.get_set, if_pos rfl]

def wantedDirs (dirs : List String) : List String := unique (dirs.filter fun dir => trim dir ≠ "")

def extraDirs (load : Dict) : List Json :=
  match Dict.get load "extraDirs" with
  | .arr items => items
  | _ => []

def presentDirs (home : Path) (load : Dict) : List String :=
  ((extraDirs load).filterMap Json.asStr).map (canonicalDir home)

theorem ensureExtraSkillDirs_obj {home : Path} {dirs : List String} {fields skills load : Dict}
    (hwanted : wantedDirs dirs ≠ []) (hskills : innerObject fields "skills" = some skills)
    (hload : innerObject skills "load" = some load) :
    ensureExtraSkillDirs home dirs (some (.obj fields)) =
      let added := missingDirs home (presentDirs home load) (wantedDirs dirs)
      let alreadyPresent := (wantedDirs dirs).filter fun dir =>
        canonicalDir home dir ∈ presentDirs home load
      if added = [] then ⟨some (.obj fields), [], alreadyPresent, false⟩
      else
        let load := Dict.set load "extraDirs" (.arr (extraDirs load ++ added.map .str))
        ⟨some (.obj (Dict.set fields "skills" (.obj (Dict.set skills "load" (.obj load))))), added,
          alreadyPresent, false⟩ := by
  rw [ensureExtraSkillDirs]
  refine (if_neg hwanted).trans ?_
  dsimp only
  rw [hskills]
  dsimp only
  rw [hload]
  rfl

theorem presentDirs_set (home : Path) (load : Dict) (added : List String) :
    presentDirs home (Dict.set load "extraDirs" (.arr (extraDirs load ++ added.map .str))) =
      presentDirs home load ++ added.map (canonicalDir home) := by
  have hadded : (added.map Json.str).filterMap Json.asStr = added := by
    rw [List.filterMap_map]
    exact List.filterMap_some
  have hextra : ∀ items, extraDirs (Dict.set load "extraDirs" (.arr items)) = items := by
    intro items
    rw [extraDirs, Dict.get_set, if_pos rfl]
  rw [presentDirs, hextra, List.filterMap_append, hadded, List.map_append, presentDirs]

/-- A second registration finds every directory. -/
theorem ensureExtraSkillDirs_again (home : Path) (dirs : List String) (config : Option Json) :
    let reg := ensureExtraSkillDirs home dirs config
    (ensureExtraSkillDirs home dirs reg.config).config = reg.config ∧
      (ensureExtraSkillDirs home dirs reg.config).added = [] := by
  dsimp only
  -- where the configuration is not written, the second call is the first one again
  have hsame : ∀ reg : Registration, ensureExtraSkillDirs home dirs config = reg →
      reg.config = config → reg.added = [] →
      (ensureExtraSkillDirs home dirs reg.config).config = reg.config ∧
        (ensureExtraSkillDirs home dirs reg.config).added = [] := by
    intro reg hreg hconfig hadded
    rw [hconfig, hreg, hadded]
    exact ⟨hconfig, rfl⟩
  by_cases hwanted : wantedDirs dirs = []
  · have hreg : ensureExtraSkillDirs home dirs config = ⟨config, [], [], false⟩ := by
      unfold ensureExtraSkillDirs
      exact if_pos hwanted
    rw [hreg]
    exact hsame _ hreg rfl rfl
  by_cases hobj : ∃ fields skills load, config = some (.obj fields) ∧
      innerObject fields "skills" = some skills ∧ innerObject skills "load" = some load
  · obtain ⟨fields, skills, load, rfl, hskills, hload⟩ := hobj
    have hreg : ensureExtraSkillDirs home dirs (some (.obj fields)) = _ :=
      ensureExtraSkillDirs_obj hwanted hskills hload
    dsimp only at hreg
    split_ifs at hreg with hadded
    · rw [hreg]
      exact hsame _ hreg rfl rfl
    · have hall : ∀ dir ∈ wantedDirs dirs, canonicalDir home dir ∈
          presentDirs home load ++
            (missingDirs home (presentDirs home load) (wantedDirs dirs)).map (canonicalDir home) :=
        fun dir hdir => mem_missingDirs home hdir
      rw [hreg]
      dsimp only
      rw [ensureExtraSkillDirs_obj hwanted (innerObject_set ..) (innerObject_set ..),
        presentDirs_set]
      dsimp only
      rw [if_pos (missingDirs_eq_nil hall)]
      exact ⟨rfl, rfl⟩
  · have hreg : ensureExtraSkillDirs home dirs config = ⟨config, [], [], true⟩ := by
      unfold ensureExtraSkillDirs
      refine (if_neg hwanted).trans ?_
      split
      · rename_i fields
        split
        · rfl
        · rename_i skills hskills
          split
          · rfl
          · rename_i load hload
            exact absurd ⟨fields, skills, load, rfl, hskills, hload⟩ hobj
      · rfl
    rw [hreg]
    exact hsame _ hreg rfl rfl

/-- No target lies inside another. -/
def Apart (targets : List SkillTarget) : Prop :=
  targets.Pairwise fun a b => ¬ a.dir <+: b.dir ∧ ¬ b.dir <+: a.dir

theorem incomparable_below {a b q : Path} (hab : ¬ a <+: b) (hba : ¬ b <+: a) (hq : b <+: q) :
    ¬ a <+: q ∧ ¬ q <+: a := by
  refine ⟨fun haq => ?_, fun hqa => hba (hq.trans hqa)⟩
  rcases List.prefix_or_prefix_of_prefix haq hq with h | h
  · exact hab h
  · exact hba h

structure ReconciledAll (desired : Desired) (targets : List SkillTarget) (s s' : Session)
    (results : List TargetReconcileResult) : Prop where
  elsewhere : ∀ q, (∀ t ∈ targets, ¬ t.dir <+: q ∧ ¬ q <+: t.dir) → s'.tree.get q = s.tree.get q
  foreign : ∀ t ∈ targets, t.mode = .additive → ∀ name, Foreign s.tree (t.dir ++ [name]) →
    SameBelow (t.dir ++ [name]) s.tree s'.tree
  removals : ∀ p, .remove p ∈ s'.ops → .remove p ∈ s.ops ∨ ∃ t ∈ targets, ∃ name,
    p = t.dir ++ [name] ∧ name ∉ desired.map Prod.fst ∧ name ∉ PROTECTED_SKILLS ∧
      (t.mode = .additive → isMemclawOwned s.tree p = true)
  fresh : ∀ t ∈ targets, ∀ q, t.dir <+: q → q ≠ t.dir → s.tree.get q = none →
    (∀ d ∈ desired, q ∉ skillPaths t.dir d.1) → s'.tree.get q = none
  protectedKept : ∀ t ∈ targets, ∀ name ∈ PROTECTED_SKILLS, ∀ q, t.dir ++ [name] <+: q →
    s.tree.get q ≠ none → s'.tree.get q ≠ none
  settled : ∀ t ∈ targets, Settled desired t s'.tree
  installed : ∀ slug, (∃ x ∈ results, slug ∈ x.result.installed) ↔
    ∃ t ∈ targets, InstalledAt desired t s'.tree slug

theorem reconciledAll_targets {desired : Desired} {targets : List SkillTarget} {s s' : Session}
    {results : List TargetReconcileResult} (hdesired : (desired.map Prod.fst).Nodup)
    (hapart : Apart targets) (h : reconcileTargets desired targets s = some (s', results)) :
    ReconciledAll desired targets s s' results := by
  induction targets generalizing s results with
  | nil =>
    obtain ⟨rfl, rfl⟩ := Prod.mk.inj (Option.some.inj h)
    exact
      { elsewhere := fun _ _ => rfl
        foreign := fun _ ht => absurd ht List.not_mem_nil
        removals := fun _ h => .inl h
        fresh := fun _ ht => absurd ht List.not_mem_nil
        protectedKept := fun _ ht => absurd ht List.not_mem_nil
        settled := fun _ ht => absurd ht List.not_mem_nil
        installed := by simp }
  | cons target targets ih =>
    obtain ⟨hothers, hrest⟩ := List.pairwise_cons.mp hapart
    rw [reconcileTargets] at h
    split at h
    · exact absurd h (by simp)
    rename_i s₁ r hfirst
    split at h
    · exact absurd h (by simp)
    rename_i s₂ rs hlater
    obtain ⟨rfl, rfl⟩ := Prod.mk.inj (Option.some.inj h)
    have head := reconciled_target hdesired hfirst
    have tail := ih hrest hlater
    -- the first target does not touch the others, nor the others the first
    have hbefore : ∀ t ∈ targets, SameBelow t.dir s.tree s₁.tree := by
      intro t ht q hq
      obtain ⟨hdown, hup⟩ := incomparable_below (hothers t ht).1 (hothers t ht).2 hq
      exact head.elsewhere q hdown hup
    have hafter : SameBelow target.dir s₁.tree s₂.tree := fun q hq =>
      tail.elsewhere q fun t ht => incomparable_below (hothers t ht).2 (hothers t ht).1 hq
    refine
      { elsewhere := fun q hq => ?_
        foreign := fun t ht hmode name hforeign => ?_
        removals := fun p hp => ?_
        fresh := fun t ht q hq hne hnone hnew => ?_
        protectedKept := fun t ht name hname q hq hthere => ?_
        settled := fun t ht => ?_
        installed := fun slug => ?_ }
    · obtain ⟨hdown, hup⟩ := hq target List.mem_cons_self
      rw [tail.elsewhere q fun t ht => hq t (List.mem_cons_of_mem _ ht),
        head.elsewhere q hdown hup]
    · rcases List.mem_cons.mp ht with rfl | ht
      · exact (head.foreign hmode name hforeign).trans (hafter.mono (List.prefix_append _ _))
      · have hsame := (hbefore t ht).mono (List.prefix_append t.dir [name])
        exact hsame.trans (tail.foreign t ht hmode name (hsame.foreign.mpr hforeign))
    · rcases tail.removals p hp with hp | ⟨t, ht, name, rfl, hdesired, hname, howned⟩
      · rcases head.removals p hp with hp | hp
        · exact .inl hp
        · exact .inr ⟨target, List.mem_cons_self, hp⟩
      · refine .inr ⟨t, List.mem_cons_of_mem _ ht, name, rfl, hdesired, hname, fun hmode => ?_⟩
        rw [← ((hbefore t ht).mono (List.prefix_append t.dir [name])).owned]
        exact howned hmode
    · rcases List.mem_cons.mp ht with rfl | ht
      · rw [hafter q hq]
        exact head.fresh q hnone (fun hup => hne (hup.eq_of_length_le hq.length_le)) hnew
      · refine tail.fresh t ht q hq hne ?_ hnew
        rw [hbefore t ht q hq, hnone]
    · rcases List.mem_cons.mp ht with rfl | ht
      · rw [hafter q ((List.prefix_append _ _).trans hq)]
        exact head.protectedKept name hname q hq hthere
      · refine tail.protectedKept t ht name hname q hq ?_
        rw [hbefore t ht q ((List.prefix_append _ _).trans hq)]
        exact hthere
    · rcases List.mem_cons.mp ht with rfl | ht
      · exact head.settled.congr hafter
      · exact tail.settled t ht
    · rw [List.exists_mem_cons_iff, List.exists_mem_cons_iff, tail.installed, head.installed,
        InstalledAt.congr hafter]

theorem reconcileTargets_of_settled {desired : Desired} {targets : List SkillTarget} {s : Session}
    (h : ∀ t ∈ targets, Settled desired t s.tree) :
    ∃ results, reconcileTargets desired targets s = some (s, results) := by
  induction targets with
  | nil => exact ⟨[], rfl⟩
  | cons target targets ih =>
    obtain ⟨r, hr⟩ := reconcileTarget_of_settled (h target List.mem_cons_self)
    obtain ⟨rs, hrs⟩ := ih fun t ht => h t (List.mem_cons_of_mem _ ht)
    rw [reconcileTargets, hr]
    dsimp only
    rw [hrs]
    exact ⟨_, rfl⟩

theorem reconcileTargets_of_new {desired : Desired} {targets : List SkillTarget} {s : Session}
    (hdesired : (desired.map Prod.fst).Nodup) (hapart : Apart targets)
    (hway : ∀ t ∈ targets, ∀ q text, q <+: t.dir → s.tree.get q ≠ some (.file text))
    (hnew : ∀ t ∈ targets, ∀ name, s.tree.get (t.dir ++ [name]) = none) :
    ∃ s' results, reconcileTargets desired targets s = some (s', results) := by
  induction targets generalizing s with
  | nil => exact ⟨s, [], rfl⟩
  | cons target targets ih =>
    obtain ⟨hothers, hrest⟩ := List.pairwise_cons.mp hapart
    obtain ⟨s₁, r, hfirst⟩ := reconcileTarget_of_new hdesired (hway target List.mem_cons_self)
      (hnew target List.mem_cons_self)
    have head := reconciled_target hdesired hfirst
    obtain ⟨s', rs, hlater⟩ := ih (s := s₁) hrest
      (fun t ht q text hq => by
        by_cases hup : q <+: target.dir
        · rw [FileTree.dir_of_prefix hup head.settled.opened]
          simp
        · rw [head.elsewhere q (fun hdown => (hothers t ht).1 (hdown.trans hq)) hup]
          exact hway t (List.mem_cons_of_mem _ ht) q text hq)
      (fun t ht name => by
        obtain ⟨hdown, hup⟩ := incomparable_below (hothers t ht).1 (hothers t ht).2
          (List.prefix_append t.dir [name])
        rw [head.elsewhere _ hdown hup]
        exact hnew t (List.mem_cons_of_mem _ ht) name)
    rw [reconcileTargets, hfirst]
    dsimp only
    rw [hlater]
    exact ⟨_, _, rfl⟩

theorem mem_unique {texts : List String} {x : String} : x ∈ unique texts ↔ x ∈ texts := by
  unfold unique
  suffices h : ∀ acc : List String, x ∈ texts.foldl addSlug acc ↔ x ∈ acc ∨ x ∈ texts by
    simpa using h []
  induction texts with
  | nil => simp
  | cons text texts ih =>
    intro acc
    rw [List.foldl_cons, ih, mem_addSlug, List.mem_cons, or_assoc]

theorem mem_sortedSet {texts : List String} {x : String} : x ∈ sortedSet texts ↔ x ∈ texts := by
  rw [sortedSet, sorted, List.mem_insertionSort, mem_unique]

theorem mem_installed {catalog : List CatalogDoc} {results : List TargetReconcileResult}
    {dirs : List String} {slug : String} :
    slug ∈ (summarize catalog results dirs).installed ↔
      ∃ x ∈ results, slug ∈ x.result.installed := by
  rw [summarize, mem_sortedSet, List.mem_flatMap]

def registeredTargets (targets : List SkillTarget) : List String :=
  (targets.filter fun t => t.register).map fun t => renderPath t.dir

theorem reconcileSkills_eq_some {home : Path} {targets : List SkillTarget} {tenantId : String}
    {catalog : List CatalogDoc} {files : NodeFiles} {run : ReconcileRun} :
    reconcileSkills home targets (some tenantId) (some catalog) files = some run ↔
      ∃ s results,
        reconcileTargets (desiredOf catalog) targets ⟨files.tree, []⟩ = some (s, results) ∧
        let reg := ensureExtraSkillDirs home (registeredTargets targets) files.config
        run = ⟨⟨s.tree, reg.config⟩, s.ops ++ if reg.added = [] then [] else [.writeConfig],
          summarize catalog results (registeredDirs (registeredTargets targets) reg)⟩ := by
  unfold reconcileSkills
  dsimp only
  constructor
  · intro h
    split at h
    · exact absurd h (by simp)
    · rename_i s results hrun
      exact ⟨s, results, hrun, (Option.some.inj h).symm⟩
  · rintro ⟨s, results, hrun, rfl⟩
    rw [hrun]
    rfl

theorem reconciled_skills {home : Path} {targets : List SkillTarget} {tenantId : String}
    {catalog : List CatalogDoc} {files : NodeFiles} {run : ReconcileRun} (hapart : Apart targets)
    (h : reconcileSkills home targets (some tenantId) (some catalog) files = some run) :
    ∃ results, ReconciledAll (desiredOf catalog) targets ⟨files.tree, []⟩ ⟨run.files.tree, run.ops⟩
        results ∧ ∀ slug, slug ∈ run.summary.installed ↔
          ∃ t ∈ targets, InstalledAt (desiredOf catalog) t run.files.tree slug := by
  obtain ⟨s, results, hrun, rfl⟩ := reconcileSkills_eq_some.mp h
  have hall := reconciledAll_targets (nodup_desiredOf catalog) hapart hrun
  refine ⟨results, { hall with removals := fun p hp => hall.removals p ?_ }, fun slug => ?_⟩
  · rcases List.mem_append.mp hp with hp | hp
    · exact hp
    · split_ifs at hp
      · exact absurd hp List.not_mem_nil
      · exact absurd (List.mem_singleton.mp hp) (by simp)
  · rw [mem_installed, hall.installed]

theorem reconcileSkills_again {home : Path} {targets : List SkillTarget} (tenantId : String)
    {catalog : List CatalogDoc} {files : NodeFiles} {run : ReconcileRun} (hapart : Apart targets)
    (h : reconcileSkills home targets (some tenantId) (some catalog) files = some run) :
    ∃ again, reconcileSkills home targets (some tenantId) (some catalog) run.files = some again ∧
      again.ops = [] ∧ again.files = run.files := by
  obtain ⟨_, hall, _⟩ := reconciled_skills hapart h
  obtain ⟨s, results, hrun, rfl⟩ := reconcileSkills_eq_some.mp h
  obtain ⟨rs, hrs⟩ := reconcileTargets_of_settled (s := ⟨s.tree, []⟩) hall.settled
  obtain ⟨hconfig, hadded⟩ :=
    ensureExtraSkillDirs_again home (registeredTargets targets) files.config
  refine ⟨_, reconcileSkills_eq_some.mpr ⟨_, rs, hrs, rfl⟩, ?_, ?_⟩
  · dsimp only
    rw [if_pos hadded]
    rfl
  · dsimp only
    rw [hconfig]

/-- A run over targets that lie apart leaves foreign entries and protected skills alone, removes
its own orphans only, and reports the skills that are on disk as the catalog has them and its own.
The next one with the same catalog has nothing to do. -/
theorem run_settles {home ownedDir cwd : Path} {configured : Option Json} {tenantId : String}
    {catalog : List CatalogDoc} {files : NodeFiles} {run : ReconcileRun}
    (hapart : Apart (resolveSkillTargets ownedDir cwd configured))
    (hrun : reconcileSkills home (resolveSkillTargets ownedDir cwd configured) (some tenantId)
      (some catalog) files = some run) :
    let targets := resolveSkillTargets ownedDir cwd configured
    (∀ t ∈ targets, t.mode = .additive → ∀ name, Foreign files.tree (t.dir ++ [name]) →
      SameBelow (t.dir ++ [name]) files.tree run.files.tree) ∧
    (∀ p, .remove p ∈ run.ops → ∃ t ∈ targets, ∃ name, p = t.dir ++ [name] ∧
      name ∉ PROTECTED_SKILLS ∧ (t.mode = .additive → isMemclawOwned files.tree p = true)) ∧
    (∀ t ∈ targets, ∀ name ∈ PROTECTED_SKILLS, ∀ q, t.dir ++ [name] <+: q →
      files.tree.get q ≠ none → run.files.tree.get q ≠ none) ∧
    (∀ slug, slug ∈ run.summary.installed ↔
      ∃ t ∈ targets, InstalledAt (desiredOf catalog) t run.files.tree slug) ∧
    ∃ again, reconcileSkills home targets (some tenantId) (some catalog) run.files = some again ∧
      again.ops = [] ∧ again.files = run.files ∧
      ∀ slug, slug ∈ again.summary.installed ↔ slug ∈ run.summary.installed := by
  obtain ⟨results, hall, hinstalled⟩ := reconciled_skills hapart hrun
  obtain ⟨again, hagain, hops, hfiles⟩ := reconcileSkills_again tenantId hapart hrun
  obtain ⟨-, -, hinstalled'⟩ := reconciled_skills hapart hagain
  refine ⟨hall.foreign, fun p hp => ?_, hall.protectedKept, hinstalled, again, hagain, hops, hfiles,
    fun slug => ?_⟩
  · obtain ⟨t, ht, name, hp, -, hname⟩ := (hall.removals p hp).resolve_left List.not_mem_nil
    exact ⟨t, ht, name, hp, hname⟩
  · rw [hinstalled', hinstalled, hfiles]

instance (targets : List SkillTarget) : Decidable (Apart targets) :=
  inferInstanceAs (Decidable (targets.Pairwise _))

def withFile (t : FileTree) (dir : Path) (name text : String) : FileTree :=
  ((t.mkdirs [] dir).bind fun t => t.write dir name text).getD t

def sharedNode : FileTree :=
  withFile (withFile (withFile .empty ["shared", "skills", "mine"] SKILL_FILE "mine")
    ["shared", "skills", "old"] OWNED_MARKER OWNED_MARKER_BODY)
    ["plugin", "skills", "stale"] SKILL_FILE "stale"

def sharedTarget (dir : String) : Option Json :=
  some (.arr [.obj [("dir", .str dir), ("mode", .str "additive"), ("register", .bool true)]])

def plainDoc (slug : String) : CatalogDoc :=
  ⟨some slug, [("content", .str "Run it."), ("description", .str "Deploys")]⟩

def plainRun (configured : Option Json) (slug : String) (files : NodeFiles) : Option ReconcileRun :=
  reconcileSkills ["home"] (resolveSkillTargets ["plugin", "skills"] ["srv"] configured)
    (some "acme") (some [plainDoc slug]) files

theorem run_settles_shared :
    ∃ run, plainRun (sharedTarget "/shared/skills") "deploy" ⟨sharedNode, some (.obj [])⟩ =
        some run ∧
      run.summary.installed = ["deploy"] ∧ run.summary.removed = ["old", "stale"] ∧
      SameBelow ["shared", "skills", "mine"] sharedNode run.files.tree ∧
      ∃ again, plainRun (sharedTarget "/shared/skills") "deploy" run.files = some again ∧
        again.ops = [] ∧ again.files = run.files := by
  obtain ⟨run, hrun⟩ : ∃ run, plainRun (sharedTarget "/shared/skills") "deploy"
      ⟨sharedNode, some (.obj [])⟩ = some run := Option.isSome_iff_exists.mp (by decide)
  have hreport : ∀ run ∈ plainRun (sharedTarget "/shared/skills") "deploy"
      ⟨sharedNode, some (.obj [])⟩,
      run.summary.installed = ["deploy"] ∧ run.summary.removed = ["old", "stale"] := by
    decide
  obtain ⟨hforeign, -, -, -, again, hagain, hops, hfiles, -⟩ :=
    run_settles (by decide) hrun
  refine ⟨run, hrun, (hreport run hrun).1, (hreport run hrun).2, ?_, again, hagain, hops, hfiles⟩
  exact hforeign ⟨["shared", "skills"], .additive, true⟩ (by decide) rfl "mine"
    (by decide)

def nestedNode : FileTree :=
  withFile .empty ["plugin", "skills", "shared", "mine"] SKILL_FILE "mine"

def Present (desired : Desired) (targets : List SkillTarget) (tree : FileTree) (slug : String) :
    Prop :=
  ∃ content, (slug, content) ∈ desired ∧
    ∃ t ∈ targets, isUnchanged tree (t.dir ++ [slug]) content = true

/-- The bundled skill is never reported as installed, also where the catalog has it; and a shared
directory inside the plugin's own is removed as an orphan, with what is foreign in it. -/
theorem not_settles_bundled :
    (¬ ∀ (home ownedDir cwd : Path) (configured : Option Json) (tenantId : String)
      (catalog : List CatalogDoc) (files : NodeFiles) (run : ReconcileRun),
      reconcileSkills home (resolveSkillTargets ownedDir cwd configured) (some tenantId)
        (some catalog) files = some run →
      ∀ slug, slug ∈ run.summary.installed ↔ Present (desiredOf catalog)
        (resolveSkillTargets ownedDir cwd configured) run.files.tree slug) ∧
    ¬ ∀ (home ownedDir cwd : Path) (configured : Option Json) (tenantId : String)
      (catalog : List CatalogDoc) (files : NodeFiles) (run : ReconcileRun),
      reconcileSkills home (resolveSkillTargets ownedDir cwd configured) (some tenantId)
        (some catalog) files = some run →
      ∀ t ∈ resolveSkillTargets ownedDir cwd configured, t.mode = .additive →
        ∀ name, Foreign files.tree (t.dir ++ [name]) →
          SameBelow (t.dir ++ [name]) files.tree run.files.tree := by
  constructor
  · intro h
    obtain ⟨run, hrun⟩ : ∃ run, plainRun none "memclaw" ⟨.empty, none⟩ = some run :=
      Option.isSome_iff_exists.mp (by decide)
    have hreport : ∀ run ∈ plainRun none "memclaw" ⟨.empty, none⟩,
        "memclaw" ∉ run.summary.installed ∧
          isUnchanged run.files.tree ["plugin", "skills", "memclaw"]
            (plainDoc "memclaw").skillText = true := by decide
    obtain ⟨hnot, hplaced⟩ := hreport run hrun
    refine hnot ((h _ _ _ _ _ _ _ _ hrun "memclaw").mpr ?_)
    exact ⟨(plainDoc "memclaw").skillText, by decide, ⟨["plugin", "skills"], .owned, false⟩,
      List.mem_cons_self, hplaced⟩
  · intro h
    obtain ⟨run, hrun⟩ : ∃ run, plainRun (sharedTarget "/plugin/skills/shared") "deploy"
        ⟨nestedNode, none⟩ = some run := Option.isSome_iff_exists.mp (by decide)
    have hgone : ∀ run ∈ plainRun (sharedTarget "/plugin/skills/shared") "deploy"
        ⟨nestedNode, none⟩, run.files.tree.get ["plugin", "skills", "shared", "mine"] ≠
          nestedNode.get ["plugin", "skills", "shared", "mine"] := by decide
    refine hgone run hrun (h _ _ _ _ _ _ _ _ hrun
      ⟨["plugin", "skills", "shared"], .additive, true⟩ (by decide) rfl "mine"
      (by decide) _ (List.prefix_refl _))

end Memclaw.Skills
