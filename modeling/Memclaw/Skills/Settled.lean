import Memclaw.Skills.Reconcile

/-! A directory in which nothing is left to do, and one in which everything can be done. -/

namespace Memclaw.Skills

open Memclaw.Lib

theorem writeIn_of_settled {mode : SkillTargetMode} {root : Path} {skill : String × String}
    {s : Session} (h : Spared mode s.tree (root ++ [skill.1]) ∨
      Placed mode s.tree (root ++ [skill.1]) skill.2) (r : DirReconcileResult) :
    ∃ r', writeIn mode root (s, r) skill = some (s, r') := by
  cases mode with
  | owned =>
    have hsame := (h.resolve_left fun hspared => absurd hspared.1 (by simp)).1
    refine ⟨r, ?_⟩
    show writeOwned root (s, r) skill = _
    rw [writeOwned]
    exact if_pos hsame
  | additive =>
    show ∃ r', writeAdditive root (s, r) skill = _
    rw [writeAdditive]
    rcases h with ⟨-, hhas, howned⟩ | ⟨hsame, howned⟩
    · rw [if_pos (by simp [hhas, howned])]
      exact ⟨_, rfl⟩
    · have hhas : s.tree.has (root ++ [skill.1]) = true := by
        rw [FileTree.has, dir_of_unchanged hsame]
        rfl
      rw [if_neg (by simp [howned rfl]), if_pos (by simp [hhas, hsame])]
      exact ⟨_, rfl⟩

theorem writes_of_settled {mode : SkillTargetMode} {root : Path} {skills : Desired} {s : Session}
    (h : ∀ d ∈ skills, Spared mode s.tree (root ++ [d.1]) ∨
      Placed mode s.tree (root ++ [d.1]) d.2) (r : DirReconcileResult) :
    ∃ r', skills.foldlM (writeIn mode root) (s, r) = some (s, r') := by
  induction skills generalizing r with
  | nil => exact ⟨r, rfl⟩
  | cons skill skills ih =>
    obtain ⟨r₁, hr₁⟩ := writeIn_of_settled (h skill List.mem_cons_self) r
    obtain ⟨r', hr'⟩ := ih (fun d hd => h d (List.mem_cons_of_mem _ hd)) r₁
    refine ⟨r', ?_⟩
    rw [List.foldlM_cons, hr₁]
    exact hr'

theorem openDir_of_dir {s : Session} {root : Path} (h : s.tree.get root = some .dir) :
    s.openDir root = some s := by
  have hhas : s.tree.has root = true := by
    rw [FileTree.has, h]
    rfl
  rw [Session.openDir, if_pos hhas]
  exact if_pos h

theorem reconcileTarget_of_settled {desired : Desired} {target : SkillTarget} {s : Session}
    (h : Settled desired target s.tree) : ∃ r, reconcileTarget desired target s = some (s, r) := by
  obtain ⟨root, mode, register⟩ := target
  have hnone : (s.tree.dirs root).filter (isOrphan mode root desired s.tree) = [] := by
    rw [List.filter_eq_nil_iff]
    intro name hname
    rw [h.pruned name (FileTree.mem_dirs.mp hname)]
    simp
  have hprune : ((s.tree.dirs root).foldl (pruneIn mode root desired)
      (s, ⟨[], [], [], [], []⟩)).1 = _ := prune_fst (s.tree.nodup_dirs root) s _
  rw [hnone] at hprune
  rw [reconcileTarget_eq, openDir_of_dir h.opened]
  dsimp only
  generalize (s.tree.dirs root).foldl (pruneIn mode root desired) (s, ⟨[], [], [], [], []⟩) = acc
    at hprune ⊢
  obtain ⟨s₁, r₁⟩ := acc
  obtain rfl : s₁ = s := hprune
  obtain ⟨r', hr'⟩ := writes_of_settled h.written
    { r₁ with installed := seed mode root desired s₁.tree (s₁.tree.dirs root) }
  refine ⟨r'.unprotected, ?_⟩
  dsimp only at hr' ⊢
  rw [hr']

theorem Settled.congr {desired : Desired} {target : SkillTarget} {t t' : FileTree}
    (h : SameBelow target.dir t t') (hs : Settled desired target t) :
    Settled desired target t' where
  opened := by rw [h _ (List.prefix_refl _), hs.opened]
  pruned name hname := by
    have hsame := h.mono (List.prefix_append target.dir [name])
    rw [hsame _ (List.prefix_refl _)] at hname
    rw [isOrphan_congr hsame, hs.pruned name hname]
  written d hd := by
    have hsame := h.mono (List.prefix_append target.dir [d.1])
    rw [hsame.spared, hsame.placed]
    exact hs.written d hd

theorem InstalledAt.congr {desired : Desired} {target : SkillTarget} {t t' : FileTree}
    (h : SameBelow target.dir t t') (slug : String) :
    InstalledAt desired target t' slug ↔ InstalledAt desired target t slug := by
  rw [InstalledAt, InstalledAt]
  simp only [(h.mono (List.prefix_append target.dir [slug])).placed]

theorem write_of_new {s : Session} {base : Path} {name text : String}
    (hbase : s.tree.get base = some .dir) (hnew : s.tree.get (base ++ [name]) = none) :
    ∃ s', s.write base name text = some s' := by
  obtain ⟨t, ht⟩ : ∃ t, s.tree.write base name text = some t :=
    FileTree.write_isSome hbase fun h => absurd (hnew.symm.trans h) (by simp)
  rw [Session.write, ht]
  exact ⟨_, rfl⟩

theorem mkdirs_of_way {s : Session} {p : Path}
    (hway : ∀ q text, q <+: p → s.tree.get q ≠ some (.file text)) : ∃ s', s.mkdirs p = some s' := by
  obtain ⟨t, ht⟩ := FileTree.mkdirs_isSome (FileTree.get_nil s.tree) hway
  rw [Session.mkdirs, ht]
  exact ⟨_, rfl⟩

theorem no_file_above {t : FileTree} {root q : Path} {name text : String}
    (hroot : t.get root = some .dir) (hnew : t.get (root ++ [name]) = none)
    (hq : q <+: root ++ [name]) : t.get q ≠ some (.file text) := by
  rcases List.prefix_concat_iff.mp hq with rfl | hq
  · simp [hnew]
  · simp [FileTree.dir_of_prefix hq hroot]

theorem writeIn_of_new {mode : SkillTargetMode} {root : Path} {skill : String × String}
    {s : Session} (r : DirReconcileResult) (hroot : s.tree.get root = some .dir)
    (hnew : s.tree.get (root ++ [skill.1]) = none) :
    ∃ s' r', writeIn mode root (s, r) skill = some (s', r') := by
  -- A skill without an entry can be written.
  have hfile := FileTree.child_none hnew
  cases mode with
  | owned =>
    show ∃ s' r', writeOwned root (s, r) skill = some (s', r')
    have hchanged : ¬ isUnchanged s.tree (root ++ [skill.1]) skill.2 = true := by
      rw [isUnchanged_iff, hfile]
      simp
    obtain ⟨s₁, hmkdirs⟩ := mkdirs_of_way fun q _ => no_file_above (q := q) hroot hnew
    have hget₁ := FileTree.get_mkdirs_child hroot (tree_of_mkdirs hmkdirs).1
    obtain ⟨s₂, hwrite⟩ : ∃ s₂, s₁.write (root ++ [skill.1]) SKILL_FILE skill.2 = some s₂ :=
      write_of_new (by rw [hget₁, if_pos rfl]) (by rw [hget₁, if_neg (by simp), hfile])
    rw [writeOwned]
    rw [if_neg hchanged, hmkdirs]
    dsimp only
    rw [hwrite]
    exact ⟨_, _, rfl⟩
  | additive =>
    show ∃ s' r', writeAdditive root (s, r) skill = some (s', r')
    have hhas : s.tree.has (root ++ [skill.1]) = false := by
      rw [FileTree.has, hnew]
      rfl
    obtain ⟨t, ht⟩ := FileTree.mkdir_isSome hroot hnew
    have hmkdir : s.mkdir root skill.1 = some ⟨t, s.ops ++ [.mkdir (root ++ [skill.1])]⟩ := by
      rw [Session.mkdir, ht]
    have hget₁ := FileTree.get_mkdir ht
    obtain ⟨s₂, hmarker⟩ : ∃ s₂, Session.write ⟨t, s.ops ++ [.mkdir (root ++ [skill.1])]⟩
        (root ++ [skill.1]) OWNED_MARKER OWNED_MARKER_BODY = some s₂ :=
      write_of_new (by rw [hget₁, if_pos rfl]) (by rw [hget₁, if_neg (by simp), hfile])
    have hget₂ := FileTree.get_write (tree_of_write hmarker).1
    have hclaim : claimDir root s skill.1 = some (some s₂) := by
      rw [claimDir]
      rw [if_neg (by simp [hhas]), hmkdir]
      dsimp only
      rw [hmarker]
      rfl
    obtain ⟨s₃, hwrite⟩ : ∃ s₃, s₂.write (root ++ [skill.1]) SKILL_FILE skill.2 = some s₃ :=
      write_of_new (by rw [hget₂, if_neg (by simp), hget₁, if_pos rfl])
      (by rw [hget₂, if_neg (by simp [SKILL_FILE, OWNED_MARKER]), hget₁, if_neg (by simp), hfile])
    rw [writeAdditive]
    rw [if_neg (by simp [hhas]), if_neg (by simp [hhas]), hclaim]
    dsimp only
    rw [hwrite]
    exact ⟨_, _, rfl⟩

theorem writes_of_new {mode : SkillTargetMode} {root : Path} {skills : Desired} {s : Session}
    (r : DirReconcileResult) (hskills : (skills.map Prod.fst).Nodup)
    (hroot : s.tree.get root = some .dir)
    (hnew : ∀ d ∈ skills, s.tree.get (root ++ [d.1]) = none) :
    ∃ s' r', skills.foldlM (writeIn mode root) (s, r) = some (s', r') := by
  induction skills generalizing s r with
  | nil => exact ⟨s, r, rfl⟩
  | cons skill skills ih =>
    rw [List.map_cons, List.nodup_cons] at hskills
    obtain ⟨s₁, r₁, hstep⟩ : ∃ s₁ r₁, writeIn mode root (s, r) skill = some (s₁, r₁) :=
      writeIn_of_new r hroot (hnew skill List.mem_cons_self)
    have hw := wrote_writeIn hroot hstep
    have hlater : ∀ d ∈ skills, s₁.tree.get (root ++ [d.1]) = none := by
      intro d hd
      rw [hw.elsewhere, hnew d (List.mem_cons_of_mem _ hd)]
      intro hbelow
      have heq := name_eq_of_below hbelow (List.prefix_refl _)
      exact hskills.1 (heq ▸ List.mem_map_of_mem hd)
    obtain ⟨s', r', hrest⟩ := ih r₁ hskills.2
      (by rw [hw.elsewhere root (not_above_root root _), hroot]) hlater
    refine ⟨s', r', ?_⟩
    rw [List.foldlM_cons, hstep]
    exact hrest

theorem reconcileTarget_of_new {desired : Desired} {target : SkillTarget} {s : Session}
    (hdesired : (desired.map Prod.fst).Nodup)
    (hway : ∀ q text, q <+: target.dir → s.tree.get q ≠ some (.file text))
    (hnew : ∀ name, s.tree.get (target.dir ++ [name]) = none) :
    ∃ s' r, reconcileTarget desired target s = some (s', r) := by
  -- A target that is empty, or not there, can be filled.
  obtain ⟨root, mode, register⟩ := target
  have hopen : ∃ s₁, s.openDir root = some s₁ := by
    cases hget : s.tree.get root with
    | none =>
      obtain ⟨s₁, hmkdirs⟩ := mkdirs_of_way hway
      have hdir := (FileTree.grown_mkdirs (FileTree.get_nil _) (tree_of_mkdirs hmkdirs).1).2
      have hhas : s.tree.has root = false := by
        rw [FileTree.has, hget]
        rfl
      rw [Session.openDir, if_neg (by simp [hhas]), hmkdirs]
      exact ⟨s₁, if_pos hdir⟩
    | some e =>
      cases e with
      | dir => exact ⟨s, openDir_of_dir hget⟩
      | file text => exact absurd hget (hway root text (List.prefix_refl _))
  obtain ⟨s₁, hopen⟩ := hopen
  obtain ⟨hroot₁, helse₁, -⟩ := openDir_spec hopen
  have hnew₁ : ∀ name, s₁.tree.get (root ++ [name]) = none := by
    intro name
    rw [helse₁ _ (not_above_root root name)]
    exact hnew name
  have hnone : s₁.tree.dirs root = [] := by
    rw [List.eq_nil_iff_forall_not_mem]
    intro name hname
    rw [FileTree.mem_dirs, hnew₁] at hname
    exact absurd hname (by simp)
  rw [reconcileTarget_eq, hopen]
  dsimp only
  rw [hnone, List.foldl_nil]
  dsimp only
  obtain ⟨s₂, r₂, hwrite⟩ : ∃ s₂ r₂, desired.foldlM (writeIn mode root)
      (s₁, ⟨[], [], [], seed mode root desired s₁.tree [], []⟩) = some (s₂, r₂) :=
    writes_of_new _ hdesired hroot₁ fun d _ => hnew₁ d.1
  rw [hwrite]
  exact ⟨_, _, rfl⟩

end Memclaw.Skills
