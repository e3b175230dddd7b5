import Memclaw.Skills.ReconcileDefs

/-! What the reconciliation of one directory leaves in it. An owned and a shared directory go
through the same three stages: the directory is opened, orphans are removed, and the desired
skills are written. -/

namespace Memclaw.Skills

open Memclaw.Lib

theorem name_eq_of_below {root q : Path} {n m : String} (hn : root ++ [n] <+: q)
    (hm : root ++ [m] <+: q) : n = m := by
  have hle : (root ++ [n]).length ≤ (root ++ [m]).length := by simp
  have heq := (List.prefix_of_prefix_length_le hn hm hle).eq_of_length (by simp)
  simpa using heq

theorem not_above_root (root : Path) (name : String) : ¬ root ++ [name] <+: root := by
  intro h
  have hlen := h.length_le
  rw [List.length_append, List.length_singleton] at hlen
  omega

def SameBelow (p : Path) (t t' : FileTree) : Prop := ∀ q, p <+: q → t'.get q = t.get q

theorem SameBelow.refl (p : Path) (t : FileTree) : SameBelow p t t := fun _ _ => rfl

theorem SameBelow.trans {p : Path} {t₁ t₂ t₃ : FileTree} (h : SameBelow p t₁ t₂)
    (h' : SameBelow p t₂ t₃) : SameBelow p t₁ t₃ := fun q hq => (h' q hq).trans (h q hq)

theorem SameBelow.mono {p p' : Path} {t t' : FileTree} (h : SameBelow p t t') (hp : p <+: p') :
    SameBelow p' t t' := fun q hq => h q (hp.trans hq)

theorem SameBelow.has {p : Path} {t t' : FileTree} (h : SameBelow p t t') :
    t'.has p = t.has p := by
  rw [FileTree.has, FileTree.has, h p (List.prefix_refl p)]

theorem SameBelow.owned {p : Path} {t t' : FileTree} (h : SameBelow p t t') :
    isMemclawOwned t' p = isMemclawOwned t p := by
  rw [isMemclawOwned, isMemclawOwned, (h.mono (List.prefix_append p _)).has]

theorem SameBelow.unchanged {p : Path} {t t' : FileTree} (h : SameBelow p t t') (content : String) :
    isUnchanged t' p content = isUnchanged t p content := by
  rw [isUnchanged, isUnchanged, h _ (List.prefix_append p _)]

theorem isUnchanged_iff {tree : FileTree} {skillDir : Path} {content : String} :
    isUnchanged tree skillDir content = true ↔
      tree.get (skillDir ++ [SKILL_FILE]) = some (.file content) := decide_eq_true_iff

theorem dir_of_unchanged {tree : FileTree} {skillDir : Path} {content : String}
    (h : isUnchanged tree skillDir content = true) : tree.get skillDir = some .dir := by
  refine FileTree.dir_of_child (?_ : tree.get (skillDir ++ [SKILL_FILE]) ≠ none)
  rw [isUnchanged_iff.mp h]
  simp

/-- Something is there that the reconciler did not make. -/
def Foreign (tree : FileTree) (skillDir : Path) : Prop :=
  tree.has skillDir = true ∧ isMemclawOwned tree skillDir = false

instance (tree : FileTree) (skillDir : Path) : Decidable (Foreign tree skillDir) :=
  inferInstanceAs (Decidable (_ ∧ _))

theorem SameBelow.foreign {p : Path} {t t' : FileTree} (h : SameBelow p t t') :
    Foreign t' p ↔ Foreign t p := by
  rw [Foreign, Foreign, h.has, h.owned]

section Mode

variable (mode : SkillTargetMode) (skillsRoot : Path) (desired : Desired)

def pruneIn : Session × DirReconcileResult → String → Session × DirReconcileResult :=
  match mode with
  | .owned => pruneOwned skillsRoot desired
  | .additive => pruneAdditive skillsRoot desired

def writeIn : Session × DirReconcileResult → String × String →
    Option (Session × DirReconcileResult) :=
  match mode with
  | .owned => writeOwned skillsRoot
  | .additive => writeAdditive skillsRoot

def seed (tree : FileTree) (onDisk : List String) : List String :=
  match mode with
  | .owned => onDisk.filter fun slug => desired.has slug
  | .additive => onDisk.filter fun slug =>
      desired.has slug && isMemclawOwned tree (skillsRoot ++ [slug])

/-- What is removed. -/
def isOrphan (tree : FileTree) (slug : String) : Bool :=
  !desired.has slug && (slug ∉ PROTECTED_SKILLS : Bool) &&
    (mode = .owned || isMemclawOwned tree (skillsRoot ++ [slug]))

theorem reconcileTarget_eq (register : Bool) (s : Session) :
    reconcileTarget desired ⟨skillsRoot, mode, register⟩ s =
      match s.openDir skillsRoot with
      | none => none
      | some s =>
        let onDisk := s.tree.dirs skillsRoot
        let (s, r) := onDisk.foldl (pruneIn mode skillsRoot desired) (s, ⟨[], [], [], [], []⟩)
        match desired.foldlM (writeIn mode skillsRoot)
            (s, { r with installed := seed mode skillsRoot desired s.tree onDisk }) with
        | none => none
        | some (s, r) => some (s, r.unprotected) := by
  cases mode <;> rfl

end Mode

def Session.removeAll (s : Session) (root : Path) (names : List String) : Session :=
  names.foldl (fun s name => s.remove (root ++ [name])) s

theorem get_removeAll (s : Session) (root : Path) (names : List String) (q : Path) :
    (s.removeAll root names).tree.get q =
      if ∃ n ∈ names, root ++ [n] <+: q then none else s.tree.get q := by
  induction names generalizing s with
  | nil => simp [Session.removeAll]
  | cons name names ih =>
    have hstep : s.removeAll root (name :: names) =
        (s.remove (root ++ [name])).removeAll root names := rfl
    have hget : (s.remove (root ++ [name])).tree.get q =
        if root ++ [name] <+: q then none else s.tree.get q := FileTree.get_remove (by simp) q
    rw [hstep, ih, hget]
    by_cases hname : root ++ [name] <+: q
    · simp [hname]
    · simp [hname]

theorem ops_removeAll (s : Session) (root : Path) (names : List String) :
    (s.removeAll root names).ops = s.ops ++ names.map fun n => .remove (root ++ [n]) := by
  induction names generalizing s with
  | nil => simp [Session.removeAll]
  | cons name names ih =>
    have hstep : s.removeAll root (name :: names) =
        (s.remove (root ++ [name])).removeAll root names := rfl
    have hops : (s.remove (root ++ [name])).ops = s.ops ++ [.remove (root ++ [name])] := rfl
    rw [hstep, ih, hops]
    simp

theorem sameBelow_removeAll (s : Session) {root : Path} {names : List String} {name : String}
    (h : name ∉ names) : SameBelow (root ++ [name]) s.tree (s.removeAll root names).tree := by
  intro q hq
  rw [get_removeAll, if_neg]
  rintro ⟨n, hn, hnq⟩
  exact h (name_eq_of_below hnq hq ▸ hn)

section Prune

variable {mode : SkillTargetMode} {root : Path} {desired : Desired}

theorem pruneIn_fst (s : Session) (r : DirReconcileResult) (slug : String) :
    (pruneIn mode root desired (s, r) slug).1 =
      if isOrphan mode root desired s.tree slug then s.remove (root ++ [slug]) else s := by
  cases mode with
  | owned =>
    show (pruneOwned root desired (s, r) slug).1 = _
    rw [pruneOwned, isOrphan]
    by_cases hdesired : desired.has slug = true <;> by_cases hprotected : slug ∈ PROTECTED_SKILLS
    all_goals simp [hdesired, hprotected]
  | additive =>
    show (pruneAdditive root desired (s, r) slug).1 = _
    rw [pruneAdditive, isOrphan]
    by_cases hdesired : desired.has slug = true <;> by_cases hprotected : slug ∈ PROTECTED_SKILLS <;>
      by_cases howned : isMemclawOwned s.tree (root ++ [slug]) = true
    all_goals simp [hdesired, hprotected, howned]

theorem isOrphan_congr {t t' : FileTree} {slug : String} (h : SameBelow (root ++ [slug]) t t') :
    isOrphan mode root desired t' slug = isOrphan mode root desired t slug := by
  rw [isOrphan, isOrphan, h.owned]

theorem prune_fst {names : List String} (hnames : names.Nodup) (s : Session)
    (r : DirReconcileResult) :
    (names.foldl (pruneIn mode root desired) (s, r)).1 =
      s.removeAll root (names.filter (isOrphan mode root desired s.tree)) := by
  -- The orphans are those of the tree before anything is removed.
  induction names generalizing s r with
  | nil => rfl
  | cons name names ih =>
    obtain ⟨hname, hnames⟩ := List.nodup_cons.mp hnames
    have hfst : (pruneIn mode root desired (s, r) name).1 = _ := pruneIn_fst s r name
    rw [List.foldl_cons, List.filter_cons]
    generalize pruneIn mode root desired (s, r) name = acc at hfst
    obtain ⟨s', r'⟩ := acc
    rw [ih hnames]
    dsimp only at hfst
    split_ifs at hfst ⊢ with horphan
    · have hrest : names.filter (isOrphan mode root desired s'.tree) =
          names.filter (isOrphan mode root desired s.tree) := by
        refine List.filter_congr fun n hn => isOrphan_congr fun q hq => ?_
        rw [hfst]
        refine (FileTree.get_remove (by simp) q).trans (if_neg fun hnq => ?_)
        exact hname (name_eq_of_below hnq hq ▸ hn)
      rw [hrest, hfst]
      rfl
    · rw [hfst]

end Prune

/-- A shared directory's entry that the reconciler leaves alone. -/
def Spared (mode : SkillTargetMode) (tree : FileTree) (skillDir : Path) : Prop :=
  mode = .additive ∧ Foreign tree skillDir

def Placed (mode : SkillTargetMode) (tree : FileTree) (skillDir : Path) (content : String) : Prop :=
  isUnchanged tree skillDir content = true ∧
    (mode = .additive → isMemclawOwned tree skillDir = true)

theorem SameBelow.spared {mode : SkillTargetMode} {p : Path} {t t' : FileTree}
    (h : SameBelow p t t') : Spared mode t' p ↔ Spared mode t p := by
  rw [Spared, Spared, h.foreign]

theorem SameBelow.placed {mode : SkillTargetMode} {p : Path} {t t' : FileTree}
    (h : SameBelow p t t') (content : String) :
    Placed mode t' p content ↔ Placed mode t p content := by
  rw [Placed, Placed, h.unchanged, h.owned]

def skillPaths (root : Path) (slug : String) : List Path :=
  [root ++ [slug], root ++ [slug] ++ [SKILL_FILE], root ++ [slug] ++ [OWNED_MARKER]]

theorem mem_skillPaths_of_below {root q : Path} {slug : String} (h : q ∈ skillPaths root slug) :
    root ++ [slug] <+: q := by
  simp only [skillPaths, List.mem_cons, List.not_mem_nil, or_false] at h
  rcases h with rfl | rfl | rfl
  · exact List.prefix_refl _
  · exact List.prefix_append _ _
  · exact List.prefix_append _ _

structure Wrote (mode : SkillTargetMode) (root : Path) (skill : String × String) (s : Session)
    (r : DirReconcileResult) (s' : Session) (r' : DirReconcileResult) : Prop where
  untouched : ∀ q, q ∉ skillPaths root skill.1 → s'.tree.get q = s.tree.get q
  kept : ∀ q, s.tree.get q ≠ none → s'.tree.get q ≠ none
  spared : Spared mode s.tree (root ++ [skill.1]) → SameBelow (root ++ [skill.1]) s.tree s'.tree
  placed : ¬ Spared mode s.tree (root ++ [skill.1]) →
    Placed mode s'.tree (root ++ [skill.1]) skill.2
  removals : ∀ p, .remove p ∈ s'.ops → .remove p ∈ s.ops
  grows : ∀ slug ∈ r.installed, slug ∈ r'.installed
  only : ∀ slug ∈ r'.installed,
    slug ∈ r.installed ∨ (slug = skill.1 ∧ ¬ Spared mode s.tree (root ++ [skill.1]))
  reported : ¬ Spared mode s.tree (root ++ [skill.1]) → skill.1 ∈ r'.installed ∨
    (mode = .owned ∧ s.tree.get (root ++ [skill.1]) = some .dir)

theorem Wrote.elsewhere {mode : SkillTargetMode} {root : Path} {skill : String × String}
    {s s' : Session} {r r' : DirReconcileResult} (h : Wrote mode root skill s r s' r') (q : Path)
    (hq : ¬ root ++ [skill.1] <+: q) : s'.tree.get q = s.tree.get q :=
  h.untouched q fun hmem => hq (mem_skillPaths_of_below hmem)

theorem mem_addSlug {slugs : List String} {slug x : String} :
    x ∈ addSlug slugs slug ↔ x ∈ slugs ∨ x = slug := by
  unfold addSlug
  split_ifs with h
  · rw [iff_self_or]
    rintro rfl
    exact h
  · simp

theorem tree_of_write {s s' : Session} {base : Path} {name text : String}
    (h : s.write base name text = some s') :
    s.tree.write base name text = some s'.tree ∧ s'.ops = s.ops ++ [.write (base ++ [name]) text] := by
  unfold Session.write at h
  split at h
  · exact absurd h (by simp)
  · rename_i tree htree
    rw [← Option.some.inj h]
    exact ⟨htree, rfl⟩

theorem tree_of_mkdirs {s s' : Session} {p : Path} (h : s.mkdirs p = some s') :
    s.tree.mkdirs [] p = some s'.tree ∧ s'.ops = s.ops ++ [.mkdir p] := by
  unfold Session.mkdirs at h
  split at h
  · exact absurd h (by simp)
  · rename_i tree htree
    rw [← Option.some.inj h]
    exact ⟨htree, rfl⟩

theorem tree_of_mkdir {s s' : Session} {base : Path} {name : String}
    (h : s.mkdir base name = some s') :
    s.tree.mkdir base name = some s'.tree ∧ s'.ops = s.ops ++ [.mkdir (base ++ [name])] := by
  unfold Session.mkdir at h
  split at h
  · exact absurd h (by simp)
  · rename_i tree htree
    rw [← Option.some.inj h]
    exact ⟨htree, rfl⟩

section Write

variable {root : Path} {skill : String × String} {s s' : Session} {r r' : DirReconcileResult}

/-- The skill's directory, with its file in it and other files as they were or new. -/
theorem Wrote.of_file {mode : SkillTargetMode}
    (hspared : ¬ Spared mode s.tree (root ++ [skill.1]))
    (hfile : s'.tree.get (root ++ [skill.1] ++ [SKILL_FILE]) = some (.file skill.2))
    (helse : ∀ q, q ∉ skillPaths root skill.1 → s'.tree.get q = s.tree.get q)
    (hkept : ∀ q, s.tree.get q ≠ none → s'.tree.get q ≠ none)
    (hmarker : mode = .additive → isMemclawOwned s'.tree (root ++ [skill.1]) = true)
    (hops : ∀ p, .remove p ∈ s'.ops → .remove p ∈ s.ops)
    (hinstalled : r'.installed = addSlug r.installed skill.1) :
    Wrote mode root skill s r s' r' where
  untouched := helse
  kept := hkept
  spared h := absurd h hspared
  placed _ := ⟨isUnchanged_iff.mpr hfile, hmarker⟩
  removals := hops
  grows slug h := by
    rw [hinstalled, mem_addSlug]
    exact .inl h
  only slug h := by
    rw [hinstalled, mem_addSlug] at h
    exact h.imp_right fun h => ⟨h, hspared⟩
  reported _ := by
    rw [hinstalled, mem_addSlug]
    exact .inl (.inr rfl)

theorem wrote_owned (hroot : s.tree.get root = some .dir)
    (h : writeOwned root (s, r) skill = some (s', r')) : Wrote .owned root skill s r s' r' := by
  have hspared : ¬ Spared .owned s.tree (root ++ [skill.1]) := fun h => absurd h.1 (by simp)
  unfold writeOwned at h
  dsimp only at h
  split_ifs at h with hsame
  · obtain ⟨rfl, rfl⟩ := Prod.mk.inj (Option.some.inj h)
    exact
      { untouched := fun _ _ => rfl
        kept := fun _ h => h
        spared := fun _ => .refl _ _
        placed := fun _ => ⟨hsame, fun h => absurd h (by simp)⟩
        removals := fun _ h => h
        grows := fun _ h => h
        only := fun _ h => .inl h
        reported := fun _ => .inr ⟨rfl, dir_of_unchanged hsame⟩ }
  · split at h
    · exact absurd h (by simp)
    · rename_i s₁ hmkdirs
      split at h
      · exact absurd h (by simp)
      · rename_i s₂ hwrite
        obtain ⟨rfl, rfl⟩ := Prod.mk.inj (Option.some.inj h)
        obtain ⟨htree₁, hops₁⟩ := tree_of_mkdirs hmkdirs
        obtain ⟨htree₂, hops₂⟩ := tree_of_write hwrite
        have hget₁ := FileTree.get_mkdirs_child hroot htree₁
        have hget₂ := FileTree.get_write htree₂
        refine .of_file hspared (by rw [hget₂, if_pos rfl]) (fun q hq => ?_) (fun q hq => ?_)
          (fun h => absurd h (by simp)) (fun p hp => ?_) rfl
        · rw [hget₂, if_neg, hget₁, if_neg]
          · rintro rfl
            exact hq (by simp [skillPaths])
          · rintro rfl
            exact hq (by simp [skillPaths])
        · rw [hget₂, hget₁]
          split_ifs
          · simp
          · simp
          · exact hq
        · rw [hops₂, hops₁] at hp
          simpa using hp

/-- A directory is claimed when it is the reconciler's own already, or when it is new. -/
theorem claimDir_cases {c : Option Session}
    (hforeign : ¬ Foreign s.tree (root ++ [skill.1])) (h : claimDir root s skill.1 = some c) :
    ∃ s₁, c = some s₁ ∧ (∀ q, q ∉ skillPaths root skill.1 → s₁.tree.get q = s.tree.get q) ∧
      (∀ q, s.tree.get q ≠ none → s₁.tree.get q ≠ none) ∧
      isMemclawOwned s₁.tree (root ++ [skill.1]) = true ∧
      ∀ p, .remove p ∈ s₁.ops → .remove p ∈ s.ops := by
  unfold claimDir at h
  dsimp only at h
  split_ifs at h with hhas howned hmarker
  · exact absurd ⟨hhas, by simpa using howned⟩ hforeign
  · refine ⟨s, (Option.some.inj h).symm, fun _ _ => rfl, fun _ h => h, by simpa using howned,
      fun _ h => h⟩
  · exact absurd hmarker (by simpa [isMemclawOwned] using howned)
  · split at h
    · exact absurd h (by simp)
    · rename_i s₀ hmkdir
      obtain ⟨s₁, hwrite, rfl⟩ := Option.map_eq_some_iff.mp h
      obtain ⟨htree₀, hops₀⟩ := tree_of_mkdir hmkdir
      obtain ⟨htree₁, hops₁⟩ := tree_of_write hwrite
      have hget₀ := FileTree.get_mkdir htree₀
      have hget₁ := FileTree.get_write htree₁
      refine ⟨s₁, rfl, fun q hq => ?_, fun q hq => ?_, ?_, fun p hp => ?_⟩
      · rw [hget₁, if_neg, hget₀, if_neg]
        · rintro rfl
          exact hq (by simp [skillPaths])
        · rintro rfl
          exact hq (by simp [skillPaths])
      · rw [hget₁, hget₀]
        split_ifs
        · simp
        · simp
        · exact hq
      · rw [isMemclawOwned, FileTree.has, hget₁, if_pos rfl]
        rfl
      · rw [hops₁, hops₀] at hp
        simpa using hp

theorem wrote_additive (h : writeAdditive root (s, r) skill = some (s', r')) :
    Wrote .additive root skill s r s' r' := by
  unfold writeAdditive at h
  dsimp only at h
  split_ifs at h with hcollision hsame
  · obtain ⟨rfl, rfl⟩ := Prod.mk.inj (Option.some.inj h)
    have hspared : Spared .additive s.tree (root ++ [skill.1]) :=
      ⟨rfl, by simpa [Foreign] using hcollision⟩
    exact
      { untouched := fun _ _ => rfl
        kept := fun _ h => h
        spared := fun _ => .refl _ _
        placed := fun h => absurd hspared h
        removals := fun _ h => h
        grows := fun _ h => h
        only := fun _ h => .inl h
        reported := fun h => absurd hspared h }
  · obtain ⟨rfl, rfl⟩ := Prod.mk.inj (Option.some.inj h)
    obtain ⟨hhas, hsame⟩ := Bool.and_eq_true_iff.mp hsame
    have howned : isMemclawOwned s.tree (root ++ [skill.1]) = true := by
      simpa [hhas] using hcollision
    refine .of_file (fun h => absurd h.2.2 (by simp [howned])) (isUnchanged_iff.mp hsame)
      (fun _ _ => rfl) (fun _ h => h) (fun _ => howned) (fun _ h => h) rfl
  · have hforeign : ¬ Foreign s.tree (root ++ [skill.1]) := by
      rintro ⟨hhas, howned⟩
      exact hcollision (by simp [hhas, howned])
    split at h
    · exact absurd h (by simp)
    · rename_i hclaim
      obtain ⟨s₁, hnone, -⟩ := claimDir_cases hforeign hclaim
      exact absurd hnone (by simp)
    · rename_i s₀ hclaim
      obtain ⟨s₁, heq, helse, hkept, howned, hops⟩ := claimDir_cases hforeign hclaim
      obtain rfl := Option.some.inj heq
      split at h
      · exact absurd h (by simp)
      · rename_i s₂ hwrite
        obtain ⟨rfl, rfl⟩ := Prod.mk.inj (Option.some.inj h)
        obtain ⟨htree₂, hops₂⟩ := tree_of_write hwrite
        have hget₂ := FileTree.get_write htree₂
        have hkept₂ : ∀ q, s₀.tree.get q ≠ none → s₂.tree.get q ≠ none := by
          intro q hq
          rw [hget₂]
          split_ifs
          · simp
          · exact hq
        refine .of_file (fun h => hforeign h.2) (by rw [hget₂, if_pos rfl]) (fun q hq => ?_)
          (fun q hq => hkept₂ q (hkept q hq)) (fun _ => ?_) (fun p hp => hops p ?_) rfl
        · rw [hget₂, if_neg, helse q hq]
          rintro rfl
          exact hq (by simp [skillPaths])
        · exact Option.isSome_iff_ne_none.mpr (hkept₂ _ (Option.isSome_iff_ne_none.mp howned))
        · rw [hops₂] at hp
          simpa using hp

theorem wrote_writeIn {mode : SkillTargetMode} (hroot : s.tree.get root = some .dir)
    (h : writeIn mode root (s, r) skill = some (s', r')) : Wrote mode root skill s r s' r' := by
  cases mode with
  | owned => exact wrote_owned hroot h
  | additive => exact wrote_additive h

end Write

structure WroteAll (mode : SkillTargetMode) (root : Path) (skills : Desired) (s : Session)
    (r : DirReconcileResult) (s' : Session) (r' : DirReconcileResult) : Prop where
  untouched : ∀ q, (∀ d ∈ skills, q ∉ skillPaths root d.1) → s'.tree.get q = s.tree.get q
  kept : ∀ q, s.tree.get q ≠ none → s'.tree.get q ≠ none
  spared : ∀ d ∈ skills, Spared mode s.tree (root ++ [d.1]) →
    SameBelow (root ++ [d.1]) s.tree s'.tree
  placed : ∀ d ∈ skills, ¬ Spared mode s.tree (root ++ [d.1]) →
    Placed mode s'.tree (root ++ [d.1]) d.2
  removals : ∀ p, .remove p ∈ s'.ops → .remove p ∈ s.ops
  grows : ∀ slug ∈ r.installed, slug ∈ r'.installed
  only : ∀ slug ∈ r'.installed, slug ∈ r.installed ∨
    (slug ∈ skills.map Prod.fst ∧ ¬ Spared mode s.tree (root ++ [slug]))
  reported : ∀ d ∈ skills, ¬ Spared mode s.tree (root ++ [d.1]) → d.1 ∈ r'.installed ∨
    (mode = .owned ∧ s.tree.get (root ++ [d.1]) = some .dir)

theorem WroteAll.elsewhere {mode : SkillTargetMode} {root : Path} {skills : Desired}
    {s s' : Session} {r r' : DirReconcileResult} (h : WroteAll mode root skills s r s' r') (q : Path)
    (hq : ∀ d ∈ skills, ¬ root ++ [d.1] <+: q) : s'.tree.get q = s.tree.get q :=
  h.untouched q fun d hd hmem => hq d hd (mem_skillPaths_of_below hmem)

theorem wroteAll_writes {mode : SkillTargetMode} {root : Path} {skills : Desired} {s s' : Session}
    {r r' : DirReconcileResult} (hroot : s.tree.get root = some .dir)
    (hskills : (skills.map Prod.fst).Nodup)
    (h : skills.foldlM (writeIn mode root) (s, r) = some (s', r')) :
    WroteAll mode root skills s r s' r' := by
  induction skills generalizing s r with
  | nil =>
    obtain ⟨rfl, rfl⟩ := Prod.mk.inj (Option.some.inj h)
    exact
      { untouched := fun _ _ => rfl
        kept := fun _ h => h
        spared := fun _ _ _ => .refl _ _
        placed := fun _ hd => absurd hd List.not_mem_nil
        removals := fun _ h => h
        grows := fun _ h => h
        only := fun _ h => .inl h
        reported := fun _ hd => absurd hd List.not_mem_nil }
  | cons skill skills ih =>
    rw [List.map_cons, List.nodup_cons] at hskills
    obtain ⟨hskill, hskills⟩ := hskills
    rw [List.foldlM_cons, Option.bind_eq_bind, Option.bind_eq_some_iff] at h
    obtain ⟨⟨s₁, r₁⟩, hstep, hrest⟩ := h
    have head := wrote_writeIn hroot hstep
    have hroot₁ : s₁.tree.get root = some .dir := by
      rw [head.elsewhere root (not_above_root root _), hroot]
    have tail := ih hroot₁ hskills hrest
    -- the other skills' directories are as they were when the first one is written
    have hother : ∀ name ∈ skills.map Prod.fst, SameBelow (root ++ [name]) s.tree s₁.tree :=
      fun name hname q hq => head.elsewhere q fun hq' =>
        hskill (name_eq_of_below hq hq' ▸ hname)
    have hlater : SameBelow (root ++ [skill.1]) s₁.tree s'.tree := fun q hq =>
      tail.elsewhere q fun d hd hq' =>
        hskill (name_eq_of_below hq hq' ▸ List.mem_map_of_mem hd)
    refine
      { untouched := fun q hq => ?_
        kept := fun q hq => tail.kept q (head.kept q hq)
        spared := fun d hd hspared => ?_
        placed := fun d hd hspared => ?_
        removals := fun p hp => head.removals p (tail.removals p hp)
        grows := fun slug h => tail.grows slug (head.grows slug h)
        only := fun slug h => ?_
        reported := fun d hd hspared => ?_ }
    · rw [tail.untouched q fun d hd => hq d (List.mem_cons_of_mem _ hd),
        head.untouched q (hq skill List.mem_cons_self)]
    · rcases List.mem_cons.mp hd with rfl | hd
      · exact (head.spared hspared).trans hlater
      · have hsame := hother d.1 (List.mem_map_of_mem hd)
        exact hsame.trans (tail.spared d hd (hsame.spared.mpr hspared))
    · rcases List.mem_cons.mp hd with rfl | hd
      · exact (hlater.placed _).mpr (head.placed hspared)
      · have hsame := hother d.1 (List.mem_map_of_mem hd)
        exact tail.placed d hd fun h => hspared (hsame.spared.mp h)
    · rcases tail.only slug h with h | ⟨hslug, hspared⟩
      · rcases head.only slug h with h | ⟨rfl, hspared⟩
        · exact .inl h
        · exact .inr ⟨List.mem_cons_self, hspared⟩
      · refine .inr ⟨List.mem_cons_of_mem _ hslug, fun h => hspared ?_⟩
        exact (hother slug hslug).spared.mpr h
    · rcases List.mem_cons.mp hd with rfl | hd
      · exact (head.reported hspared).imp_left (tail.grows _)
      · have hsame := hother d.1 (List.mem_map_of_mem hd)
        rcases tail.reported d hd fun h => hspared (hsame.spared.mp h) with h | ⟨hmode, hdir⟩
        · exact .inl h
        · exact .inr ⟨hmode, by rw [← hdir, hsame _ (List.prefix_refl _)]⟩

theorem openDir_spec {s s' : Session} {root : Path} (h : s.openDir root = some s') :
    s'.tree.get root = some .dir ∧ (∀ q, ¬ q <+: root → s'.tree.get q = s.tree.get q) ∧
      ∀ p, .remove p ∈ s'.ops → .remove p ∈ s.ops := by
  unfold Session.openDir at h
  split at h
  · exact absurd h (by simp)
  · rename_i s₁ hopen
    split_ifs at h with hdir
    obtain rfl := Option.some.inj h
    refine ⟨hdir, ?_⟩
    split_ifs at hopen with hhas
    · obtain rfl := Option.some.inj hopen
      exact ⟨fun _ _ => rfl, fun _ h => h⟩
    · obtain ⟨htree, hops⟩ := tree_of_mkdirs hopen
      obtain ⟨hgrown, -⟩ := FileTree.grown_mkdirs (FileTree.get_nil _) htree
      rw [List.nil_append] at hgrown
      refine ⟨hgrown.elsewhere, fun p hp => ?_⟩
      rw [hops] at hp
      simpa using hp

theorem Desired.has_iff {desired : Desired} {slug : String} :
    desired.has slug = true ↔ slug ∈ desired.map Prod.fst := by
  rw [Desired.has, List.any_eq_true, List.mem_map]
  simp only [decide_eq_true_eq]

theorem mem_seed {mode : SkillTargetMode} {root : Path} {desired : Desired} {tree : FileTree}
    {onDisk : List String} {slug : String} :
    slug ∈ seed mode root desired tree onDisk ↔
      slug ∈ onDisk ∧ slug ∈ desired.map Prod.fst ∧
        (mode = .additive → isMemclawOwned tree (root ++ [slug]) = true) := by
  cases mode with
  | owned => simp [seed, List.mem_filter, Desired.has_iff]
  | additive => simp [seed, List.mem_filter, Desired.has_iff]

def InstalledAt (desired : Desired) (target : SkillTarget) (tree : FileTree) (slug : String) :
    Prop :=
  slug ∉ PROTECTED_SKILLS ∧
    ∃ content, (slug, content) ∈ desired ∧ Placed target.mode tree (target.dir ++ [slug]) content

/-- Nothing is left to do in the directory. -/
structure Settled (desired : Desired) (target : SkillTarget) (tree : FileTree) : Prop where
  opened : tree.get target.dir = some .dir
  pruned : ∀ name, tree.get (target.dir ++ [name]) = some .dir →
    isOrphan target.mode target.dir desired tree name = false
  written : ∀ d ∈ desired, Spared target.mode tree (target.dir ++ [d.1]) ∨
    Placed target.mode tree (target.dir ++ [d.1]) d.2

structure Reconciled (desired : Desired) (target : SkillTarget) (s s' : Session)
    (r : DirReconcileResult) : Prop where
  elsewhere : ∀ q, ¬ target.dir <+: q → ¬ q <+: target.dir → s'.tree.get q = s.tree.get q
  foreign : target.mode = .additive → ∀ name, Foreign s.tree (target.dir ++ [name]) →
    SameBelow (target.dir ++ [name]) s.tree s'.tree
  removals : ∀ p, .remove p ∈ s'.ops → .remove p ∈ s.ops ∨ ∃ name, p = target.dir ++ [name] ∧
    name ∉ desired.map Prod.fst ∧ name ∉ PROTECTED_SKILLS ∧
      (target.mode = .additive → isMemclawOwned s.tree p = true)
  fresh : ∀ q, s.tree.get q = none → ¬ q <+: target.dir →
    (∀ d ∈ desired, q ∉ skillPaths target.dir d.1) → s'.tree.get q = none
  protectedKept : ∀ name ∈ PROTECTED_SKILLS, ∀ q, target.dir ++ [name] <+: q →
    s.tree.get q ≠ none → s'.tree.get q ≠ none
  settled : Settled desired target s'.tree
  installed : ∀ slug, slug ∈ r.installed ↔ InstalledAt desired target s'.tree slug

theorem isOrphan_of_desired {mode : SkillTargetMode} {root : Path} {desired : Desired}
    {tree : FileTree} {slug : String} (h : slug ∈ desired.map Prod.fst) :
    isOrphan mode root desired tree slug = false := by
  rw [isOrphan, Desired.has_iff.mpr h]
  rfl

theorem isOrphan_of_protected {mode : SkillTargetMode} {root : Path} {desired : Desired}
    {tree : FileTree} {slug : String} (h : slug ∈ PROTECTED_SKILLS) :
    isOrphan mode root desired tree slug = false := by
  simp [isOrphan, h]

theorem isOrphan_of_foreign {root : Path} {desired : Desired} {tree : FileTree} {slug : String}
    (h : isMemclawOwned tree (root ++ [slug]) = false) :
    isOrphan .additive root desired tree slug = false := by
  simp [isOrphan, h]

structure Pruned (desired : Desired) (target : SkillTarget) (s s' : Session) : Prop where
  opened : s'.tree.get target.dir = some .dir
  elsewhere : ∀ q, ¬ target.dir <+: q → ¬ q <+: target.dir → s'.tree.get q = s.tree.get q
  kept : ∀ name, isOrphan target.mode target.dir desired s.tree name = false →
    SameBelow (target.dir ++ [name]) s.tree s'.tree
  fresh : ∀ q, s.tree.get q = none → ¬ q <+: target.dir → s'.tree.get q = none
  gone : ∀ name, s'.tree.get (target.dir ++ [name]) = some .dir →
    isOrphan target.mode target.dir desired s.tree name = false
  removals : ∀ p, .remove p ∈ s'.ops → .remove p ∈ s.ops ∨ ∃ name, p = target.dir ++ [name] ∧
    isOrphan target.mode target.dir desired s.tree name = true

theorem pruned_removeAll {desired : Desired} {target : SkillTarget} {s s₁ : Session}
    (hopen : s.openDir target.dir = some s₁) :
    Pruned desired target s (s₁.removeAll target.dir
      ((s₁.tree.dirs target.dir).filter (isOrphan target.mode target.dir desired s₁.tree))) := by
  obtain ⟨hroot, helse, hops⟩ := openDir_spec hopen
  have hchild : ∀ name, SameBelow (target.dir ++ [name]) s.tree s₁.tree := fun name q hq =>
    helse q fun hq' => not_above_root target.dir name (hq.trans hq')
  have horphan : ∀ name, isOrphan target.mode target.dir desired s₁.tree name =
      isOrphan target.mode target.dir desired s.tree name := fun name => isOrphan_congr (hchild name)
  refine
    { opened := ?_
      elsewhere := fun q hq hq' => ?_
      kept := fun name hname => ?_
      fresh := fun q hq hup => ?_
      gone := fun name hname => ?_
      removals := fun p hp => ?_ }
  · rw [get_removeAll, if_neg, hroot]
    rintro ⟨n, -, hn⟩
    exact not_above_root target.dir n hn
  · rw [get_removeAll, if_neg, helse q hq']
    rintro ⟨n, -, hn⟩
    exact hq ((List.prefix_append _ _).trans hn)
  · refine (hchild name).trans (sameBelow_removeAll s₁ fun hmem => ?_)
    have htrue := (List.mem_filter.mp hmem).2
    rw [horphan, hname] at htrue
    exact absurd htrue (by simp)
  · rw [get_removeAll]
    split_ifs
    · rfl
    · rw [helse q hup, hq]
  · rw [get_removeAll] at hname
    split_ifs at hname with hremoved
    rw [← horphan, Bool.eq_false_iff]
    intro htrue
    exact hremoved ⟨name, List.mem_filter.mpr ⟨FileTree.mem_dirs.mpr hname, htrue⟩,
      List.prefix_refl _⟩
  · rw [ops_removeAll, List.mem_append, List.mem_map] at hp
    rcases hp with hp | ⟨name, hname, heq⟩
    · exact .inl (hops p hp)
    · refine .inr ⟨name, (FileOp.remove.inj heq).symm, ?_⟩
      rw [← horphan]
      exact (List.mem_filter.mp hname).2

theorem stages_of_reconcileTarget {desired : Desired} {target : SkillTarget} {s s' : Session}
    {r : DirReconcileResult} (h : reconcileTarget desired target s = some (s', r)) :
    ∃ s₁ onDisk r₁ r₂, Pruned desired target s s₁ ∧
      (∀ name, name ∈ onDisk ↔ s.tree.get (target.dir ++ [name]) = some .dir) ∧
      r₁.installed = seed target.mode target.dir desired s₁.tree onDisk ∧
      desired.foldlM (writeIn target.mode target.dir) (s₁, r₁) = some (s', r₂) ∧
      r = r₂.unprotected := by
  obtain ⟨root, mode, register⟩ := target
  rw [reconcileTarget_eq] at h
  split at h
  · exact absurd h (by simp)
  rename_i s₀ hopen
  have hprune : ((s₀.tree.dirs root).foldl (pruneIn mode root desired)
      (s₀, ⟨[], [], [], [], []⟩)).1 = _ := prune_fst (s₀.tree.nodup_dirs root) s₀ _
  have hpruned : Pruned desired ⟨root, mode, register⟩ s _ := pruned_removeAll hopen
  dsimp only at h hpruned
  rw [← hprune] at hpruned
  generalize (s₀.tree.dirs root).foldl (pruneIn mode root desired) (s₀, ⟨[], [], [], [], []⟩) = acc
    at h hpruned
  obtain ⟨s₁, r₁⟩ := acc
  dsimp only at h hpruned
  split at h
  · exact absurd h (by simp)
  rename_i s₂ r₂ hwrite
  obtain ⟨rfl, rfl⟩ := Prod.mk.inj (Option.some.inj h)
  refine ⟨s₁, s₀.tree.dirs root, _, r₂, hpruned, fun name => ?_, rfl, hwrite, rfl⟩
  rw [FileTree.mem_dirs, (openDir_spec hopen).2.1 _ (not_above_root root name)]

theorem reconciled_target {desired : Desired} {target : SkillTarget} {s s' : Session}
    {r : DirReconcileResult} (hdesired : (desired.map Prod.fst).Nodup)
    (h : reconcileTarget desired target s = some (s', r)) : Reconciled desired target s s' r := by
  obtain ⟨s₁, onDisk, r₁, r₂, hp, honDisk, hseed, hwrite, rfl⟩ := stages_of_reconcileTarget h
  have hw := wroteAll_writes hp.opened hdesired hwrite
  -- what is not desired is not written
  have hundesired : ∀ name, name ∉ desired.map Prod.fst →
      SameBelow (target.dir ++ [name]) s₁.tree s'.tree := fun name hname q hq =>
    hw.elsewhere q fun d hd hd' => hname (name_eq_of_below hq hd' ▸ List.mem_map_of_mem hd)
  have hkeys : ∀ {slug : String}, slug ∈ desired.map Prod.fst →
      SameBelow (target.dir ++ [slug]) s.tree s₁.tree := fun h => hp.kept _ (isOrphan_of_desired h)
  refine
    { elsewhere := fun q hq hq' => ?_
      foreign := fun hmode name hforeign => ?_
      removals := fun p hp' => ?_
      fresh := fun q hq hup hnew => ?_
      protectedKept := fun name hname q hq hthere => ?_
      settled := { opened := ?_, pruned := fun name hname => ?_, written := fun d hd => ?_ }
      installed := fun slug => ?_ }
  · rw [hw.elsewhere q fun d _ hd => hq ((List.prefix_append _ _).trans hd), hp.elsewhere q hq hq']
  · have hfirst : SameBelow (target.dir ++ [name]) s.tree s₁.tree := by
      refine hp.kept name ?_
      rw [hmode]
      exact isOrphan_of_foreign hforeign.2
    refine hfirst.trans ?_
    by_cases hname : name ∈ desired.map Prod.fst
    · obtain ⟨d, hd, rfl⟩ := List.mem_map.mp hname
      exact hw.spared d hd ⟨hmode, hfirst.foreign.mpr hforeign⟩
    · exact hundesired name hname
  · rcases hp.removals p (hw.removals p hp') with h | ⟨name, rfl, horphan⟩
    · exact .inl h
    · refine .inr ⟨name, rfl, fun hname => ?_, fun hname => ?_, fun hmode => ?_⟩
      · rw [isOrphan_of_desired hname] at horphan
        exact absurd horphan (by simp)
      · rw [isOrphan_of_protected hname] at horphan
        exact absurd horphan (by simp)
      · by_contra howned
        rw [hmode, isOrphan_of_foreign (by simpa using howned)] at horphan
        exact absurd horphan (by simp)
  · rw [hw.untouched q hnew, hp.fresh q hq hup]
  · refine hw.kept q ?_
    rw [hp.kept name (isOrphan_of_protected hname) q hq]
    exact hthere
  · rw [hw.elsewhere _ fun d _ hd => not_above_root _ _ hd, hp.opened]
  · by_cases hdesired : name ∈ desired.map Prod.fst
    · exact isOrphan_of_desired hdesired
    · have hsame := hundesired name hdesired
      rw [hsame _ (List.prefix_refl _)] at hname
      have horphan := hp.gone name hname
      rw [isOrphan_congr hsame, isOrphan_congr (hp.kept name horphan), horphan]
  · by_cases hspared : Spared target.mode s₁.tree (target.dir ++ [d.1])
    · exact .inl ((hw.spared d hd hspared).spared.mpr hspared)
    · exact .inr (hw.placed d hd hspared)
  · rw [DirReconcileResult.unprotected, List.mem_filter, decide_eq_true_eq, and_comm]
    refine and_congr_right fun _ => ⟨fun h => ?_, ?_⟩
    · have hdesired : slug ∈ desired.map Prod.fst ∧
          ¬ Spared target.mode s₁.tree (target.dir ++ [slug]) := by
        rcases hw.only slug h with h | h
        · rw [hseed, mem_seed] at h
          exact ⟨h.2.1, fun hspared => by simpa [h.2.2 hspared.1] using hspared.2.2⟩
        · exact h
      obtain ⟨⟨d, hd, rfl⟩, hspared⟩ := hdesired.imp_left List.mem_map.mp
      exact ⟨d.2, hd, hw.placed d hd hspared⟩
    · rintro ⟨content, hd, hplaced⟩
      have hspared : ¬ Spared target.mode s₁.tree (target.dir ++ [slug]) := fun hspared => by
        have hthen := (hw.spared _ hd hspared).spared.mpr hspared
        simpa [hplaced.2 hthen.1] using hthen.2.2
      rcases hw.reported _ hd hspared with h | ⟨hmode, hdir⟩
      · exact h
      · have hslug : slug ∈ desired.map Prod.fst := List.mem_map_of_mem hd
        refine hw.grows slug ?_
        rw [hseed, mem_seed, honDisk, ← hdir, hkeys hslug _ (List.prefix_refl _)]
        exact ⟨rfl, hslug, fun h => absurd (hmode.symm.trans h) (by simp)⟩

end Memclaw.Skills
