import Memclaw.Skills.Reconcile

/-! What the reconciler does on an answer of the server that is no list of documents. An answer with
an error leaves the directories alone; any other value is taken for an empty catalog. -/

namespace Memclaw.Skills

open Memclaw.Lib

/-- What `fetch` came to: it throws, or a response arrived, whose body is JSON or not. `serverMs` is
the parsed `X-Response-Time`, where the header is there. -/
inductive Fetched
  | failed
  | arrived (status : ℕ) (body : Option Json) (latencyMs : ℤ) (serverMs : Option Json)

def stamp (latencyMs : ℤ) (serverMs : Option Json) (data : Json) : Json :=
  match data with
  | .obj fields =>
    let timed := Dict.set fields "_latency_ms" (.int latencyMs)
    match serverMs with
    | none => .obj timed
    | some ms => .obj (Dict.set timed "_server_ms" ms)
  | data => data

/-- `apiCall` for a call without an agent, which is not tried again. Nothing where it throws. -/
def apiCall (fetched : Fetched) : Option Json :=
  match fetched with
  | .failed => none
  | .arrived status body latencyMs serverMs =>
    if status < 200 ∨ 299 < status then none
    else if status = 204 then some (.obj [("ok", .bool true), ("_latency_ms", .int latencyMs)])
    else body.map (stamp latencyMs serverMs)

def documentList (value : Json) : Option (List Json) :=
  match value with
  | .arr items => some items
  | .obj fields =>
    match Dict.get fields "documents" with
    | .arr items => some items
    | _ => none
  | _ => none

/-- A value that is no list counts as an empty one. -/
def documentsOf (value : Json) : List Json := (documentList value).getD []

/-- A row as the reconciler reads it; nothing for `null`, of which no field can be read. -/
def catalogDocOf (row : Json) : Option CatalogDoc :=
  match row with
  | .null => none
  | .obj fields => some ⟨(Dict.get fields "doc_id").asStr, (Dict.get fields "data").asDict.getD []⟩
  | _ => some ⟨none, []⟩

/-- A directory that is made where it is missing; nothing where it cannot be. -/
def Session.makeDir (s : Session) (root : Path) : Option Session :=
  if s.tree.has root then some s else s.mkdirs root

def DirReconcileResult.empty : DirReconcileResult := ⟨[], [], [], [], []⟩

section Settle

variable (mode : SkillTargetMode) (root : Path) (desired : Desired)

def writeAll (acc : Session × DirReconcileResult) : Session × DirReconcileResult :=
  desired.foldl (fun acc skill => (writeIn mode root acc skill).getD acc) acc

/-- One target, with the errors that it catches. Only one is not caught: the directory cannot be
made. -/
def settleDir (s : Session) : Option (Session × DirReconcileResult) :=
  match s.makeDir root with
  | none => none
  | some s =>
    if s.tree.get root = some .dir then
      let onDisk := s.tree.dirs root
      let (s, r) := onDisk.foldl (pruneIn mode root desired) (s, .empty)
      let (s, r) := writeAll mode root desired
        (s, { r with installed := seed mode root desired s.tree onDisk })
      some (s, r.unprotected)
    else some (s, .empty)

end Settle

def settleTargets (desired : Desired) :
    List SkillTarget → Session → Except Session (Session × List TargetReconcileResult)
  | [], s => .ok (s, [])
  | target :: targets, s =>
    match settleDir target.mode target.dir desired s with
    | none => .error s
    | some (s, r) =>
      match settleTargets desired targets s with
      | .error s => .error s
      | .ok (s, rs) => .ok (s, ⟨target.dir, target.mode, r⟩ :: rs)

structure Ending where
  files : NodeFiles
  ops : List FileOp
  summary : Option ReconcileSummary

def reconcileAnswer (home : Path) (targets : List SkillTarget) (tenantId : Option String)
    (answer : Option Json) (files : NodeFiles) : Ending :=
  match tenantId, answer with
  | some _, some value =>
    match (documentsOf value).mapM catalogDocOf with
    | none => ⟨files, [], none⟩
    | some catalog =>
      match settleTargets (desiredOf catalog) targets ⟨files.tree, []⟩ with
      | .error s => ⟨⟨s.tree, files.config⟩, s.ops, none⟩
      | .ok (s, results) =>
        let dirs := (targets.filter fun t => t.register).map fun t => renderPath t.dir
        let reg := ensureExtraSkillDirs home dirs files.config
        { files := ⟨s.tree, reg.config⟩
          ops := s.ops ++ if reg.added = [] then [] else [.writeConfig]
          summary := some (summarize catalog results (registeredDirs dirs reg)) }
  | _, _ => ⟨files, [], some .empty⟩

theorem writeAll_of_foldlM {mode : SkillTargetMode} {root : Path} {desired : Desired}
    {acc acc' : Session × DirReconcileResult}
    (h : desired.foldlM (writeIn mode root) acc = some acc') :
    writeAll mode root desired acc = acc' := by
  induction desired generalizing acc with
  | nil => exact Option.some.inj h
  | cons skill desired ih =>
    rw [List.foldlM_cons] at h
    obtain ⟨next, hnext, hrest⟩ := Option.bind_eq_some_iff.mp h
    show writeAll mode root desired ((writeIn mode root acc skill).getD acc) = acc'
    rw [hnext]
    exact ih hrest

theorem settleDir_of_reconcileTarget {desired : Desired} {target : SkillTarget} {s : Session}
    {out : Session × DirReconcileResult} (h : reconcileTarget desired target s = some out) :
    settleDir target.mode target.dir desired s = some out := by
  obtain ⟨root, mode, register⟩ := target
  rw [reconcileTarget_eq] at h
  unfold settleDir
  unfold Session.openDir at h
  unfold Session.makeDir
  cases hmake : (if s.tree.has root then some s else s.mkdirs root) with
  | none =>
    rw [hmake] at h
    exact absurd h (by simp)
  | some s₁ =>
    rw [hmake] at h
    dsimp only at h ⊢
    by_cases hdir : s₁.tree.get root = some .dir
    · rw [if_pos hdir] at h ⊢
      dsimp only at h ⊢
      unfold DirReconcileResult.empty
      generalize (s₁.tree.dirs root).foldl (pruneIn mode root desired) (s₁, ⟨[], [], [], [], []⟩) =
        pruned at h ⊢
      obtain ⟨s₂, r⟩ := pruned
      dsimp only at h ⊢
      generalize hwrite : desired.foldlM (writeIn mode root) (s₂, { r with
        installed := seed mode root desired s₂.tree (s₁.tree.dirs root) }) = written at h
      cases written with
      | none => exact absurd h (by simp)
      | some written =>
        rw [writeAll_of_foldlM hwrite]
        exact h
    · rw [if_neg hdir] at h
      exact absurd h (by simp)

theorem settleTargets_of_reconcileTargets {desired : Desired} {targets : List SkillTarget}
    {s : Session} {out : Session × List TargetReconcileResult}
    (h : reconcileTargets desired targets s = some out) :
    settleTargets desired targets s = .ok out := by
  induction targets generalizing s out with
  | nil => exact congrArg Except.ok (Option.some.inj h)
  | cons target targets ih =>
    rw [reconcileTargets] at h
    rw [settleTargets]
    cases hfirst : reconcileTarget desired target s with
    | none =>
      rw [hfirst] at h
      exact absurd h (by simp)
    | some first =>
      rw [hfirst] at h
      rw [settleDir_of_reconcileTarget hfirst]
      dsimp only at h ⊢
      cases hlater : reconcileTargets desired targets first.1 with
      | none =>
        rw [hlater] at h
        exact absurd h (by simp)
      | some later =>
        rw [hlater] at h
        rw [ih hlater]
        exact congrArg Except.ok (Option.some.inj h)

theorem reconcileAnswer_of_run {home : Path} {targets : List SkillTarget} {tenantId : Option String}
    {value : Json} {catalog : List CatalogDoc} {files : NodeFiles} {run : ReconcileRun}
    (hcatalog : (documentsOf value).mapM catalogDocOf = some catalog)
    (hrun : reconcileSkills home targets tenantId (some catalog) files = some run) :
    reconcileAnswer home targets tenantId (some value) files =
      ⟨run.files, run.ops, some run.summary⟩ := by
  unfold reconcileAnswer
  unfold reconcileSkills at hrun
  cases tenantId with
  | none => rw [← Option.some.inj hrun]
  | some tenantId =>
    dsimp only at hrun ⊢
    rw [hcatalog]
    dsimp only
    cases htargets : reconcileTargets (desiredOf catalog) targets ⟨files.tree, []⟩ with
    | none =>
      rw [htargets] at hrun
      exact absurd hrun (by simp)
    | some out =>
      rw [htargets] at hrun
      rw [settleTargets_of_reconcileTargets htargets]
      rw [← Option.some.inj hrun]

/-- A directory that is missing and cannot be made ends the run; in one that is there the prune finds
nothing to take. -/
def Unpruned (tree : FileTree) : List SkillTarget → Prop
  | [] => True
  | target :: targets =>
    if tree.has target.dir then
      (∀ slug ∈ tree.dirs target.dir, isOrphan target.mode target.dir [] tree slug = false) ∧
        Unpruned tree targets
    else tree.mkdirs [] target.dir = none

structure Ending.Keeps (e : Ending) (targets : List SkillTarget) (files : NodeFiles) : Prop where
  removals : ∀ p, .remove p ∉ e.ops
  same : ∀ target ∈ targets, SameBelow target.dir files.tree e.files.tree

structure Session.Leads (s s' : Session) : Prop where
  removals : ∀ p, .remove p ∈ s.ops → .remove p ∈ s'.ops
  kept : (∀ p, .remove p ∉ s'.ops) → ∀ q, s.tree.get q ≠ none → s'.tree.get q ≠ none

theorem Session.Leads.refl (s : Session) : s.Leads s := ⟨fun _ h => h, fun _ _ h => h⟩

theorem Session.Leads.trans {s₁ s₂ s₃ : Session} (h : s₁.Leads s₂) (h' : s₂.Leads s₃) :
    s₁.Leads s₃ where
  removals p hp := h'.removals p (h.removals p hp)
  kept hnone q hq := h'.kept hnone q (h.kept (fun p hp => hnone p (h'.removals p hp)) q hq)

def orphans (mode : SkillTargetMode) (root : Path) (tree : FileTree) : List String :=
  (tree.dirs root).filter (isOrphan mode root [] tree)

theorem dirs_of_not_dir {t : FileTree} {root : Path} (h : t.get root ≠ some .dir) :
    t.dirs root = [] := by
  rw [List.eq_nil_iff_forall_not_mem]
  intro name hname
  have hchild : t.get (root ++ [name]) ≠ none := by
    rw [FileTree.mem_dirs.mp hname]
    simp
  exact h (FileTree.dir_of_child hchild)

theorem settleDir_has (mode : SkillTargetMode) {root : Path} {s : Session}
    (h : s.tree.has root = true) :
    ∃ r, settleDir mode root [] s = some (s.removeAll root (orphans mode root s.tree), r) := by
  have hpruned : ((s.tree.dirs root).foldl (pruneIn mode root []) (s, .empty)).1 = _ :=
    prune_fst (FileTree.nodup_dirs s.tree root) s .empty
  unfold settleDir Session.makeDir orphans
  rw [if_pos h]
  dsimp only
  by_cases hdir : s.tree.get root = some .dir
  · rw [if_pos hdir, ← hpruned]
    exact ⟨_, rfl⟩
  · rw [if_neg hdir, dirs_of_not_dir hdir]
    exact ⟨_, rfl⟩

theorem get_of_not_has {t : FileTree} {p : Path} (h : t.has p = false) : t.get p = none := by
  simpa [FileTree.has] using h

theorem settleDir_made (mode : SkillTargetMode) {root : Path} {s s' : Session}
    (h : s.tree.has root = false) (hmake : s.mkdirs root = some s') :
    s'.tree.get root = some .dir ∧ ∃ r, settleDir mode root [] s = some (s', r) := by
  -- A directory that is made anew is empty, so nothing is taken from it.
  obtain ⟨htree, -⟩ := tree_of_mkdirs hmake
  obtain ⟨hgrown, hdir⟩ := FileTree.grown_mkdirs (FileTree.get_nil _) htree
  rw [List.nil_append] at hgrown hdir
  have hempty : s'.tree.dirs root = [] := by
    rw [List.eq_nil_iff_forall_not_mem]
    intro name hname
    have hchild := FileTree.mem_dirs.mp hname
    rw [hgrown.elsewhere _ (not_above_root root name),
      FileTree.child_none (get_of_not_has h)] at hchild
    exact absurd hchild (by simp)
  refine ⟨hdir, ?_⟩
  unfold settleDir Session.makeDir
  rw [if_neg (by rw [h]; simp), hmake]
  dsimp only
  rw [if_pos hdir, hempty]
  exact ⟨_, rfl⟩

theorem settleDir_stuck {mode : SkillTargetMode} {root : Path} {s : Session}
    (h : s.tree.has root = false) (hmake : s.mkdirs root = none) :
    settleDir mode root [] s = none := by
  unfold settleDir Session.makeDir
  rw [if_neg (by rw [h]; simp), hmake]

theorem mkdirs_eq_none {s : Session} {root : Path} :
    s.mkdirs root = none ↔ s.tree.mkdirs [] root = none := by
  unfold Session.mkdirs
  cases s.tree.mkdirs [] root with
  | none => exact ⟨fun _ => rfl, fun _ => rfl⟩
  | some tree => exact ⟨fun h => absurd h (by simp), fun h => absurd h (by simp)⟩

def lastSession : Except Session (Session × List TargetReconcileResult) → Session
  | .error s => s
  | .ok (s, _) => s

theorem lastSession_cons {target : SkillTarget} {targets : List SkillTarget} {s s' : Session}
    {r : DirReconcileResult}
    (h : settleDir target.mode target.dir [] s = some (s', r)) :
    lastSession (settleTargets [] (target :: targets) s) =
      lastSession (settleTargets [] targets s') := by
  rw [settleTargets, h]
  dsimp only
  cases settleTargets [] targets s' with
  | error last => rfl
  | ok out => rfl

theorem lastSession_stuck {target : SkillTarget} {targets : List SkillTarget} {s : Session}
    (h : settleDir target.mode target.dir [] s = none) :
    lastSession (settleTargets [] (target :: targets) s) = s := by
  rw [settleTargets, h]
  rfl

theorem leads_removeAll (s : Session) (root : Path) (names : List String) :
    s.Leads (s.removeAll root names) := by
  constructor
  · intro p hp
    rw [ops_removeAll]
    exact List.mem_append_left _ hp
  · intro hnone q hq
    have hnames : names = [] := by
      refine List.eq_nil_iff_forall_not_mem.mpr fun name hname => hnone (root ++ [name]) ?_
      rw [ops_removeAll]
      exact List.mem_append_right _ (List.mem_map_of_mem hname)
    rw [hnames]
    exact hq

theorem leads_mkdirs {s s' : Session} {root : Path} (h : s.mkdirs root = some s') :
    s.Leads s' := by
  obtain ⟨htree, hops⟩ := tree_of_mkdirs h
  obtain ⟨hgrown, -⟩ := FileTree.grown_mkdirs (FileTree.get_nil _) htree
  constructor
  · intro p hp
    rw [hops]
    exact List.mem_append_left _ hp
  · intro _ q hq
    obtain ⟨e, he⟩ := Option.ne_none_iff_exists'.mp hq
    rw [hgrown.kept q e he]
    simp

theorem leads_settleTargets (targets : List SkillTarget) (s : Session) :
    s.Leads (lastSession (settleTargets [] targets s)) := by
  induction targets generalizing s with
  | nil => exact .refl s
  | cons target targets ih =>
    cases hhas : s.tree.has target.dir with
    | true =>
      obtain ⟨r, hr⟩ := settleDir_has target.mode hhas
      rw [lastSession_cons hr]
      exact (leads_removeAll _ _ _).trans (ih _)
    | false =>
      cases hmake : s.mkdirs target.dir with
      | none =>
        rw [lastSession_stuck (settleDir_stuck hhas hmake)]
        exact .refl s
      | some s' =>
        obtain ⟨-, r, hr⟩ := settleDir_made target.mode hhas hmake
        rw [lastSession_cons hr]
        exact (leads_mkdirs hmake).trans (ih s')

theorem orphans_eq_nil {mode : SkillTargetMode} {root : Path} {tree : FileTree} :
    orphans mode root tree = [] ↔
      ∀ slug ∈ tree.dirs root, isOrphan mode root [] tree slug = false := by
  rw [orphans, List.filter_eq_nil_iff]
  simp only [Bool.not_eq_true]

theorem lastSession_of_unpruned {targets : List SkillTarget} {s : Session}
    (h : Unpruned s.tree targets) : lastSession (settleTargets [] targets s) = s := by
  induction targets with
  | nil => rfl
  | cons target targets ih =>
    rw [Unpruned] at h
    cases hhas : s.tree.has target.dir with
    | true =>
      rw [if_pos hhas] at h
      obtain ⟨r, hr⟩ := settleDir_has target.mode hhas
      rw [orphans_eq_nil.mpr h.1] at hr
      rw [lastSession_cons hr]
      exact ih h.2
    | false =>
      rw [if_neg (by rw [hhas]; simp)] at h
      exact lastSession_stuck (settleDir_stuck hhas (mkdirs_eq_none.mpr h))

/-- A removal would be on record, and a directory that was made would still be there. -/
theorem unpruned_of_last {targets : List SkillTarget} {s : Session}
    (hnone : ∀ p, .remove p ∉ (lastSession (settleTargets [] targets s)).ops)
    (hsame : ∀ target ∈ targets,
      SameBelow target.dir s.tree (lastSession (settleTargets [] targets s)).tree) :
    Unpruned s.tree targets := by
  induction targets with
  | nil => trivial
  | cons target targets ih =>
    rw [Unpruned]
    cases hhas : s.tree.has target.dir with
    | true =>
      rw [if_pos rfl]
      obtain ⟨r, hr⟩ := settleDir_has target.mode hhas
      rw [lastSession_cons hr] at hnone hsame
      have horphans : orphans target.mode target.dir s.tree = [] := by
        refine List.eq_nil_iff_forall_not_mem.mpr fun name hname => ?_
        refine hnone (target.dir ++ [name]) ((leads_settleTargets targets _).removals _ ?_)
        rw [ops_removeAll]
        exact List.mem_append_right _ (List.mem_map_of_mem hname)
      rw [horphans] at hnone hsame
      exact ⟨orphans_eq_nil.mp horphans,
        ih hnone fun t ht => hsame t (List.mem_cons_of_mem _ ht)⟩
    | false =>
      rw [if_neg (by simp)]
      cases hmake : s.mkdirs target.dir with
      | none => exact mkdirs_eq_none.mp hmake
      | some s' =>
        obtain ⟨hdir, r, hr⟩ := settleDir_made target.mode hhas hmake
        rw [lastSession_cons hr] at hnone hsame
        have hthere : (lastSession (settleTargets [] targets s')).tree.get target.dir ≠ none :=
          (leads_settleTargets targets s').kept hnone _ (by rw [hdir]; simp)
        rw [hsame target List.mem_cons_self _ (List.prefix_refl _), get_of_not_has hhas] at hthere
        exact absurd rfl hthere

theorem reconcileAnswer_unlisted (home : Path) (targets : List SkillTarget) (tenantId : String)
    (files : NodeFiles) {value : Json} (h : documentList value = none) :
    let e := reconcileAnswer home targets (some tenantId) (some value) files
    let last := lastSession (settleTargets [] targets ⟨files.tree, []⟩)
    e.files.tree = last.tree ∧ ∀ p, .remove p ∈ e.ops ↔ .remove p ∈ last.ops := by
  have hcatalog : (documentsOf value).mapM catalogDocOf = some [] := by
    rw [documentsOf, h]
    rfl
  have hdesired : desiredOf [] = [] := rfl
  unfold reconcileAnswer
  dsimp only
  rw [hcatalog]
  dsimp only
  rw [hdesired]
  cases settleTargets [] targets ⟨files.tree, []⟩ with
  | error s => exact ⟨rfl, fun _ => Iff.rfl⟩
  | ok out =>
    refine ⟨rfl, fun p => ?_⟩
    dsimp only [lastSession]
    rw [List.mem_append, or_iff_left]
    split_ifs <;> simp

/-- An answer that is no list of documents leaves the targets alone where the call throws, and
otherwise only where an empty catalog would. -/
theorem outage_keeps_iff (home : Path) (targets : List SkillTarget) (tenantId : Option String)
    (fetched : Fetched) (files : NodeFiles)
    (h : ∀ value, apiCall fetched = some value → documentList value = none) :
    (reconcileAnswer home targets tenantId (apiCall fetched) files).Keeps targets files ↔
      tenantId = none ∨ apiCall fetched = none ∨ Unpruned files.tree targets := by
  have hidle : ∀ e : Ending, e.files = files → e.ops = [] → e.Keeps targets files := by
    intro e hfiles hops
    refine ⟨fun p => ?_, fun target _ => ?_⟩
    · rw [hops]
      exact List.not_mem_nil
    · rw [hfiles]
      exact .refl _ _
  cases tenantId with
  | none => exact iff_of_true (hidle _ rfl rfl) (.inl rfl)
  | some tenantId =>
    cases hanswer : apiCall fetched with
    | none => exact iff_of_true (hidle _ rfl rfl) (.inr (.inl rfl))
    | some value =>
      obtain ⟨htree, hops⟩ := reconcileAnswer_unlisted home targets tenantId files
        (h value hanswer)
      constructor
      · rintro ⟨hremovals, hsame⟩
        refine .inr (.inr (unpruned_of_last (s := ⟨files.tree, []⟩) ?_ ?_))
        · exact fun p hp => hremovals p ((hops p).mpr hp)
        · intro target htarget
          rw [← htree]
          exact hsame target htarget
      · intro hwhen
        have hunpruned : Unpruned files.tree targets := by
          rcases hwhen with hnone | hnone | hunpruned
          · exact absurd hnone (by simp)
          · exact absurd hnone (by simp)
          · exact hunpruned
        have hlast := lastSession_of_unpruned (s := ⟨files.tree, []⟩) hunpruned
        rw [hlast] at htree hops
        refine ⟨fun p hp => absurd ((hops p).mp hp) List.not_mem_nil, fun target _ => ?_⟩
        rw [htree]
        exact .refl _ _

instance Unpruned.decidable (tree : FileTree) :
    ∀ targets : List SkillTarget, Decidable (Unpruned tree targets)
  | [] => .isTrue trivial
  | target :: targets =>
    have := Unpruned.decidable tree targets
    inferInstanceAs (Decidable (if tree.has target.dir then
      (∀ slug ∈ tree.dirs target.dir, isOrphan target.mode target.dir [] tree slug = false) ∧
        Unpruned tree targets
      else tree.mkdirs [] target.dir = none))

def holding (slug : String) : NodeFiles :=
  ⟨(FileTree.empty.mkdirs [] ["skills", slug]).getD .empty, none⟩

theorem outage_keeps_bundled : (reconcileAnswer ["home"] [⟨["skills"], .owned, false⟩] (some "acme")
    (apiCall (.arrived 200 (some .null) 5 none)) (holding "memclaw")).Keeps
      [⟨["skills"], .owned, false⟩] (holding "memclaw") := by
  refine (outage_keeps_iff _ _ _ (.arrived 200 (some .null) 5 none) (holding "memclaw") ?_).mpr ?_
  · intro value hvalue
    obtain rfl : Json.null = value := Option.some.inj hvalue
    rfl
  · exact .inr (.inr (by decide))

/-- A `null` from the server empties the plugin's directory. -/
theorem null_answer_removes_skill :
    (apiCall (.arrived 200 (some .null) 5 none)).bind documentList = none ∧
      ¬ (reconcileAnswer ["home"] [⟨["skills"], .owned, false⟩] (some "acme")
        (apiCall (.arrived 200 (some .null) 5 none)) (holding "deploy")).Keeps
          [⟨["skills"], .owned, false⟩] (holding "deploy") := by
  refine ⟨rfl, fun h => h.removals ["skills", "deploy"] ?_⟩
  decide

end Memclaw.Skills
