import Memclaw.Skills.Displace
import Memclaw.Skills.Targets
import Memclaw.Skills.WorkerDefs

/-! Which active skills a node has on disk after it has reconciled with the server: the server's
rule for document ids, its page and its idea of a complete row against those of the node. -/

namespace Memclaw.Skills

open Memclaw.Lib Memclaw.Lib.Interleave Memclaw.Api

structure Node where
  home : Path
  ownedDir : Path
  cwd : Path
  configured : Option Json
  tenantId : String
  fleetId : Option String

def Node.targets (node : Node) : List SkillTarget :=
  resolveSkillTargets node.ownedDir node.cwd node.configured

def Row.catalogDoc (row : Row) : CatalogDoc := ⟨some row.docId, row.data⟩

/-- The answer of `/skills/installable` for a tenant that opted in. -/
def Node.catalog (node : Node) (db : DbEnv) (s : Store) : List CatalogDoc :=
  (installableSkills db true node.fleetId 1000 s).map Row.catalogDoc

def Node.reconcile (node : Node) (db : DbEnv) (s : Store) (files : NodeFiles) :
    Option ReconcileRun :=
  reconcileSkills node.home node.targets (some node.tenantId) (some (node.catalog db s)) files

def skillDir (root : Path) (docId : String) : Path :=
  root ++ (docId.toList.splitOn '/').map String.ofList

/-- Every completed run leaves the skill on disk and removes it nowhere. -/
def Delivered (node : Node) (db : DbEnv) (s : Store) (row : Row) : Prop :=
  ∀ files run, node.reconcile db s files = some run →
    isUnchanged run.files.tree (skillDir node.ownedDir row.docId) row.catalogDoc.skillText = true ∧
      ∀ t ∈ node.targets, .remove (skillDir t.dir row.docId) ∉ run.ops

def Node.rank (node : Node) (db : DbEnv) (s : Store) (docId : String) : ℕ :=
  ((db.order .updatedAt (s.activeRows.filter (fleetMatches node.fleetId))).map Row.docId).idxOf
    docId

/-- The node accepts the document id, finds it on its page, and the description is not blank. -/
structure Installs (node : Node) (db : DbEnv) (s : Store) (row : Row) : Prop where
  safe : isSafeSlug row.docId = true
  ranked : node.rank db s row.docId < 1000
  described : trim (row.catalogDoc.text "description") ≠ ""

theorem docIds_put (s : Store) (row : Row) (h : (s.rows.map Row.docId).Nodup) :
    ((s.put row).rows.map Row.docId).Nodup := by
  rw [Store.put]
  by_cases hany : s.rows.any (·.docId = row.docId)
  · simp only [if_pos hany]
    have hsame : (s.rows.map fun r => if r.docId = row.docId then row else r).map Row.docId =
        s.rows.map Row.docId := by
      rw [List.map_map]
      refine List.map_congr_left fun r _ => ?_
      rw [Function.comp_apply]
      split_ifs with hid
      · exact hid.symm
      · rfl
    rw [hsame]
    exact h
  · simp only [if_neg hany]
    rw [List.map_append, List.map_singleton, ← List.concat_eq_append]
    refine h.concat fun hmem => hany ?_
    obtain ⟨r, hr, hid⟩ := List.mem_map.mp hmem
    exact List.any_eq_true.mpr ⟨r, hr, by simpa using hid⟩

theorem docIds_serve (db : DbEnv) (b : Surroundings) (c : Call) {s : Store}
    (h : (s.rows.map Row.docId).Nodup) : ((serve db b c s).2.rows.map Row.docId).Nodup := by
  have hwrites := serve_writes db b c s
  generalize (serve db b c s).2 = s' at hwrites
  cases hwrites with
  | keep hrows =>
    rw [hrows]
    exact h
  | upsert _ => exact docIds_put s _ h
  | status hupdated =>
    obtain ⟨row, -, -, rfl⟩ := updateStatus_eq_some hupdated
    exact docIds_put s _ h

theorem docIds_run {ι : Type} [DecidableEq ι] (env : SkillEnv) (db : DbEnv) (parties : ι → Party)
    (events : List (ι × Surroundings)) :
    ((run (step db) (start env parties .empty) events).shared.rows.map Row.docId).Nodup := by
  have hany : Along (step db) (fun _ _ => True) (start env parties .empty) events :=
    Along.of_forall (fun _ _ => trivial) _ events
  refine hany.invariant (P := fun pool => (pool.shared.rows.map Row.docId).Nodup)
    (fun pool event h _ => ?_) List.nodup_nil
  rw [step, Pool.step]
  dsimp only
  cases pool.parties event.1 with
  | done _ => exact h
  | raise _ => exact h
  | call c _ => exact docIds_serve db event.2 c h

theorem skillDir_of_safe {slug : String} (h : isSafeSlug slug = true) (root : Path) :
    skillDir root slug = root ++ [slug] := by
  have hslash : '/' ∉ slug.toList := by
    rw [isSafeSlug] at h
    split at h
    · exact absurd h (by simp)
    · rename_i c rest hchars
      rw [hchars]
      simp only [Bool.and_eq_true, List.all_eq_true] at h
      obtain ⟨⟨hfirst, -⟩, hrest⟩ := h
      rintro hmem
      rcases List.mem_cons.mp hmem with rfl | hmem
      · exact absurd hfirst (by decide)
      · exact absurd (hrest _ hmem) (by decide)
  rw [skillDir, List.splitOn_eq_singleton hslash]
  simp

theorem docId_of_skillPaths {root : Path} {docId slug : String}
    (h : skillDir root docId ++ [SKILL_FILE] ∈ skillPaths root slug) : docId = slug := by
  have hnil := List.splitOn_ne_nil '/' docId.toList
  have hjoin : ['/'].intercalate (docId.toList.splitOn '/') = docId.toList :=
    List.intercalate_splitOn '/'
  rw [skillDir] at h
  generalize docId.toList.splitOn '/' = parts at h hnil hjoin
  simp only [skillPaths, List.mem_cons, List.not_mem_nil, or_false, List.append_assoc,
    List.append_cancel_left_eq] at h
  have hone : ∀ name, parts.map String.ofList ++ [SKILL_FILE] = [slug] ++ [name] →
      docId = slug := by
    intro name heq
    obtain ⟨hparts, -⟩ := List.append_inj' heq rfl
    obtain ⟨part, rfl, hpart⟩ := List.map_eq_singleton_iff.mp hparts
    rw [List.intercalate_singleton] at hjoin
    rw [← hpart, hjoin, String.ofList_toList]
  rcases h with h | h | h
  · have hlen := congrArg List.length h
    rw [List.length_append, List.length_map, List.length_singleton, List.length_singleton] at hlen
    exact absurd (List.length_eq_zero_iff.mp (by omega)) hnil
  · exact hone _ h
  · exact hone _ h

theorem mem_put_desired {desired : Desired} {slug content : String} {d : String × String}
    (h : d ∈ desired.put slug content) : d = (slug, content) ∨ d ∈ desired := by
  induction desired with
  | nil => exact .inl (List.mem_singleton.mp h)
  | cons first rest ih =>
    obtain ⟨s, c⟩ := first
    rw [Desired.put] at h
    split_ifs at h with hs
    · exact (List.mem_cons.mp h).imp_right (List.mem_cons_of_mem _)
    · rcases List.mem_cons.mp h with rfl | h
      · exact .inr List.mem_cons_self
      · exact (ih h).imp_right (List.mem_cons_of_mem _)

theorem mem_desiredOf {catalog : List CatalogDoc} {d : String × String}
    (h : d ∈ desiredOf catalog) :
    ∃ doc ∈ catalog, doc.installable = true ∧ d = (doc.slug, doc.skillText) := by
  induction catalog using List.reverseRecOn with
  | nil => exact absurd h List.not_mem_nil
  | append_singleton catalog doc ih =>
    rw [desiredOf, List.foldl_append, List.foldl_cons, List.foldl_nil] at h
    have hold : d ∈ desiredOf catalog →
        ∃ doc' ∈ catalog ++ [doc], doc'.installable = true ∧ d = (doc'.slug, doc'.skillText) := by
      intro h
      obtain ⟨doc', hdoc', hd⟩ := ih h
      exact ⟨doc', List.mem_append_left _ hdoc', hd⟩
    split_ifs at h with hdoc
    · rcases mem_put_desired h with hd | h
      · exact ⟨doc, by simp, hdoc, hd⟩
      · exact hold h
    · exact hold h

theorem slug_mem_desiredOf {catalog : List CatalogDoc} {doc : CatalogDoc} (hdoc : doc ∈ catalog)
    (hinstallable : doc.installable = true) : doc.slug ∈ (desiredOf catalog).map Prod.fst := by
  induction catalog using List.reverseRecOn with
  | nil => exact absurd hdoc List.not_mem_nil
  | append_singleton catalog last ih =>
    rw [desiredOf, List.foldl_append, List.foldl_cons, List.foldl_nil]
    rcases List.mem_append.mp hdoc with hdoc | hdoc
    · have hold : doc.slug ∈ (desiredOf catalog).map Prod.fst := ih hdoc
      split_ifs
      · rw [map_fst_put]
        split_ifs
        · exact hold
        · exact List.mem_append_left _ hold
      · exact hold
    · obtain rfl := List.mem_singleton.mp hdoc
      rw [if_pos hinstallable, map_fst_put]
      split_ifs with hmem
      · exact hmem
      · simp

section Serve

variable {node : Node} {db : DbEnv} {s : Store} {row : Row}

theorem mem_catalog {doc : CatalogDoc} :
    doc ∈ node.catalog db s ↔
      ∃ row ∈ installableSkills db true node.fleetId 1000 s, row.catalogDoc = doc := List.mem_map

theorem mem_of_installable (h : row ∈ installableSkills db true node.fleetId 1000 s) :
    row ∈ s.rows := by
  rw [installable_eq] at h
  have hrow := (db.order_perm _ _).mem_iff.mp (List.mem_of_mem_take h)
  exact (mem_activeRows.mp (List.mem_of_mem_filter hrow)).1

theorem mem_installable_iff (hids : (s.rows.map Row.docId).Nodup) (hrow : row ∈ s.rows)
    (hactive : row.has .active = true) (hvisible : fleetMatches node.fleetId row = true) :
    row ∈ installableSkills db true node.fleetId 1000 s ↔ node.rank db s row.docId < 1000 := by
  -- A row is on the page of a node when it is visible, active and early enough.
  have hordered : row ∈ db.order .updatedAt (s.activeRows.filter (fleetMatches node.fleetId)) :=
    (db.order_perm _ _).mem_iff.mpr
      (List.mem_filter.mpr ⟨mem_activeRows.mpr ⟨hrow, hactive⟩, hvisible⟩)
  rw [Node.rank, ← List.mem_take_iff_idxOf_lt (List.mem_map_of_mem hordered), installable_eq,
    ← List.map_take]
  refine ⟨fun h => List.mem_map_of_mem h, fun h => ?_⟩
  obtain ⟨r, hr, hid⟩ := List.mem_map.mp h
  have hrows : r ∈ s.rows := by
    have hpage : r ∈ installableSkills db true node.fleetId 1000 s := by
      rw [installable_eq]
      exact hr
    exact mem_of_installable hpage
  rwa [← List.inj_on_of_nodup_map hids hrows hrow hid]

theorem owned_mem_targets (node : Node) : ⟨node.ownedDir, .owned, false⟩ ∈ node.targets := by
  have hadd : ∀ (entries targets : List SkillTarget) (t : SkillTarget), t ∈ targets →
      t ∈ entries.foldl addTarget targets := by
    intro entries
    induction entries with
    | nil => exact fun _ _ h => h
    | cons entry entries ih =>
      intro targets t ht
      refine ih _ t ?_
      rw [addTarget]
      split_ifs
      · exact ht
      · exact List.mem_append_left _ ht
  unfold Node.targets resolveSkillTargets
  dsimp only
  split
  · exact hadd _ _ _ List.mem_cons_self
  · exact List.mem_cons_self

theorem reconcile_empty (hapart : Apart node.targets) :
    ∃ run, node.reconcile db s ⟨.empty, none⟩ = some run := by
  have hempty : ∀ q, q ≠ [] → FileTree.empty.get q = none := by
    intro q hq
    rw [FileTree.get, FileTree.lookup, if_neg hq]
    rfl
  obtain ⟨s', results, hrun⟩ := reconcileTargets_of_new (s := ⟨.empty, []⟩)
    (nodup_desiredOf (node.catalog db s)) hapart
    (fun t _ q text _ => by
      rcases eq_or_ne q [] with rfl | hq
      · simp
      · simp [hempty q hq])
    (fun t _ name => hempty _ (by simp))
  exact ⟨_, reconcileSkills_eq_some.mpr ⟨s', results, hrun, rfl⟩⟩

theorem installable_of_mem_desired (hids : (s.rows.map Row.docId).Nodup) (hrow : row ∈ s.rows)
    {content : String} (h : (row.docId, content) ∈ desiredOf (node.catalog db s)) :
    row ∈ installableSkills db true node.fleetId 1000 s ∧ row.catalogDoc.installable = true ∧
      content = row.catalogDoc.skillText := by
  obtain ⟨doc, hdoc, hinstallable, hd⟩ := mem_desiredOf h
  obtain ⟨r, hr, rfl⟩ := mem_catalog.mp hdoc
  obtain ⟨hid, hcontent⟩ := Prod.mk.inj hd
  obtain rfl := List.inj_on_of_nodup_map hids hrow (mem_of_installable hr) hid
  exact ⟨hr, hinstallable, hcontent⟩

/-- What the page has and the node accepts is on disk after every completed run. -/
theorem delivered_of_desired (hids : (s.rows.map Row.docId).Nodup) (hapart : Apart node.targets)
    (hpage : row ∈ installableSkills db true node.fleetId 1000 s)
    (hinstallable : row.catalogDoc.installable = true) : Delivered node db s row := by
  intro files run hrun
  have hsafe : isSafeSlug row.docId = true := by
    simp only [CatalogDoc.installable, Bool.and_eq_true] at hinstallable
    exact hinstallable.1.1.2
  have hslug : row.docId ∈ (desiredOf (node.catalog db s)).map Prod.fst :=
    slug_mem_desiredOf (mem_catalog.mpr ⟨row, hpage, rfl⟩) hinstallable
  obtain ⟨results, hall, -⟩ := reconciled_skills hapart hrun
  constructor
  · obtain ⟨⟨slug, content⟩, hd, heq⟩ := List.mem_map.mp hslug
    obtain rfl : slug = row.docId := heq
    obtain ⟨-, -, rfl⟩ := installable_of_mem_desired hids (mem_of_installable hpage) hd
    have hwritten := (hall.settled _ (owned_mem_targets node)).written _ hd
    rw [skillDir_of_safe hsafe]
    exact (hwritten.resolve_left fun hspared => absurd hspared.1 (by simp)).1
  · intro t _ hremove
    rw [skillDir_of_safe hsafe] at hremove
    obtain ⟨t', -, name, heq, hname, -⟩ :=
      (hall.removals _ hremove).resolve_left List.not_mem_nil
    obtain ⟨-, hlast⟩ := List.append_inj' heq rfl
    exact hname (List.singleton_inj.mp hlast ▸ hslug)

/-- After a run from an empty disk, only what the page has and the node accepts is there. -/
theorem desired_of_delivered (hids : (s.rows.map Row.docId).Nodup) (hapart : Apart node.targets)
    (hrow : row ∈ s.rows) (h : Delivered node db s row) :
    row ∈ installableSkills db true node.fleetId 1000 s ∧ row.catalogDoc.installable = true := by
  obtain ⟨run, hrun⟩ : ∃ run, node.reconcile db s ⟨.empty, none⟩ = some run :=
    reconcile_empty hapart
  obtain ⟨results, hall, -⟩ := reconciled_skills hapart hrun
  have hfile := isUnchanged_iff.mp (h _ run hrun).1
  have hdesired : ∃ d ∈ desiredOf (node.catalog db s),
      skillDir node.ownedDir row.docId ++ [SKILL_FILE] ∈ skillPaths node.ownedDir d.1 := by
    by_contra hnone
    have hgone := hall.fresh _ (owned_mem_targets node)
      (skillDir node.ownedDir row.docId ++ [SKILL_FILE])
      (by
        rw [skillDir, List.append_assoc]
        exact List.prefix_append _ _)
      (fun heq => by
        have hlen := congrArg List.length heq
        simp [skillDir] at hlen)
      (by
        rw [FileTree.get, FileTree.lookup, if_neg (by simp)]
        rfl)
      (fun d hd hmem => hnone ⟨d, hd, hmem⟩)
    rw [hgone] at hfile
    exact absurd hfile (by simp)
  obtain ⟨⟨slug, content⟩, hd, hmem⟩ := hdesired
  obtain rfl := docId_of_skillPaths hmem
  obtain ⟨hpage, hinstallable, -⟩ := installable_of_mem_desired hids hrow hd
  exact ⟨hpage, hinstallable⟩

end Serve

/-- In every reachable collection of a tenant that opted in, an active skill that the node's fleet
can see and that has content and a description is kept on disk by every completed run exactly when
the node's rules meet those of the server for it. -/
theorem delivered_iff {ι : Type} [DecidableEq ι] {env : SkillEnv} {db : DbEnv}
    {parties : ι → Party} {events : List (ι × Surroundings)} {node : Node} {row : Row}
    (hapart : Apart node.targets)
    (hrow : row ∈ (run (step db) (start env parties .empty) events).shared.rows)
    (hactive : row.has .active = true) (hvisible : fleetMatches node.fleetId row = true)
    (hcontent : row.catalogDoc.text "content" ≠ "") :
    Delivered node db (run (step db) (start env parties .empty) events).shared row ↔
      Installs node db (run (step db) (start env parties .empty) events).shared row := by
  have hids := docIds_run env db parties events
  have hpage : row ∈ installableSkills db true node.fleetId 1000 _ ↔ _ :=
    mem_installable_iff hids hrow hactive hvisible
  constructor
  · intro h
    obtain ⟨hmem, hinstallable⟩ := desired_of_delivered hids hapart hrow h
    simp only [CatalogDoc.installable, Bool.and_eq_true, decide_eq_true_eq] at hinstallable
    obtain ⟨⟨⟨-, hsafe⟩, -⟩, hdescribed⟩ := hinstallable
    exact ⟨hsafe, hpage.mp hmem, hdescribed⟩
  · rintro ⟨hsafe, hranked, hdescribed⟩
    refine delivered_of_desired hids hapart (hpage.mpr hranked) ?_
    have hslug : row.docId ≠ "" := by
      rintro hempty
      rw [hempty] at hsafe
      exact absurd hsafe (by decide)
    simp only [CatalogDoc.installable, Bool.and_eq_true, decide_eq_true_eq]
    exact ⟨⟨⟨hslug, hsafe⟩, hcontent⟩, hdescribed⟩

def publish (docId : String) : DocWriteRequest where
  caller := { AuthContext.ofTenant "acme" with orgRole := some "admin" }
  settings := ⟨true, ⟨40000, 160⟩, 30⟩
  tenantId := "acme"
  fleetId := none
  docId := docId
  data := [("name", .str "Deploy"), ("slug", .str "deploy"), ("description", .str "Deploys."),
    ("domain", .str "ops"), ("kind", .str "create"), ("source", .str "agent"),
    ("status", Status.active.json), ("content", .str "Ship it.")]
  replay := .ok false
  quota := .ok ()
  getEmbedding := fun _ => .ok true
  now := "2026-01-01T00:00:00+00:00"
  scannedAt := "2026-01-01T00:00:00+00:00"

def published (docId : String) : Store :=
  (run (step .plain) (start .ascii (fun _ : Unit => .post (publish docId)) .empty)
    (List.replicate 2 ((), ⟨.ok, "", 1, "2026-01-01T00:00:00+00:00"⟩))).shared

def acmeNode : Node := ⟨["home"], ["plugin", "skills"], ["srv"], none, "acme", none⟩

theorem delivered_deploy :
    ∃ row ∈ (published "deploy").rows, Delivered acmeNode .plain (published "deploy") row := by
  have hfound : ∃ row ∈ (published "deploy").rows, row.has .active = true ∧
      fleetMatches acmeNode.fleetId row = true ∧ row.catalogDoc.text "content" ≠ "" ∧
      isSafeSlug row.docId = true ∧ acmeNode.rank .plain (published "deploy") row.docId < 1000 ∧
      trim (row.catalogDoc.text "description") ≠ "" := by decide +kernel
  have hapart : Apart acmeNode.targets := by decide
  have hpublished := published.eq_1 "deploy"
  obtain ⟨row, hrow, hactive, hvisible, hcontent, hsafe, hranked, hdescribed⟩ := hfound
  refine ⟨row, hrow, ?_⟩
  rw [hpublished] at hrow hranked ⊢
  exact (delivered_iff hapart hrow hactive hvisible hcontent).mpr ⟨hsafe, hranked, hdescribed⟩

/-- The server takes `agent/deploy`, which the node does not put on disk. -/
theorem not_delivered_prefixed :
    ¬ ∀ (parties : Unit → Party) (events : List (Unit × Surroundings)) (row : Row),
      (∀ i req, parties i = .post req → req.settings.enabled = true) →
      row ∈ (run (step .plain) (start .ascii parties .empty) events).shared.rows →
      row.has .active = true → fleetMatches acmeNode.fleetId row = true →
      row.catalogDoc.text "content" ≠ "" → row.catalogDoc.text "description" ≠ "" →
      Delivered acmeNode .plain (run (step .plain) (start .ascii parties .empty) events).shared
        row := by
  intro h
  have hfound : ∃ row ∈ (published "agent/deploy").rows, row.has .active = true ∧
      fleetMatches acmeNode.fleetId row = true ∧ row.catalogDoc.text "content" ≠ "" ∧
      row.catalogDoc.text "description" ≠ "" ∧ row.catalogDoc.installable = false := by
    decide +kernel
  have hapart : Apart acmeNode.targets := by decide
  have hpublished := published.eq_1 "agent/deploy"
  rw [hpublished] at hfound
  obtain ⟨row, hrow, hactive, hvisible, hcontent, hdescription, hrejected⟩ := hfound
  have hdelivered := h (fun _ => .post (publish "agent/deploy")) _ row
    (fun _ req hreq => by
      obtain rfl := Party.post.inj hreq
      rfl)
    hrow hactive hvisible hcontent hdescription
  obtain ⟨-, hinstallable⟩ :=
    desired_of_delivered (docIds_run _ _ _ _) hapart hrow hdelivered
  rw [hrejected] at hinstallable
  exact absurd hinstallable (by simp)

end Memclaw.Skills
