import Mathlib.Data.List.TakeWhile
import Memclaw.Entities.Resolve

/-! What `entity_resolve_duplicates` reports against what it did, when the merges of some duplicates
fail: it tells the truth exactly where no cluster fails behind a merge of its own. -/

namespace Memclaw.Entities

open Memclaw.Lib

variable {V W D : Type} [LinearOrder W] [LinearOrder D]

section Runs

variable (fails : ℕ → Bool) (tenantId : String)

/-- The merge of a duplicate in its savepoint: nothing is left of one that raises, by itself or
because the database fails. -/
def mergeInSavepoint (t : Tables V W) (canonical dupe : Entity V) : Option (Tables V W) :=
  if fails dupe.id then none else entityMergeDupeIntoCanonical t canonical dupe tenantId

def mergeDupesUnder : Tables V W → Entity V → List (Entity V) → ClusterRun V W
  | t, _, [] => ⟨t, [], false⟩
  | t, canonical, dupe :: dupes =>
    match mergeInSavepoint fails tenantId t canonical dupe with
    | none => ⟨t, [], true⟩
    | some t' =>
      let run := mergeDupesUnder t'
        { canonical with attributes := mergedAttributes canonical dupe } dupes
      { run with mergedIds := dupe.id :: run.mergedIds }

def entityMergeClusterUnder (t : Tables V W) (clusterIds : List ℕ) : ClusterRun V W :=
  let entities := t.members tenantId clusterIds
  match pickCanonical entities with
  | none => ⟨t, [], false⟩
  | some canonical =>
    mergeDupesUnder fails tenantId t canonical (entities.filter fun e => e.id ≠ canonical.id)

def processClusterUnder (s : Progress V W) (cluster : Cluster) : Progress V W :=
  if cluster.2.length < 2 then s
  else
    let run := entityMergeClusterUnder fails tenantId s.tables cluster.2
    let mergedIds := s.mergedIds ++ run.mergedIds
    if run.failed then
      { s with tables := run.tables, mergedIds := mergedIds, clusterErrors := s.clusterErrors + 1 }
    else
      { s with
        tables := run.tables
        mergedIds := mergedIds
        mergeCount := s.mergeCount + run.mergedIds.length
        clustersProcessed :=
          if 0 < run.mergedIds.length then s.clustersProcessed + 1 else s.clustersProcessed }

end Runs

section Resolve

variable (fails : ℕ → Bool) (q : ResolveRequest V D) (t : Tables V W) (order : SetOrder)

def processClustersUnder : Progress V W :=
  (clustersOf order (similarPairs q t)).foldl (processClusterUnder fails q.tenantId) ⟨t, 0, [], 0, 0⟩

def entityResolveDuplicatesUnder : Tables V W × ResolveResult :=
  if similarPairs q t = [] then (t, .skipped)
  else
    let s := processClustersUnder fails q t order
    if s.clustersProcessed = 0 ∧ 0 < s.clusterErrors then
      (s.tables, .failed "all clusters failed to merge" s.clusterErrors)
    else
      (s.tables, .done s.mergeCount s.clustersProcessed s.clusterErrors s.mergedIds)

end Resolve

theorem mergeDupesUnder_none (tenantId : String) (t : Tables V W) (canonical : Entity V)
    (dupes : List (Entity V)) :
    mergeDupesUnder (fun _ => false) tenantId t canonical dupes =
      mergeDupes tenantId t canonical dupes := by
  induction dupes generalizing t canonical with
  | nil => rfl
  | cons dupe dupes ih =>
    have hmerge : mergeInSavepoint (fun _ => false) tenantId t canonical dupe =
        entityMergeDupeIntoCanonical t canonical dupe tenantId := rfl
    rw [mergeDupesUnder, mergeDupes, hmerge]
    cases entityMergeDupeIntoCanonical t canonical dupe tenantId with
    | none => rfl
    | some t' =>
      dsimp only
      rw [ih]

theorem entityResolveDuplicatesUnder_none (q : ResolveRequest V D) (t : Tables V W)
    (order : SetOrder) :
    entityResolveDuplicatesUnder (fun _ => false) q t order = entityResolveDuplicates q t order := by
  have hcluster : ∀ (s : Progress V W) (cluster : Cluster),
      processClusterUnder (fun _ => false) q.tenantId s cluster =
        processCluster q.tenantId s cluster := by
    intro s cluster
    have hrun : entityMergeClusterUnder (fun _ => false) q.tenantId s.tables cluster.2 =
        entityMergeCluster s.tables cluster.2 q.tenantId := by
      unfold entityMergeClusterUnder entityMergeCluster
      dsimp only
      cases pickCanonical (s.tables.members q.tenantId cluster.2) with
      | none => rfl
      | some canonical => exact mergeDupesUnder_none _ _ _ _
    rw [processClusterUnder, processCluster, hrun]
  have hclusters : processClustersUnder (fun _ => false) q t order = processClusters q t order := by
    unfold processClustersUnder processClusters
    congr 1
    funext s cluster
    exact hcluster s cluster
  rw [entityResolveDuplicatesUnder, entityResolveDuplicates, hclusters]

/-- Neither end of the relation is one of these entities. -/
def Relation.Apart (touched : List ℕ) (r : Relation W) : Prop :=
  r.fromEntityId ∉ touched ∧ r.toEntityId ∉ touched

instance (touched : List ℕ) (r : Relation W) : Decidable (r.Apart touched) :=
  inferInstanceAs (Decidable (_ ∧ _))

omit [LinearOrder W] in
theorem Relation.Apart.near {touched : List ℕ} {r : Relation W} (h : r.Apart touched) (e : End) :
    r.key.near e ∉ touched := by
  cases e
  · exact h.1
  · exact h.2

structure OthersKept (touched : List ℕ) (t t' : Tables V W) : Prop where
  links : ∀ p : MemoryEntityLink → Bool, (∀ l, p l = true → l.entityId ∉ touched) →
    t'.links.filter p = t.links.filter p
  relations : ∀ p : Relation W → Bool, (∀ r, p r = true → r.Apart touched) →
    t'.relations.filter p = t.relations.filter p

omit [LinearOrder W] in
theorem OthersKept.refl (touched : List ℕ) (t : Tables V W) : OthersKept touched t t :=
  ⟨fun _ _ => rfl, fun _ _ => rfl⟩

omit [LinearOrder W] in
theorem OthersKept.mono {touched touched' : List ℕ} {t t' : Tables V W}
    (h : OthersKept touched t t') (hsub : touched ⊆ touched') : OthersKept touched' t t' where
  links p hp := h.links p fun l hl hmem => hp l hl (hsub hmem)
  relations p hp := h.relations p fun r hr =>
    ⟨fun hmem => (hp r hr).1 (hsub hmem), fun hmem => (hp r hr).2 (hsub hmem)⟩

omit [LinearOrder W] in
theorem OthersKept.trans {touched touched' : List ℕ} {t t' t'' : Tables V W}
    (h : OthersKept touched t t') (h' : OthersKept touched' t' t'') :
    OthersKept (touched ++ touched') t t'' := by
  have hfirst := h.mono (List.subset_append_left touched touched')
  have hsecond := h'.mono (List.subset_append_right touched touched')
  exact ⟨fun p hp => (hsecond.links p hp).trans (hfirst.links p hp),
    fun p hp => (hsecond.relations p hp).trans (hfirst.relations p hp)⟩

theorem filter_filter_of_imp {α : Type} {p keep : α → Bool} {rows : List α}
    (h : ∀ a, p a = true → keep a = true) : (rows.filter keep).filter p = rows.filter p := by
  rw [List.filter_filter]
  refine List.filter_congr fun a _ => ?_
  cases hp : p a with
  | false => rfl
  | true => rw [h a hp, Bool.and_self]

theorem filter_map_of_moved {α : Type} {p : α → Bool} {move : α → α} {rows : List α}
    (h : ∀ a, p a = true ∨ p (move a) = true → move a = a) :
    (rows.map move).filter p = rows.filter p := by
  induction rows with
  | nil => rfl
  | cons a rows ih =>
    by_cases hsame : move a = a
    · rw [List.map_cons, hsame, List.filter_cons, List.filter_cons, ih]
    · have hout : ¬ (p a = true ∨ p (move a) = true) := fun hp => hsame (h a hp)
      rw [not_or] at hout
      rw [List.map_cons, List.filter_cons_of_neg hout.2, List.filter_cons_of_neg hout.1, ih]

theorem relations_of_repoint {t t' : Tables V W} {tenantId : String} {c d : ℕ} {e : End}
    (h : t.repointRelations tenantId c d e = some t') {p : Relation W → Bool}
    (hp : ∀ r, p r = true → r.Apart [c, d]) : t'.relations.filter p = t.relations.filter p := by
  have hout : ∀ r : Relation W, p r = true → r.key.near e ≠ c ∧ r.key.near e ≠ d := by
    intro r hr
    simpa using (hp r hr).near e
  unfold Tables.repointRelations Tables.repointEnd at h
  dsimp only at h
  split at h
  · obtain rfl := Option.some.inj h
    show (((t.relations.map _).filter _).map _).filter p = _
    rw [filter_map_of_moved, filter_filter_of_imp, filter_map_of_moved]
    · -- A relation with a new weight has its old key.
      intro r hr
      have hnear : r.key.near e ≠ c := by
        rcases hr with hr | hr
        · exact (hout r hr).1
        · have hmoved := (hout _ hr).1
          rwa [Tables.keepWeight_key] at hmoved
      rw [Tables.keepWeight, if_neg (by simp [hnear])]
    · intro r hr
      simp [Tables.conflicts, (hout r hr).2]
    · intro r hr
      rcases hr with hr | hr
      · rw [Tables.repoint, if_neg (by simp [(hout r hr).2])]
      · unfold Tables.repoint at hr ⊢
        split at hr
        · refine absurd ?_ (hout _ hr).1
          cases e <;> rfl
        · next hstays => rw [if_neg hstays]
  · cases h

theorem others_of_merge {t t' : Tables V W} {canonical dupe : Entity V} {tenantId : String}
    (h : entityMergeDupeIntoCanonical t canonical dupe tenantId = some t') :
    OthersKept [canonical.id, dupe.id] t t' := by
  simp only [entityMergeDupeIntoCanonical, Option.bind_eq_bind, Option.bind_eq_some_iff,
    Option.some.injEq] at h
  obtain ⟨t₁, hlinks, t₂, hsource, t₃, htarget, attributes, -, rfl⟩ := h
  have hkept := (Tables.repointBoth_frame hsource htarget).2.2
  unfold Tables.repointLinks at hlinks
  dsimp only at hlinks
  split at hlinks
  · obtain rfl := Option.some.inj hlinks
    refine ⟨fun p hp => ?_, fun p hp => ?_⟩
    · have hout : ∀ l, p l = true → l.entityId ≠ canonical.id ∧ l.entityId ≠ dupe.id := by
        intro l hl
        simpa using hp l hl
      show (t₃.links.filter _).filter p = _
      rw [hkept, filter_filter_of_imp fun l hl => by simp [(hout l hl).2]]
      show (((t.links.filter _).map _).filter p) = _
      rw [filter_map_of_moved, filter_filter_of_imp fun l hl => by simp [(hout l hl).2]]
      intro l hl
      rcases hl with hl | hl
      · rw [if_neg (by simp [(hout l hl).2])]
      · split at hl
        · exact absurd rfl (hout _ hl).1
        · next hstays => rw [if_neg hstays]
    · have hrest : ∀ r, p r = true →
          (decide (r.fromEntityId ≠ dupe.id) && decide (r.toEntityId ≠ dupe.id)) = true := by
        intro r hr
        obtain ⟨hfrom, hto⟩ := hp r hr
        simp only [List.mem_cons, List.not_mem_nil, or_false, not_or] at hfrom hto
        simp [hfrom.2, hto.2]
      show (t₃.relations.filter _).filter p = _
      rw [filter_filter_of_imp hrest, relations_of_repoint htarget hp,
        relations_of_repoint hsource hp]
      rfl
  · cases hlinks

def raises (fails : ℕ → Bool) (canonical dupe : Entity V) : Bool :=
  fails dupe.id || !canonical.aliases.isSome || !dupe.aliases.isSome

/-- What the merges of a cluster leave, if they take `merged` out and `failed` tells whether one of
them did not go through. -/
structure Outcome (touched merged : List ℕ) (failed : Bool) (t : Tables V W)
    (run : ClusterRun V W) : Prop where
  ids : run.mergedIds = merged
  failed : run.failed = failed
  tables : Merged merged touched t run.tables
  others : OthersKept touched t run.tables

theorem mergeDupesUnder_outcome (fails : ℕ → Bool) (tenantId : String) {t : Tables V W}
    (ht : t.WellKeyed) {canonical : Entity V} {dupes : List (Entity V)}
    (hne : ∀ e ∈ dupes, canonical.id ≠ e.id) :
    Outcome (canonical.id :: (dupes.takeWhile fun e => !raises fails canonical e).map Entity.id)
      ((dupes.takeWhile fun e => !raises fails canonical e).map Entity.id)
      (dupes.any fun e => raises fails canonical e) t
      (mergeDupesUnder fails tenantId t canonical dupes) := by
  induction dupes generalizing t canonical with
  | nil => exact ⟨rfl, rfl, Merged.refl ht _, OthersKept.refl _ _⟩
  | cons dupe dupes ih =>
    have hfirst : canonical.id ≠ dupe.id := hne dupe List.mem_cons_self
    have hattributes := mergedAttributes_isSome canonical dupe
    rw [mergeDupesUnder, mergeInSavepoint]
    by_cases hraises : raises fails canonical dupe = true
    · have hnone : (if fails dupe.id then none
          else entityMergeDupeIntoCanonical t canonical dupe tenantId) = none := by
        split
        · rfl
        · next hdatabase =>
          refine merge_none ht hfirst tenantId ?_
          rw [← Option.not_isSome_iff_eq_none, hattributes]
          simpa [raises, hdatabase, imp_iff_not_or] using hraises
      rw [hnone, List.takeWhile_cons_of_neg (by simp [hraises]), List.any_cons, hraises]
      exact ⟨rfl, rfl, Merged.refl ht _, OthersKept.refl _ _⟩
    · simp only [raises, Bool.or_eq_true, Bool.not_eq_true', not_or, Bool.not_eq_true,
        Bool.not_eq_false] at hraises
      obtain ⟨⟨hdatabase, hcanonical⟩, hdupe⟩ := hraises
      rw [hcanonical, hdupe, Bool.and_self] at hattributes
      obtain ⟨attributes, hmerged⟩ := Option.isSome_iff_exists.mp hattributes
      obtain ⟨t', hmerge, hstep⟩ := merge_merged ht hfirst tenantId hmerged
      have hsame : ∀ e : Entity V,
          raises fails { canonical with attributes := some attributes } e =
            raises fails canonical e := by
        intro e
        rw [raises, raises, aliases_of_merged hmerged, hcanonical]
      obtain ⟨hids, hfailed, htables, hothers⟩ :=
        @ih t' hstep.keyed { canonical with attributes := some attributes }
          fun e he => hne e (List.mem_cons_of_mem dupe he)
      simp only [hsame] at hids hfailed htables hothers
      have hpasses : raises fails canonical dupe = false := by
        simp [raises, hdatabase, hcanonical, hdupe]
      rw [if_neg (by simp [hdatabase]), hmerge, hmerged,
        List.takeWhile_cons_of_pos (by simp [hpasses]), List.any_cons, hpasses]
      have hsub : [canonical.id, dupe.id] ++ (canonical.id ::
          (dupes.takeWhile fun e => !raises fails canonical e).map Entity.id) ⊆
          canonical.id :: dupe.id ::
            (dupes.takeWhile fun e => !raises fails canonical e).map Entity.id := by
        intro x hx
        simp only [List.mem_append, List.mem_cons, List.not_mem_nil, or_false] at hx ⊢
        tauto
      exact ⟨congrArg (dupe.id :: ·) hids, hfailed, (hstep.trans htables).mono hsub,
        ((others_of_merge hmerge).trans hothers).mono hsub⟩

section Clusters

variable (fails : ℕ → Bool) (tenantId : String) (t : Tables V W) (cluster : Cluster)

def Tables.split : Option (Entity V × List (Entity V)) :=
  if cluster.2.length < 2 then none
  else (pickCanonical (t.members tenantId cluster.2)).map fun canonical =>
    (canonical, (t.members tenantId cluster.2).filter fun e => e.id ≠ canonical.id)

def Tables.mergedUnder : List ℕ :=
  match t.split tenantId cluster with
  | none => []
  | some (canonical, dupes) =>
    (dupes.takeWhile fun e => !raises fails canonical e).map Entity.id

def Tables.failsUnder : Bool :=
  match t.split tenantId cluster with
  | none => false
  | some (canonical, dupes) => dupes.any fun e => raises fails canonical e

def Tables.touchedUnder : List ℕ :=
  match t.split tenantId cluster with
  | none => []
  | some (canonical, _) => canonical.id :: t.mergedUnder fails tenantId cluster

end Clusters

variable {fails : ℕ → Bool} {tenantId : String} {t : Tables V W} {cluster : Cluster}

omit [LinearOrder W] in
theorem mem_of_split {canonical : Entity V} {dupes : List (Entity V)}
    (h : t.split tenantId cluster = some (canonical, dupes)) :
    (canonical ∈ t.entities ∧ canonical.id ∈ cluster.2) ∧
      ∀ e ∈ dupes, e ∈ t.entities ∧ e.id ∈ cluster.2 ∧ canonical.id ≠ e.id := by
  unfold Tables.split at h
  split at h
  · exact nomatch h
  · obtain ⟨c, hpick, hpair⟩ := Option.map_eq_some_iff.mp h
    obtain ⟨rfl, rfl⟩ := Prod.mk.inj hpair
    obtain ⟨hmem, hin, -⟩ := mem_members.mp (pickCanonical_mem hpick)
    refine ⟨⟨hmem, hin⟩, fun e he => ?_⟩
    obtain ⟨he, hne⟩ := List.mem_filter.mp he
    obtain ⟨hmem', hin', -⟩ := mem_members.mp he
    exact ⟨hmem', hin', (of_decide_eq_true hne).symm⟩

omit [LinearOrder W] in
theorem touchedUnder_subset : t.touchedUnder fails tenantId cluster ⊆ cluster.2 := by
  intro x hx
  unfold Tables.touchedUnder Tables.mergedUnder at hx
  cases hsplit : t.split tenantId cluster with
  | none =>
    rw [hsplit] at hx
    exact absurd hx List.not_mem_nil
  | some pair =>
    obtain ⟨canonical, dupes⟩ := pair
    rw [hsplit] at hx
    obtain ⟨hcanonical, hdupes⟩ := mem_of_split hsplit
    rcases List.mem_cons.mp hx with rfl | hx
    · exact hcanonical.2
    · obtain ⟨e, he, rfl⟩ := List.mem_map.mp hx
      exact (hdupes e (List.takeWhile_subset _ he)).2.1

structure Step (fails : ℕ → Bool) (tenantId : String) (t : Tables V W) (touched : List ℕ)
    (clusters : List Cluster) (s s' : Progress V W) : Prop where
  mergedIds : s'.mergedIds = s.mergedIds ++ clusters.flatMap (t.mergedUnder fails tenantId)
  mergeCount : s'.mergeCount = s.mergeCount +
    ((clusters.filter fun c => !t.failsUnder fails tenantId c).flatMap
      (t.mergedUnder fails tenantId)).length
  processed : s'.clustersProcessed = s.clustersProcessed + (clusters.filter fun c =>
    !t.failsUnder fails tenantId c && !(t.mergedUnder fails tenantId c).isEmpty).length
  errors : s'.clusterErrors = s.clusterErrors +
    (clusters.filter fun c => t.failsUnder fails tenantId c).length
  tables : Merged s'.mergedIds (touched ++ clusters.flatMap (t.touchedUnder fails tenantId)) t
    s'.tables
  others : OthersKept (touched ++ clusters.flatMap (t.touchedUnder fails tenantId)) t s'.tables

theorem entityMergeClusterUnder_outcome {t' : Tables V W} (ht : t'.WellKeyed)
    (hmembers : t'.members tenantId cluster.2 = t.members tenantId cluster.2)
    (hlength : ¬cluster.2.length < 2) :
    Outcome (t.touchedUnder fails tenantId cluster) (t.mergedUnder fails tenantId cluster)
      (t.failsUnder fails tenantId cluster) t'
      (entityMergeClusterUnder fails tenantId t' cluster.2) := by
  -- The merges of a cluster start from what it was before the run.
  unfold entityMergeClusterUnder Tables.touchedUnder Tables.failsUnder Tables.mergedUnder
    Tables.split
  rw [hmembers, if_neg hlength]
  dsimp only
  cases pickCanonical (t.members tenantId cluster.2) with
  | none => exact ⟨rfl, rfl, Merged.refl ht [], OthersKept.refl _ _⟩
  | some canonical =>
    refine mergeDupesUnder_outcome fails tenantId ht fun e he hsame => ?_
    exact of_decide_eq_true (List.mem_filter.mp he).2 hsame.symm

omit [LinearOrder W] in
theorem under_of_short (h : cluster.2.length < 2) :
    t.mergedUnder fails tenantId cluster = [] ∧ t.failsUnder fails tenantId cluster = false ∧
      t.touchedUnder fails tenantId cluster = [] := by
  unfold Tables.touchedUnder Tables.failsUnder Tables.mergedUnder Tables.split
  rw [if_pos h]
  exact ⟨rfl, rfl, rfl⟩

theorem processClusterUnder_step {s : Progress V W} {touched : List ℕ}
    (hs : Merged s.mergedIds touched t s.tables) (hothers : OthersKept touched t s.tables)
    (hdisjoint : ∀ id ∈ cluster.2, id ∉ touched) :
    Step fails tenantId t touched [cluster] s (processClusterUnder fails tenantId s cluster) := by
  unfold processClusterUnder
  split
  · next hlength =>
    obtain ⟨hmerged, hfails, htouched⟩ : t.mergedUnder fails tenantId cluster = [] ∧
        t.failsUnder fails tenantId cluster = false ∧
        t.touchedUnder fails tenantId cluster = [] := under_of_short hlength
    refine ⟨?_, ?_, ?_, ?_, ?_, ?_⟩
    · simp [hmerged]
    · simp [hmerged, hfails]
    · simp [hmerged, hfails]
    · simp [hfails]
    · simpa [htouched] using hs
    · simpa [htouched] using hothers
  · next hlength =>
    obtain ⟨hids, hfailed, htables, hothers'⟩ : Outcome (t.touchedUnder fails tenantId cluster) _ _
        s.tables (entityMergeClusterUnder fails tenantId s.tables cluster.2) :=
      entityMergeClusterUnder_outcome hs.keyed (hs.members tenantId hdisjoint) hlength
    dsimp only
    rw [hids, hfailed]
    cases hfails : t.failsUnder fails tenantId cluster with
    | true =>
      refine ⟨?_, ?_, ?_, ?_, ?_, ?_⟩
      · simp
      · simp [hfails]
      · simp [hfails]
      · simp [hfails]
      · simpa using hs.trans htables
      · simpa using hothers.trans hothers'
    | false =>
      refine ⟨?_, ?_, ?_, ?_, ?_, ?_⟩
      · simp
      · simp [hfails]
      · cases hmerged : t.mergedUnder fails tenantId cluster <;> simp [hfails, hmerged]
      · simp [hfails]
      · simpa using hs.trans htables
      · simpa using hothers.trans hothers'

theorem processClustersUnder_step {s : Progress V W} {touched : List ℕ}
    (hs : Merged s.mergedIds touched t s.tables) (hothers : OthersKept touched t s.tables)
    {clusters : List Cluster} (hdisjoint : clusters.Pairwise fun a b => ∀ id ∈ b.2, id ∉ a.2)
    (htouched : ∀ cluster ∈ clusters, ∀ id ∈ cluster.2, id ∉ touched) :
    Step fails tenantId t touched clusters s
      (clusters.foldl (processClusterUnder fails tenantId) s) := by
  induction clusters generalizing s touched with
  | nil =>
    refine ⟨?_, rfl, rfl, rfl, ?_, ?_⟩
    · exact (List.append_nil _).symm
    · simpa using hs
    · simpa using hothers
  | cons cluster clusters ih =>
    obtain ⟨hfirst, hrest⟩ := List.pairwise_cons.mp hdisjoint
    have hstep : Step fails tenantId t touched [cluster] s _ :=
      processClusterUnder_step hs hothers (htouched cluster List.mem_cons_self)
    have htouched' : ∀ other ∈ clusters, ∀ id ∈ other.2,
        id ∉ touched ++ [cluster].flatMap (t.touchedUnder fails tenantId) := by
      intro other hother id hid hmem
      rcases List.mem_append.mp hmem with hmem | hmem
      · exact htouched other (List.mem_cons_of_mem _ hother) id hid hmem
      · rw [List.flatMap_singleton] at hmem
        exact hfirst other hother id hid (touchedUnder_subset hmem)
    have hrun := ih hstep.tables hstep.others hrest htouched'
    refine ⟨?_, ?_, ?_, ?_, ?_, ?_⟩
    · rw [List.foldl_cons, hrun.mergedIds, hstep.mergedIds]
      simp
    · rw [List.foldl_cons, hrun.mergeCount, hstep.mergeCount]
      cases hfails : t.failsUnder fails tenantId cluster <;> simp [hfails, Nat.add_assoc]
    · rw [List.foldl_cons, hrun.processed, hstep.processed]
      simp only [List.filter_cons, List.filter_nil]
      split <;> simp [Nat.add_assoc, Nat.add_comm]
    · rw [List.foldl_cons, hrun.errors, hstep.errors]
      cases hfails : t.failsUnder fails tenantId cluster <;>
        simp [hfails, Nat.add_assoc, Nat.add_comm]
    · simpa using hrun.tables
    · simpa using hrun.others

def removed (t t' : Tables V W) : List ℕ :=
  (t.entities.map Entity.id).filter fun id => id ∉ t'.entities.map Entity.id

/-- The counts and ids of the answer are those of the entities removed, and an error is answered
only where none was. -/
def Truthful (clusters : List Cluster) (t t' : Tables V W) : ResolveResult → Prop
  | .skipped => removed t t' = []
  | .failed _ _ => removed t t' = []
  | .done mergeCount processed _ mergedEntityIds =>
    mergeCount = mergedEntityIds.length ∧ mergedEntityIds.Perm (removed t t') ∧
      processed = (clusters.filter fun c => c.2.any fun id => id ∈ removed t t').length

/-- A duplicate whose merge fails keeps its row, its links, the memories about it and its relations
with entities that no merge touches. -/
def FailedKept (fails : ℕ → Bool) (tenantId : String) (clusters : List Cluster)
    (t t' : Tables V W) : Prop :=
  ∀ c ∈ clusters, ∀ canonical dupes, t.split tenantId c = some (canonical, dupes) →
    ∀ d ∈ dupes, raises fails canonical d = true → d ∈ t'.entities ∧
      t'.links.filter (fun l => l.entityId = d.id) = t.links.filter (fun l => l.entityId = d.id) ∧
      (∀ m ∈ t.memories, m.subjectEntityId = some d.id → m ∈ t'.memories) ∧
      ∀ r : Relation W, r.fromEntityId = d.id ∨ r.toEntityId = d.id →
        r.Apart (clusters.flatMap (t.touchedUnder fails tenantId)) →
          (r ∈ t'.relations ↔ r ∈ t.relations)

/-- Where the merge of a duplicate fails, that of the first one of its cluster does. -/
def FailsAtFirst (fails : ℕ → Bool) (tenantId : String) (t : Tables V W) (cluster : Cluster) :
    Prop :=
  ∀ canonical dupes, t.split tenantId cluster = some (canonical, dupes) →
    (∃ d ∈ dupes, raises fails canonical d = true) →
      ∀ first ∈ dupes.head?, raises fails canonical first = true

omit [LinearOrder W] in
theorem failsAtFirst_iff : FailsAtFirst fails tenantId t cluster ↔
    (t.failsUnder fails tenantId cluster = true → t.mergedUnder fails tenantId cluster = []) := by
  unfold FailsAtFirst Tables.failsUnder Tables.mergedUnder
  cases t.split tenantId cluster with
  | none => simp
  | some pair =>
    obtain ⟨canonical, dupes⟩ := pair
    dsimp only
    rw [List.any_eq_true]
    constructor
    · intro h hany
      have hfirst := h canonical dupes rfl hany
      cases dupes with
      | nil => rfl
      | cons first dupes =>
        have hraises : raises fails canonical first = true := hfirst first rfl
        rw [List.takeWhile_cons_of_neg (by simp [hraises])]
        rfl
    · rintro h canonical' dupes' hpair hany first hfirst
      obtain ⟨rfl, rfl⟩ := Prod.mk.inj (Option.some.inj hpair)
      cases dupes with
      | nil => exact nomatch hfirst
      | cons first' dupes =>
        obtain rfl : first' = first := Option.some.inj hfirst
        by_contra hraises
        rw [List.takeWhile_cons_of_pos (by simpa using hraises)] at h
        exact absurd (h hany) (List.cons_ne_nil _ _)

theorem flatMap_filter_eq {α β : Type} {p : α → Bool} {f : α → List β} {l : List α} :
    ((l.filter p).flatMap f).length = (l.flatMap f).length ↔
      ∀ a ∈ l, p a = false → f a = [] := by
  have hle : ∀ l : List α, ((l.filter p).flatMap f).length ≤ (l.flatMap f).length := by
    intro l
    induction l with
    | nil => exact le_rfl
    | cons a l ih => cases hp : p a <;> simp [hp] <;> simp at ih <;> omega
  induction l with
  | nil => simp
  | cons a l ih =>
    have hrest := hle l
    rw [List.forall_mem_cons]
    refine Iff.trans ?_ (and_congr_right' ih)
    rw [List.flatMap_cons, List.length_append]
    cases hp : p a with
    | true =>
      rw [List.filter_cons_of_pos hp, List.flatMap_cons, List.length_append]
      simp
    | false =>
      rw [List.filter_cons_of_neg (by simp [hp]), ← List.length_eq_zero_iff]
      constructor
      · intro h
        exact ⟨fun _ => by omega, by omega⟩
      · rintro ⟨h, h'⟩
        rw [h rfl, h', Nat.zero_add]

omit [LinearOrder W] in
theorem mem_removed {ids touched : List ℕ} {t' : Tables V W} (h : Merged ids touched t t') {id : ℕ} :
    id ∈ removed t t' ↔ id ∈ t.entities.map Entity.id ∧ id ∈ ids := by
  rw [removed, List.mem_filter, decide_eq_true_eq, h.entityIds, List.mem_filter, decide_eq_true_eq]
  refine and_congr_right fun hid => ?_
  rw [not_and, not_not]
  exact ⟨fun h => h hid, fun h _ => h⟩

section Report

variable {q : ResolveRequest V D} {order : SetOrder}

omit [LinearOrder W] in
theorem cluster_unique {c c' : Cluster} (hc : c ∈ clustersOf order (similarPairs q t))
    (hc' : c' ∈ clustersOf order (similarPairs q t)) {id : ℕ} (hid : id ∈ c.2) (hid' : id ∈ c'.2) :
    c = c' := by
  by_contra hne
  have hsymm : Std.Symm fun a b : Cluster => ∀ id ∈ b.2, id ∉ a.2 :=
    ⟨fun a b h id hida hidb => h id hidb hida⟩
  exact (clustersOf_disjoint order _).forall hc hc' hne id hid' hid

omit [LinearOrder W] in
theorem mem_mergedUnder {c : Cluster} {id : ℕ} (h : id ∈ t.mergedUnder fails tenantId c) :
    id ∈ t.entities.map Entity.id ∧ id ∈ c.2 := by
  unfold Tables.mergedUnder at h
  cases hsplit : t.split tenantId c with
  | none =>
    rw [hsplit] at h
    exact absurd h List.not_mem_nil
  | some pair =>
    obtain ⟨canonical, dupes⟩ := pair
    rw [hsplit] at h
    obtain ⟨e, he, rfl⟩ := List.mem_map.mp h
    obtain ⟨hmem, hin, -⟩ := (mem_of_split hsplit).2 e (List.takeWhile_subset _ he)
    exact ⟨List.mem_map_of_mem hmem, hin⟩

omit [LinearOrder W] in
theorem nodup_mergedUnder (ht : Keyed.Unique Entity.id t.entities) (c : Cluster) :
    (t.mergedUnder fails tenantId c).Nodup := by
  unfold Tables.mergedUnder Tables.split
  split
  · exact List.nodup_nil
  · next canonical dupes hsplit =>
    split at hsplit
    · exact nomatch hsplit
    · obtain ⟨c', -, hpair⟩ := Option.map_eq_some_iff.mp hsplit
      obtain ⟨rfl, rfl⟩ := Prod.mk.inj hpair
      have hdupes : Keyed.Unique Entity.id
          ((t.members tenantId c.2).filter fun e => e.id ≠ c'.id) := (ht.filter _).filter _
      exact hdupes.sublist ((List.takeWhile_sublist _).map Entity.id)

omit [LinearOrder W] in
theorem nodup_allMerged (ht : Keyed.Unique Entity.id t.entities) :
    ((clustersOf order (similarPairs q t)).flatMap (t.mergedUnder fails tenantId)).Nodup := by
  refine List.nodup_flatMap.mpr ⟨fun c _ => nodup_mergedUnder ht c, ?_⟩
  refine (clustersOf_disjoint order _).imp fun {a b} hdisjoint id hida hidb => ?_
  exact hdisjoint id (mem_mergedUnder hidb).2 (mem_mergedUnder hida).2

/-- The run over all clusters. -/
theorem run_step (ht : t.WellKeyed) :
    Step fails q.tenantId t [] (clustersOf order (similarPairs q t)) ⟨t, 0, [], 0, 0⟩
      (processClustersUnder fails q t order) :=
  processClustersUnder_step (s := ⟨t, 0, [], 0, 0⟩) (Merged.refl ht []) (OthersKept.refl [] t)
    (clustersOf_disjoint order _) fun _ _ _ _ => List.not_mem_nil

theorem mergedIds_perm (ht : t.WellKeyed) :
    ((clustersOf order (similarPairs q t)).flatMap (t.mergedUnder fails q.tenantId)).Perm
      (removed t (processClustersUnder fails q t order).tables) := by
  have hrun : Step fails q.tenantId t [] _ _ (processClustersUnder fails q t order) := run_step ht
  have hids := hrun.mergedIds
  rw [List.nil_append] at hids
  have hnodup : (removed t (processClustersUnder fails q t order).tables).Nodup :=
    List.Nodup.filter _ ht.entities
  refine (List.perm_ext_iff_of_nodup (nodup_allMerged ht.entities) hnodup).mpr fun id => ?_
  rw [mem_removed hrun.tables, hids]
  refine ⟨fun h => ⟨?_, h⟩, And.right⟩
  obtain ⟨c, -, hid⟩ := List.mem_flatMap.mp h
  exact (mem_mergedUnder hid).1

theorem any_removed_iff (ht : t.WellKeyed) {c : Cluster}
    (hc : c ∈ clustersOf order (similarPairs q t)) :
    (c.2.any fun id => id ∈ removed t (processClustersUnder fails q t order).tables) =
      !(t.mergedUnder fails q.tenantId c).isEmpty := by
  have hperm : List.Perm _ (removed t (processClustersUnder fails q t order).tables) :=
    mergedIds_perm ht
  rw [Bool.eq_iff_iff, List.any_eq_true, Bool.not_eq_true', List.isEmpty_eq_false_iff_exists_mem]
  constructor
  · rintro ⟨id, hid, hremoved⟩
    obtain ⟨c', hc', hmerged⟩ :=
      List.mem_flatMap.mp (hperm.mem_iff.mpr (of_decide_eq_true hremoved))
    rw [cluster_unique hc hc' hid (mem_mergedUnder hmerged).2]
    exact ⟨id, hmerged⟩
  · rintro ⟨id, hmerged⟩
    have hremoved := hperm.mem_iff.mp (List.mem_flatMap.mpr ⟨c, hc, hmerged⟩)
    exact ⟨id, (mem_mergedUnder hmerged).2, decide_eq_true hremoved⟩

omit [LinearOrder W] in
theorem not_touched_of_raises (ht : t.WellKeyed) {c : Cluster}
    (hc : c ∈ clustersOf order (similarPairs q t)) {canonical d : Entity V}
    {dupes : List (Entity V)} (hsplit : t.split tenantId c = some (canonical, dupes))
    (hd : d ∈ dupes) (hraises : raises fails canonical d = true) :
    d.id ∉ (clustersOf order (similarPairs q t)).flatMap (t.touchedUnder fails tenantId) := by
  obtain ⟨-, hdupes⟩ := mem_of_split hsplit
  obtain ⟨hmem, hin, hne⟩ := hdupes d hd
  intro htouched
  obtain ⟨c', hc', htouched⟩ := List.mem_flatMap.mp htouched
  rw [cluster_unique hc' hc (touchedUnder_subset htouched) hin] at htouched
  unfold Tables.touchedUnder Tables.mergedUnder at htouched
  rw [hsplit] at htouched
  rcases List.mem_cons.mp htouched with hsame | hmerged
  · exact hne hsame.symm
  · obtain ⟨e, he, hid⟩ := List.mem_map.mp hmerged
    have hpassed := List.mem_takeWhile_imp he
    have hsame : e = d := List.inj_on_of_nodup_map ht.entities
      (hdupes e (List.takeWhile_subset _ he)).1 hmem hid
    rw [hsame, hraises] at hpassed
    exact absurd hpassed (by decide)

omit [LinearOrder W] in
theorem mergedUnder_subset_touched :
    t.mergedUnder fails tenantId cluster ⊆ t.touchedUnder fails tenantId cluster := by
  unfold Tables.touchedUnder
  cases hsplit : t.split tenantId cluster with
  | none =>
    unfold Tables.mergedUnder
    rw [hsplit]
    exact List.Subset.refl _
  | some pair => exact List.subset_cons_self _ _

theorem failedKept (ht : t.WellKeyed) : FailedKept fails q.tenantId
    (clustersOf order (similarPairs q t)) t (processClustersUnder fails q t order).tables := by
  intro c hc canonical dupes hsplit d hd hraises
  have hrun : Step fails q.tenantId t [] _ _ (processClustersUnder fails q t order) := run_step ht
  have hout := not_touched_of_raises ht hc hsplit hd hraises
  refine ⟨?_, hrun.others.links _ fun l hl => ?_, fun m hm hsubject => ?_, fun r _ hr => ?_⟩
  · have hmem : d ∈ t.entities := ((mem_of_split hsplit).2 d hd).1
    have hkept : d ∈ t.entities.filter fun e => e.id ∉ [] ++
        (clustersOf order (similarPairs q t)).flatMap (t.touchedUnder fails q.tenantId) :=
      List.mem_filter.mpr ⟨hmem, decide_eq_true hout⟩
    rw [← hrun.tables.others] at hkept
    exact List.mem_of_mem_filter hkept
  · rw [of_decide_eq_true hl]
    exact hout
  · have hids := hrun.mergedIds
    rw [List.nil_append] at hids
    rw [hrun.tables.memories, List.mem_map]
    refine ⟨m, hm, if_neg ?_⟩
    rw [hsubject, Option.any_some, decide_eq_true_eq, hids]
    intro hmerged
    obtain ⟨c', hc', hmerged⟩ := List.mem_flatMap.mp hmerged
    exact hout (List.mem_flatMap.mpr ⟨c', hc', mergedUnder_subset_touched hmerged⟩)
  · have hrows := hrun.others.relations (fun r => decide (r.Apart _)) fun r hr =>
      of_decide_eq_true hr
    have hmem : ∀ rows : List (Relation W), r ∈ rows ↔ r ∈ rows.filter fun r =>
        decide (r.Apart ([] ++ (clustersOf order (similarPairs q t)).flatMap
          (t.touchedUnder fails q.tenantId))) := by
      intro rows
      rw [List.mem_filter, decide_eq_true_eq]
      exact (and_iff_left hr).symm
    rw [hmem, hmem t.relations, hrows]

theorem clustersOf_nil (order : SetOrder) : clustersOf order [] = [] := by
  have hids : order.list (allIds []) = [] := List.eq_nil_iff_forall_not_mem.mpr fun x hx => by
    rw [order.mem_list] at hx
    exact absurd (List.mem_toFinset.mp hx) List.not_mem_nil
  rw [clustersOf, hids]
  rfl

omit [LinearOrder W] in
theorem counted_iff (clusters : List Cluster) :
    ((clusters.filter fun c => !t.failsUnder fails tenantId c).flatMap
        (t.mergedUnder fails tenantId)).length =
        (clusters.flatMap (t.mergedUnder fails tenantId)).length ↔
      ∀ c ∈ clusters, FailsAtFirst fails tenantId t c := by
  rw [flatMap_filter_eq]
  refine forall₂_congr fun c _ => ?_
  rw [failsAtFirst_iff, Bool.not_eq_false']

/-- The answer of a run with pairs tells what it did exactly where it counts all merges. -/
theorem truthful_iff_counted (order : SetOrder) (ht : t.WellKeyed) (hpairs : similarPairs q t ≠ []) :
    Truthful (clustersOf order (similarPairs q t)) t (entityResolveDuplicatesUnder fails q t order).1
        (entityResolveDuplicatesUnder fails q t order).2 ↔
      (((clustersOf order (similarPairs q t)).filter fun c =>
          !t.failsUnder fails q.tenantId c).flatMap (t.mergedUnder fails q.tenantId)).length =
        ((clustersOf order (similarPairs q t)).flatMap (t.mergedUnder fails q.tenantId)).length := by
  have hrun : Step fails q.tenantId t [] _ _ (processClustersUnder fails q t order) := run_step ht
  have hperm : List.Perm _ (removed t (processClustersUnder fails q t order).tables) :=
    mergedIds_perm ht
  unfold entityResolveDuplicatesUnder
  rw [if_neg hpairs]
  dsimp only
  have hids := hrun.mergedIds
  have hcount := hrun.mergeCount
  have hprocessed := hrun.processed
  rw [List.nil_append] at hids
  rw [Nat.zero_add] at hcount hprocessed
  generalize hclusters : clustersOf order (similarPairs q t) = clusters at *
  split
  · next hfailed =>
    -- No cluster without a failure has a merge.
    have hzero : ((clusters.filter fun c => !t.failsUnder fails q.tenantId c).flatMap
        (t.mergedUnder fails q.tenantId)) = [] := by
      rw [hprocessed, List.length_eq_zero_iff, List.filter_eq_nil_iff] at hfailed
      refine List.flatMap_eq_nil_iff.mpr fun c hc => ?_
      obtain ⟨hc, hpasses⟩ := List.mem_filter.mp hc
      simpa [hpasses] using hfailed.1 c hc
    rw [hzero, List.length_nil, eq_comm, List.length_eq_zero_iff]
    constructor
    · intro hremoved
      exact List.Perm.eq_nil (hremoved ▸ hperm)
    · intro hmerged
      exact (List.Perm.nil_eq (hmerged ▸ hperm)).symm
  · unfold Truthful
    rw [hcount, hids]
    refine ⟨And.left, fun hcounted => ⟨hcounted, hperm, ?_⟩⟩
    rw [hprocessed]
    congr 1
    refine List.filter_congr fun c hc => ?_
    rw [any_removed_iff ht (hclusters ▸ hc)]
    cases hfails : t.failsUnder fails q.tenantId c with
    | false => simp
    | true =>
      have hnone := failsAtFirst_iff.mp ((counted_iff clusters).mp hcounted c hc) hfails
      simp [hnone]

/-- The answer tells what the run did exactly where, in each cluster with a merge that fails, the
first merge fails; and a duplicate whose merge fails is always kept. -/
theorem report_truthful_iff (fails : ℕ → Bool) (q : ResolveRequest V D) (order : SetOrder)
    (t : Tables V W) (ht : t.WellKeyed) :
    Truthful (clustersOf order (similarPairs q t)) t (entityResolveDuplicatesUnder fails q t order).1
        (entityResolveDuplicatesUnder fails q t order).2 ∧
      FailedKept fails q.tenantId (clustersOf order (similarPairs q t)) t
        (entityResolveDuplicatesUnder fails q t order).1 ↔
    ∀ c ∈ clustersOf order (similarPairs q t), FailsAtFirst fails q.tenantId t c := by
  by_cases hpairs : similarPairs q t = []
  · have hnone : removed t t = [] := by
      refine List.filter_eq_nil_iff.mpr fun id hid => ?_
      simpa using hid
    unfold entityResolveDuplicatesUnder
    rw [if_pos hpairs, hpairs, clustersOf_nil]
    refine iff_of_true ⟨hnone, fun c hc => ?_⟩ fun c hc => ?_
    · exact absurd hc List.not_mem_nil
    · exact absurd hc List.not_mem_nil
  · have hkept : FailedKept fails q.tenantId (clustersOf order (similarPairs q t)) t
        (entityResolveDuplicatesUnder fails q t order).1 := by
      have htables : (entityResolveDuplicatesUnder fails q t order).1 =
          (processClustersUnder fails q t order).tables := by
        unfold entityResolveDuplicatesUnder
        rw [if_neg hpairs]
        dsimp only
        split <;> rfl
      rw [htables]
      exact failedKept ht
    rw [and_iff_left hkept, truthful_iff_counted order ht hpairs, counted_iff]

end Report

def middleName : Entity ℕ := ⟨3, "t", none, "person", "Ada L", none, some 5⟩

def sampleThree : Tables ℕ ℕ := { sampleNames with entities := [shortName, longName, middleName] }

theorem sampleThree_wellKeyed : sampleThree.WellKeyed := ⟨by decide, by decide, by decide⟩

theorem report_truthful_iff_sample :
    Truthful (clustersOf sortedOrder (similarPairs sampleRequest sampleThree)) sampleThree
        (entityResolveDuplicatesUnder (fun id => id = 1) sampleRequest sampleThree sortedOrder).1
        (entityResolveDuplicatesUnder (fun id => id = 1) sampleRequest sampleThree sortedOrder).2 ∧
      FailedKept (fun id => id = 1) "t"
        (clustersOf sortedOrder (similarPairs sampleRequest sampleThree)) sampleThree
        (entityResolveDuplicatesUnder (fun id => id = 1) sampleRequest sampleThree sortedOrder).1 ↔
    ∀ c ∈ clustersOf sortedOrder (similarPairs sampleRequest sampleThree),
      FailsAtFirst (fun id => id = 1) "t" sampleThree c :=
  report_truthful_iff (fun id => id = 1) sampleRequest sortedOrder sampleThree
    sampleThree_wellKeyed

theorem sampleThree_pairs :
    similarPairs sampleRequest sampleThree = [(1, 2), (1, 3), (2, 3)] := by
  have hrows : embedded sampleRequest sampleThree =
      [(shortName, 4), (longName, 5), (middleName, 5)] := by rfl
  have hbatch : batch sampleRequest sampleThree =
      [(shortName, 4), (longName, 5), (middleName, 5)] := by
    rw [batch, hrows, List.mergeSort_of_pairwise (by simp [shortName, longName, middleName])]
    rfl
  have hshort : neighbours sampleRequest sampleThree (shortName, 4) =
      [(longName, 5), (middleName, 5)] := by
    have hsimilar : (embedded sampleRequest sampleThree).filter (fun e =>
        shortName.id < e.1.id && e.1.entityType = shortName.entityType &&
          sampleRequest.similar (sampleRequest.distance e.2 4)) =
        [(longName, 5), (middleName, 5)] := by rfl
    rw [neighbours, hsimilar, List.mergeSort_of_pairwise (by simp)]
    rfl
  have hlong : neighbours sampleRequest sampleThree (longName, 5) = [(middleName, 5)] := by
    have hsimilar : (embedded sampleRequest sampleThree).filter (fun e =>
        longName.id < e.1.id && e.1.entityType = longName.entityType &&
          sampleRequest.similar (sampleRequest.distance e.2 5)) = [(middleName, 5)] := by rfl
    rw [neighbours, hsimilar, List.mergeSort_singleton]
    rfl
  have hmiddle : neighbours sampleRequest sampleThree (middleName, 5) = [] := by
    have hsimilar : (embedded sampleRequest sampleThree).filter (fun e =>
        middleName.id < e.1.id && e.1.entityType = middleName.entityType &&
          sampleRequest.similar (sampleRequest.distance e.2 5)) = [] := by rfl
    rw [neighbours, hsimilar, List.mergeSort_nil]
    rfl
  rw [similarPairs, hbatch, List.flatMap_cons, List.flatMap_cons, List.flatMap_cons, hshort, hlong,
    hmiddle]
  rfl

/-- The first duplicate is merged and the second fails: the answer is that all clusters failed. -/
theorem merge_unreported :
    ¬ (Truthful (clustersOf sortedOrder (similarPairs sampleRequest sampleThree)) sampleThree
        (entityResolveDuplicatesUnder (fun id => id = 3) sampleRequest sampleThree sortedOrder).1
        (entityResolveDuplicatesUnder (fun id => id = 3) sampleRequest sampleThree sortedOrder).2 ∧
      FailedKept (fun id => id = 3) "t"
        (clustersOf sortedOrder (similarPairs sampleRequest sampleThree)) sampleThree
        (entityResolveDuplicatesUnder (fun id => id = 3) sampleRequest sampleThree
          sortedOrder).1) := by
  rintro ⟨htruthful, -⟩
  have hpairs : similarPairs sampleRequest sampleThree ≠ [] := by
    rw [sampleThree_pairs]
    exact List.cons_ne_nil _ _
  have hfirst := (counted_iff _).mp
    ((truthful_iff_counted sortedOrder sampleThree_wellKeyed hpairs).mp htruthful)
  obtain ⟨c, hc, hshort⟩ :
      ∃ c ∈ clustersOf sortedOrder (similarPairs sampleRequest sampleThree), 1 ∈ c.2 := by
    refine exists_cluster sortedOrder ?_
    rw [sampleThree_pairs]
    decide
  have hlong : 2 ∈ c.2 := (mem_cluster_iff hc hshort 2).mpr
    (.symm _ _ (.rel _ _ (by rw [sampleThree_pairs]; decide)))
  have hmiddle : 3 ∈ c.2 := (mem_cluster_iff hc hshort 3).mpr
    (.symm _ _ (.rel _ _ (by rw [sampleThree_pairs]; decide)))
  have hmembers : sampleThree.members "t" c.2 = [shortName, longName, middleName] := by
    simp [Tables.members, sampleThree, shortName, longName, middleName, hshort, hlong, hmiddle]
  have hlength : ¬ c.2.length < 2 := by
    have hsub : [1, 2] ⊆ c.2 := by simp [hshort, hlong]
    have hle : [1, 2].length ≤ c.2.length := (List.subperm_of_subset (by decide) hsub).length_le
    exact Nat.not_lt.mpr hle
  have hsplit : sampleThree.split "t" c = some (longName, [shortName, middleName]) := by
    rw [Tables.split, if_neg hlength, hmembers]
    rfl
  have hraises : raises (fun id => id = 3) longName shortName = true :=
    hfirst c hc longName [shortName, middleName] hsplit ⟨middleName, by simp, by decide⟩ shortName
      rfl
  exact absurd hraises (by decide)

end Memclaw.Entities
