import Memclaw.Entities.Merge
import Memclaw.Entities.ResolveDefs
import Memclaw.Lib.Dict

/-! What the merges of a cluster do to the tables, and what the loop over all clusters does. A
cluster's merges read and write only its own entities, so that each cluster is merged as it
stood before the run. -/

namespace Memclaw.Entities

open Memclaw.Lib
open Memclaw.Lib.UnionFind (Forest)
open Memclaw.Memories (Memory)

variable {V W D : Type} [LinearOrder W]

structure Tables.WellKeyed (t : Tables V W) : Prop where
  entities : Keyed.Unique Entity.id t.entities
  links : Keyed.Unique MemoryEntityLink.key t.links
  relations : Keyed.Unique Relation.key t.relations

def clearSubject (ids : List ℕ) (m : Memory V) : Memory V :=
  if m.subjectEntityId.any (· ∈ ids) then { m with subjectEntityId := none } else m

structure Merged (ids touched : List ℕ) (t t' : Tables V W) : Prop where
  keyed : t'.WellKeyed
  memories : t'.memories = t.memories.map (clearSubject ids)
  entityIds : t'.entities.map Entity.id = (t.entities.map Entity.id).filter (· ∉ ids)
  others : t'.entities.filter (fun e => e.id ∉ touched) =
    t.entities.filter fun e => e.id ∉ touched

theorem clearSubject_nil (m : Memory V) : clearSubject [] m = m := by
  rw [clearSubject, if_neg]
  cases m.subjectEntityId <;> simp

theorem clearSubject_append (ids ids' : List ℕ) (m : Memory V) :
    clearSubject ids' (clearSubject ids m) = clearSubject (ids ++ ids') m := by
  unfold clearSubject
  cases hsubject : m.subjectEntityId with
  | none => simp [hsubject]
  | some s =>
    by_cases h : s ∈ ids
    · simp [h]
    · simp [h, hsubject]

omit [LinearOrder W] in
theorem Merged.refl {t : Tables V W} (ht : t.WellKeyed) (touched : List ℕ) :
    Merged [] touched t t where
  keyed := ht
  memories := by
    rw [show clearSubject [] = (id : Memory V → Memory V) from funext clearSubject_nil, List.map_id]
  entityIds := by simp
  others := rfl

omit [LinearOrder W] in
theorem Merged.trans {ids ids' touched touched' : List ℕ} {t t' t'' : Tables V W}
    (h : Merged ids touched t t') (h' : Merged ids' touched' t' t'') :
    Merged (ids ++ ids') (touched ++ touched') t t'' where
  keyed := h'.keyed
  memories := by
    rw [h'.memories, h.memories, List.map_map]
    exact List.map_congr_left fun m _ => clearSubject_append ids ids' m
  entityIds := by
    rw [h'.entityIds, h.entityIds, List.filter_filter]
    refine List.filter_congr fun id _ => ?_
    simp only [List.mem_append, not_or, Bool.decide_and, Bool.and_comm]
  others := by
    have hsplit : ∀ rows : List (Entity V),
        rows.filter (fun e => e.id ∉ touched ++ touched') =
          (rows.filter fun e => e.id ∉ touched).filter fun e => e.id ∉ touched' := by
      intro rows
      rw [List.filter_filter]
      refine List.filter_congr fun e _ => ?_
      simp only [List.mem_append, not_or, Bool.decide_and, Bool.and_comm]
    have hcomm : ∀ rows : List (Entity V),
        (rows.filter fun e => e.id ∉ touched).filter (fun e => e.id ∉ touched') =
          (rows.filter fun e => e.id ∉ touched').filter fun e => e.id ∉ touched := by
      intro rows
      rw [List.filter_filter, List.filter_filter]
      exact List.filter_congr fun e _ => Bool.and_comm ..
    rw [hsplit, hcomm, h'.others, ← hcomm, h.others, hsplit]

omit [LinearOrder W] in
theorem Merged.mono {ids touched touched' : List ℕ} {t t' : Tables V W}
    (h : Merged ids touched t t') (hsub : touched ⊆ touched') : Merged ids touched' t t' where
  keyed := h.keyed
  memories := h.memories
  entityIds := h.entityIds
  others := by
    have hsplit : ∀ rows : List (Entity V), rows.filter (fun e => e.id ∉ touched') =
        (rows.filter fun e => e.id ∉ touched).filter fun e => e.id ∉ touched' := by
      intro rows
      rw [List.filter_filter]
      refine List.filter_congr fun e _ => ?_
      by_cases he : e.id ∈ touched'
      · simp [he]
      · have hout : e.id ∉ touched := fun h => he (hsub h)
        simp [he, hout]
    rw [hsplit, h.others, ← hsplit]

theorem mergedAttributes_isSome (canonical dupe : Entity V) :
    (mergedAttributes canonical dupe).isSome = (canonical.aliases.isSome && dupe.aliases.isSome) := by
  unfold mergedAttributes mergedAliases
  cases canonical.aliases with
  | none => rfl
  | some ofCanonical => cases dupe.aliases <;> rfl

theorem mapM_asStr_texts (texts : List String) :
    (texts.map Json.str).mapM Json.asStr = some texts := by
  induction texts with
  | nil => rfl
  | cons text texts ih =>
    rw [List.map_cons, List.mapM_cons, ih]
    rfl

theorem aliases_of_merged {canonical dupe : Entity V} {attributes : Dict}
    (h : mergedAttributes canonical dupe = some attributes) :
    ({ canonical with attributes := some attributes } : Entity V).aliases.isSome = true := by
  unfold mergedAttributes at h
  obtain ⟨names, -, hset⟩ := Option.bind_eq_some_iff.mp h
  obtain rfl := Option.some.inj hset
  show (aliasItems (Dict.find (Dict.set _ "_aliases" _) "_aliases")).isSome = true
  rw [Dict.find_set, if_pos rfl]
  show ((names.map Json.str).mapM Json.asStr).isSome = true
  rw [mapM_asStr_texts]
  rfl

theorem merge_eq_map {t : Tables V W} (ht : t.WellKeyed) {canonical dupe : Entity V}
    (hne : canonical.id ≠ dupe.id) (tenantId : String) :
    ∃ t' : Tables V W, entityMergeDupeIntoCanonical t canonical dupe tenantId =
        (mergedAttributes canonical dupe).map (fun attributes =>
          (t'.setAttributes canonical.id attributes).deleteEntity dupe.id) ∧
      t'.entities = t.entities ∧ t'.memories = t.memories ∧
      Keyed.Unique MemoryEntityLink.key t'.links ∧ Keyed.Unique Relation.key t'.relations := by
  -- Only the aliases can make a merge fail.
  obtain ⟨links, hrepoint, hlinks⟩ : ∃ links,
      (t.dropDoubleLinks tenantId canonical.id dupe.id).repointLinks tenantId canonical.id
        dupe.id = some { t with links := links } ∧ Keyed.Unique MemoryEntityLink.key links :=
    ⟨_, Tables.repointLinks_eq ht.links, Tables.repointLinks_unique ht.links⟩
  obtain ⟨t', t'', ht', ht'', hunique, -⟩ := Tables.repointBoth_some tenantId hne
    (t := { t with links := links }) ht.relations
  obtain ⟨hentities, hmemories, hlinks''⟩ := Tables.repointBoth_frame ht' ht''
  refine ⟨t'', ?_, hentities, hmemories, hlinks'' ▸ hlinks, hunique⟩
  simp only [entityMergeDupeIntoCanonical, Option.bind_eq_bind, hrepoint, ht', ht'',
    Option.bind_some]
  cases mergedAttributes canonical dupe <;> rfl

theorem merge_none {t : Tables V W} (ht : t.WellKeyed) {canonical dupe : Entity V}
    (hne : canonical.id ≠ dupe.id) (tenantId : String)
    (h : mergedAttributes canonical dupe = none) :
    entityMergeDupeIntoCanonical t canonical dupe tenantId = none := by
  obtain ⟨t', hmerge, -⟩ := merge_eq_map ht hne tenantId
  rw [hmerge, h, Option.map_none]

theorem merge_merged {t : Tables V W} (ht : t.WellKeyed) {canonical dupe : Entity V}
    (hne : canonical.id ≠ dupe.id) (tenantId : String) {attributes : Dict}
    (h : mergedAttributes canonical dupe = some attributes) :
    ∃ t', entityMergeDupeIntoCanonical t canonical dupe tenantId = some t' ∧
      Merged [dupe.id] [canonical.id, dupe.id] t t' := by
  obtain ⟨t', hmerge, hentities, hmemories, hlinks, hrelations⟩ := merge_eq_map ht hne tenantId
  have hrow : ∀ e : Entity V, (if e.id = canonical.id then { e with attributes := some attributes }
      else e).id = e.id := fun e => by split <;> rfl
  refine ⟨(t'.setAttributes canonical.id attributes).deleteEntity dupe.id, ?_, ⟨?_,
    hlinks.filter _, hrelations.filter _⟩, ?_, ?_, ?_⟩
  · rw [hmerge, h, Option.map_some]
  · rw [Tables.entities_of_merge, hentities]
    exact (ht.entities.filter _).map hrow
  · show t'.memories.map _ = _
    rw [hmemories]
    refine List.map_congr_left fun m _ => ?_
    rw [clearSubject]
    cases m.subjectEntityId <;> simp
  · rw [Tables.entities_of_merge, hentities, List.map_map, List.filter_map]
    refine (List.map_congr_left fun e _ => hrow e).trans (congrArg _ ?_)
    refine List.filter_congr fun e _ => ?_
    simp
  · rw [Tables.entities_of_merge, hentities]
    induction t.entities with
    | nil => rfl
    | cons e rest ih =>
      by_cases hd : e.id = dupe.id
      · simpa [hd] using ih
      · by_cases hc : e.id = canonical.id
        · simpa [hd, hc, hne] using ih
        · simpa [hd, hc] using ih

/-- The duplicates that are merged are those before the first whose aliases cannot be read. -/
def mergeable (canonical : Entity V) (dupes : List (Entity V)) : List (Entity V) :=
  if canonical.aliases.isSome then dupes.takeWhile fun e => e.aliases.isSome else []

theorem mergeDupes_merged (tenantId : String) {t : Tables V W} (ht : t.WellKeyed)
    {canonical : Entity V} {dupes : List (Entity V)} {touched : List ℕ}
    (hne : ∀ e ∈ dupes, canonical.id ≠ e.id) (hcanonical : canonical.id ∈ touched)
    (htouched : ∀ e ∈ dupes, e.id ∈ touched) :
    (mergeDupes tenantId t canonical dupes).mergedIds =
        (mergeable canonical dupes).map Entity.id ∧
      Merged (mergeDupes tenantId t canonical dupes).mergedIds touched t
        (mergeDupes tenantId t canonical dupes).tables := by
  induction dupes generalizing t canonical with
  | nil =>
    refine ⟨?_, Merged.refl ht touched⟩
    rw [mergeable, List.takeWhile_nil, ite_self]
    rfl
  | cons dupe dupes ih =>
    have hattributes := mergedAttributes_isSome canonical dupe
    cases hmerged : mergedAttributes canonical dupe with
    | none =>
      have hstop : mergeable canonical (dupe :: dupes) = [] := by
        rw [hmerged, Option.isSome_none, eq_comm, Bool.and_eq_false_iff] at hattributes
        rcases hattributes with h | h
        · simp only [mergeable, h, Bool.false_eq_true, if_false]
        · simp only [mergeable, List.takeWhile_cons, h, Bool.false_eq_true, if_false, ite_self]
      rw [mergeDupes, merge_none ht (hne dupe List.mem_cons_self) tenantId hmerged, hstop]
      exact ⟨rfl, Merged.refl ht touched⟩
    | some attributes =>
      rw [hmerged, Option.isSome_some, eq_comm, Bool.and_eq_true] at hattributes
      obtain ⟨t', hmerge, hstep⟩ := merge_merged ht (hne dupe List.mem_cons_self) tenantId hmerged
      have hne' : ∀ e ∈ dupes, { canonical with attributes := some attributes }.id ≠ e.id :=
        fun e he => hne e (List.mem_cons_of_mem dupe he)
      obtain ⟨hids, hrest⟩ := ih hstep.keyed hne' hcanonical
        (fun e he => htouched e (List.mem_cons_of_mem dupe he))
      have hgoesOn : mergeable canonical (dupe :: dupes) =
          dupe :: mergeable { canonical with attributes := some attributes } dupes := by
        simp only [mergeable, hattributes, aliases_of_merged hmerged, List.takeWhile_cons, if_true]
      have htouched' : [canonical.id, dupe.id] ++ touched ⊆ touched := by
        simp [hcanonical, htouched dupe List.mem_cons_self]
      rw [mergeDupes, hmerge, hgoesOn, hmerged]
      refine ⟨?_, (hstep.trans hrest).mono htouched'⟩
      rw [List.map_cons, ← hids]

def mergeableMembers (entities : List (Entity V)) : List (Entity V) :=
  match pickCanonical entities with
  | none => []
  | some canonical => mergeable canonical (entities.filter fun e => e.id ≠ canonical.id)

theorem foldl_better_mem (best : Entity V) (rest : List (Entity V)) :
    rest.foldl (fun best e => if e.better best then e else best) best ∈ best :: rest := by
  induction rest generalizing best with
  | nil => exact List.mem_singleton.mpr rfl
  | cons e rest ih =>
    rw [List.foldl_cons]
    have hmem := ih (if e.better best then e else best)
    rcases List.mem_cons.mp hmem with h | h
    · rw [h]
      split <;> simp
    · exact List.mem_cons_of_mem _ (List.mem_cons_of_mem _ h)

theorem pickCanonical_mem {entities : List (Entity V)} {canonical : Entity V}
    (h : pickCanonical entities = some canonical) : canonical ∈ entities := by
  cases entities with
  | nil => exact nomatch h
  | cons e rest =>
    obtain rfl := Option.some.inj h
    exact foldl_better_mem e rest

theorem entityMergeCluster_merged {t : Tables V W} (ht : t.WellKeyed) (ids : List ℕ)
    (tenantId : String) :
    (entityMergeCluster t ids tenantId).mergedIds =
        (mergeableMembers (t.members tenantId ids)).map Entity.id ∧
      Merged (entityMergeCluster t ids tenantId).mergedIds ids t
        (entityMergeCluster t ids tenantId).tables := by
  unfold entityMergeCluster mergeableMembers
  dsimp only
  cases hpick : pickCanonical (t.members tenantId ids) with
  | none => exact ⟨rfl, Merged.refl ht ids⟩
  | some canonical =>
    have hin : ∀ e ∈ t.members tenantId ids, e.id ∈ ids := by
      intro e he
      have hboth := (List.mem_filter.mp he).2
      rw [Bool.and_eq_true] at hboth
      exact of_decide_eq_true hboth.1
    refine mergeDupes_merged tenantId ht (fun e he => ?_) (hin _ (pickCanonical_mem hpick))
      fun e he => hin e (List.mem_of_mem_filter he)
    exact fun hsame => of_decide_eq_true (List.mem_filter.mp he).2 hsame.symm

def Tables.mergedIn (t : Tables V W) (tenantId : String) (cluster : Cluster) : List (Entity V) :=
  if cluster.2.length < 2 then [] else mergeableMembers (t.members tenantId cluster.2)

omit [LinearOrder W] in
theorem Merged.members {ids touched : List ℕ} {t t' : Tables V W} (h : Merged ids touched t t')
    (tenantId : String) {clusterIds : List ℕ} (hdisjoint : ∀ id ∈ clusterIds, id ∉ touched) :
    t'.members tenantId clusterIds = t.members tenantId clusterIds := by
  -- A cluster's members are as they were before merges of other clusters.
  have hsplit : ∀ rows : List (Entity V),
      rows.filter (fun e => e.id ∈ clusterIds && e.tenantId = tenantId) =
        (rows.filter fun e => e.id ∉ touched).filter
          fun e => e.id ∈ clusterIds && e.tenantId = tenantId := by
    intro rows
    rw [List.filter_filter]
    refine List.filter_congr fun e _ => ?_
    by_cases he : e.id ∈ clusterIds
    · simp [he, hdisjoint e.id he]
    · simp [he]
  rw [Tables.members, Tables.members, hsplit, h.others, ← hsplit]

theorem processCluster_merged {t : Tables V W} {s : Progress V W} {touched : List ℕ}
    (hs : Merged s.mergedIds touched t s.tables) (tenantId : String) {cluster : Cluster}
    (hdisjoint : ∀ id ∈ cluster.2, id ∉ touched) :
    (processCluster tenantId s cluster).mergedIds =
        s.mergedIds ++ (t.mergedIn tenantId cluster).map Entity.id ∧
      Merged (processCluster tenantId s cluster).mergedIds (touched ++ cluster.2) t
        (processCluster tenantId s cluster).tables := by
  unfold processCluster Tables.mergedIn
  split
  · rw [List.map_nil, List.append_nil]
    exact ⟨rfl, hs.mono (List.subset_append_left touched cluster.2)⟩
  · obtain ⟨hids, hrun⟩ := entityMergeCluster_merged hs.keyed cluster.2 tenantId
    have hmerged := hs.trans hrun
    rw [hs.members tenantId hdisjoint] at hids
    dsimp only
    split
    · exact ⟨congrArg _ hids, hmerged⟩
    · exact ⟨congrArg _ hids, hmerged⟩

/-- A run over clusters that have no id in common merges in each what it held at the start. -/
theorem processClusters_merged {t : Tables V W} {s : Progress V W} {touched : List ℕ}
    (hs : Merged s.mergedIds touched t s.tables) (tenantId : String) {clusters : List Cluster}
    (hdisjoint : clusters.Pairwise fun a b => ∀ id ∈ b.2, id ∉ a.2)
    (htouched : ∀ cluster ∈ clusters, ∀ id ∈ cluster.2, id ∉ touched) :
    (clusters.foldl (processCluster tenantId) s).mergedIds =
        s.mergedIds ++ (clusters.flatMap (t.mergedIn tenantId)).map Entity.id ∧
      Merged (clusters.foldl (processCluster tenantId) s).mergedIds
        (touched ++ clusters.flatMap Prod.snd) t
        (clusters.foldl (processCluster tenantId) s).tables := by
  induction clusters generalizing s touched with
  | nil => simpa using hs
  | cons cluster clusters ih =>
    obtain ⟨hids, hmerged⟩ := processCluster_merged hs tenantId
      (htouched cluster List.mem_cons_self)
    obtain ⟨hfirst, hrest⟩ := List.pairwise_cons.mp hdisjoint
    have htouched' : ∀ other ∈ clusters, ∀ id ∈ other.2, id ∉ touched ++ cluster.2 := by
      intro other hother id hid hmem
      rcases List.mem_append.mp hmem with hmem | hmem
      · exact htouched other (List.mem_cons_of_mem cluster hother) id hid hmem
      · exact hfirst other hother id hid hmem
    obtain ⟨hids', hmerged'⟩ := ih hmerged hrest htouched'
    rw [List.foldl_cons]
    refine ⟨?_, ?_⟩
    · rw [hids', hids, List.flatMap_cons, List.map_append, List.append_assoc]
    · rwa [List.flatMap_cons, ← List.append_assoc]

end Memclaw.Entities
