import Mathlib.Data.Finset.Dedup
import Memclaw.Entities.GraphDefs
import Memclaw.Lib.UnionFind

/-! `entity_resolve_duplicates`: the pairs of entities with near names, their clusters by
union-find, and the merge of each cluster into one canonical entity, with a savepoint for each
duplicate. -/

namespace Memclaw.Entities

open Memclaw.Lib
open Memclaw.Lib.UnionFind (Forest)
open Memclaw.Memories (Memory Table)

variable {V W D : Type} [LinearOrder W] [LinearOrder D]

/-- The request, with what the vector index computes: `similar` is `1 - distance >= threshold`. -/
structure ResolveRequest (V D : Type) where
  tenantId : String
  fleetId : Option String
  batchSize : ℕ
  candidateLimit : ℕ
  distance : V → V → D
  similar : D → Bool

variable (q : ResolveRequest V D) (t : Tables V W)

def ResolveRequest.inScope (e : Entity V) : Bool :=
  e.tenantId = q.tenantId &&
    match q.fleetId with
    | none => true
    | some fleetId => e.fleetId = some fleetId

def embedded : List (Entity V × V) :=
  t.entities.filterMap fun e => if q.inScope e then e.nameEmbedding.map fun v => (e, v) else none

def batch : List (Entity V × V) :=
  ((embedded q t).mergeSort fun a b => a.1.id ≤ b.1.id).take q.batchSize

def neighbours (b : Entity V × V) : List (Entity V × V) :=
  (((embedded q t).filter fun e => b.1.id < e.1.id && e.1.entityType = b.1.entityType &&
    q.similar (q.distance e.2 b.2)).mergeSort fun e e' =>
      q.distance e.2 b.2 ≤ q.distance e'.2 b.2).take q.candidateLimit

def similarPairs : List (ℕ × ℕ) :=
  (batch q t).flatMap fun b => (neighbours q t b).map fun nb => (b.1.id, nb.1.id)

def entityUfFind (forest : Forest ℕ) (x : ℕ) : Forest ℕ × ℕ := forest.find x

def entityUfUnion (forest : Forest ℕ) (a b : ℕ) : Forest ℕ := forest.union a b

structure SetOrder where
  list : Finset ℕ → List ℕ
  nodup : ∀ s, (list s).Nodup
  mem_list : ∀ s x, x ∈ list s ↔ x ∈ s

def allIds (pairs : List (ℕ × ℕ)) : Finset ℕ :=
  (pairs.flatMap fun pair => [pair.1, pair.2]).toFinset

abbrev Cluster := ℕ × List ℕ

def appendTo (root uid : ℕ) : List Cluster → List Cluster
  | [] => [(root, [uid])]
  | (r, ids) :: clusters =>
    if r = root then (r, ids ++ [uid]) :: clusters else (r, ids) :: appendTo root uid clusters

def collectClusters : Forest ℕ → List ℕ → List Cluster → List Cluster
  | _, [], clusters => clusters
  | forest, uid :: ids, clusters =>
    let found := entityUfFind forest uid
    collectClusters found.1 ids (appendTo found.2 uid clusters)

def clustersOf (order : SetOrder) (pairs : List (ℕ × ℕ)) : List Cluster :=
  collectClusters (pairs.foldl (fun forest pair => entityUfUnion forest pair.1 pair.2)
    Forest.singletons) (order.list (allIds pairs)) []

/-- `max(entities, key=lambda e: (len(e.canonical_name), -e.id.int))` prefers the first. -/
def Entity.better (a b : Entity V) : Bool :=
  b.canonicalName.length < a.canonicalName.length ||
    (a.canonicalName.length = b.canonicalName.length && a.id < b.id)

def pickCanonical : List (Entity V) → Option (Entity V)
  | [] => none
  | e :: rest => some (rest.foldl (fun best e => if e.better best then e else best) e)

structure ClusterRun (V W : Type) where
  tables : Tables V W
  mergedIds : List ℕ
  failed : Bool

/-- The loop over the duplicates; the canonical object keeps its new attributes. -/
def mergeDupes (tenantId : String) : Tables V W → Entity V → List (Entity V) → ClusterRun V W
  | t, _, [] => ⟨t, [], false⟩
  | t, canonical, dupe :: dupes =>
    match entityMergeDupeIntoCanonical t canonical dupe tenantId with
    | none => ⟨t, [], true⟩
    | some t' =>
      let run := mergeDupes tenantId t'
        { canonical with attributes := mergedAttributes canonical dupe } dupes
      { run with mergedIds := dupe.id :: run.mergedIds }

def Tables.members (t : Tables V W) (tenantId : String) (clusterIds : List ℕ) : List (Entity V) :=
  t.entities.filter fun e => e.id ∈ clusterIds && e.tenantId = tenantId

def entityMergeCluster (t : Tables V W) (clusterIds : List ℕ) (tenantId : String) :
    ClusterRun V W :=
  let entities := t.members tenantId clusterIds
  match pickCanonical entities with
  | none => ⟨t, [], false⟩
  | some canonical =>
    mergeDupes tenantId t canonical (entities.filter fun e => e.id ≠ canonical.id)

structure Progress (V W : Type) where
  tables : Tables V W
  mergeCount : ℕ
  mergedIds : List ℕ
  clustersProcessed : ℕ
  clusterErrors : ℕ

/-- One turn of the loop over the clusters. An exception is counted; the merges before it stay. -/
def processCluster (tenantId : String) (s : Progress V W) (cluster : Cluster) : Progress V W :=
  if cluster.2.length < 2 then s
  else
    let run := entityMergeCluster s.tables cluster.2 tenantId
    let mergedIds := s.mergedIds ++ run.mergedIds
    if run.failed then
      { s with tables := run.tables, mergedIds := mergedIds, clusterErrors := s.clusterErrors + 1 }
    else
      { s with
        tables := run.tables
        mergedIds := mergedIds
        mergeCount := s.mergeCount + run.mergedIds.length
        clustersProcessed :=
          if 0 < run.mergedIds.length then s.clustersProcessed + 1 else s.clustersProcessed }

inductive ResolveResult
  | skipped
  | failed (error : String) (clusterErrors : ℕ)
  | done (mergeCount clusters clusterErrors : ℕ) (mergedEntityIds : List ℕ)

def processClusters (order : SetOrder) : Progress V W :=
  (clustersOf order (similarPairs q t)).foldl (processCluster q.tenantId) ⟨t, 0, [], 0, 0⟩

def entityResolveDuplicates (order : SetOrder) : Tables V W × ResolveResult :=
  if similarPairs q t = [] then (t, .skipped)
  else
    let s := processClusters q t order
    if s.clustersProcessed = 0 ∧ 0 < s.clusterErrors then
      (s.tables, .failed "all clusters failed to merge" s.clusterErrors)
    else
      (s.tables, .done s.mergeCount s.clustersProcessed s.clusterErrors s.mergedIds)

def memoryFindRdfConflicts (sqlLower lower : String → String) (memories : Table V)
    (tenantId : String) (subjectEntityId : ℕ) (predicate objectValue : String) (memoryId : ℕ)
    (fleetId : Option String) : List (Memory V) :=
  memories.filter fun m =>
    m.tenantId = tenantId && m.live && Contradiction.liveStatus m.status &&
      m.subjectEntityId = some subjectEntityId &&
      m.predicate.map sqlLower = some (lower predicate) && m.objectValue.any (· ≠ objectValue) &&
      m.id ≠ memoryId &&
      (if Contradiction.truthyText fleetId then m.fleetId = fleetId else m.fleetId.isNone)

end Memclaw.Entities
