import Mathlib.Data.List.ProdSigma
import Memclaw.Contradiction.DetectorDefs
import Memclaw.Entities.GraphDefs
import Memclaw.Lib.Rounding

/-! `entity_infer_relations`: the relations between entities that memories share, made or
reinforced, and `relation_add`, the other writer of relations. -/

namespace Memclaw.Entities

open Memclaw.Lib
open Memclaw.Memories (Memory)

variable {V W : Type} [LinearOrder W]

def newRelationId (relations : List (Relation W)) : ℕ :=
  relations.foldr (fun r n => max (r.id + 1) n) 0

structure InferRequest (W : Type) where
  tenantId : String
  fleetId : Option String
  batchSize : ℕ
  minCooccurrence : ℤ
  reinforceDelta : W
  maxRelationWeight : W

/-- The fleet clause of a query is there for a text that is not empty. -/
def InferRequest.ofFleet (q : InferRequest W) (fleetId : Option String) : Bool :=
  !Contradiction.truthyText q.fleetId || fleetId = q.fleetId

variable (q : InferRequest W) (t : Tables V W)

def tenantEntityIds : List ℕ :=
  (t.entities.filter fun e => e.tenantId = q.tenantId && q.ofFleet e.fleetId).map Entity.id

def InferRequest.reads (mem : Memory V) : Bool :=
  mem.tenantId = q.tenantId && mem.live && q.ofFleet mem.fleetId

abbrev JoinedRow (V : Type) := MemoryEntityLink × MemoryEntityLink × Memory V

def JoinedRow.pair (row : JoinedRow V) : ℕ × ℕ := (row.1.entityId, row.2.1.entityId)

def joinedRows : List (JoinedRow V) :=
  (t.links.product (t.links.product t.memories)).filter fun (a, b, mem) =>
    a.memoryId = b.memoryId && a.entityId < b.entityId && mem.id = a.memoryId && q.reads mem &&
      decide (a.entityId ∈ tenantEntityIds q t) && decide (b.entityId ∈ tenantEntityIds q t)

structure Cooccurrence where
  fromId : ℕ
  toId : ℕ
  cooccur : ℕ

structure QueryOrder (α : Type) where
  list : List α → List α
  perm : ∀ rows, (list rows).Perm rows

def grouped : List Cooccurrence :=
  let pairs := (joinedRows q t).map JoinedRow.pair
  pairs.dedup.map fun pair => ⟨pair.1, pair.2, pairs.count pair⟩

def cooccurrences (order : QueryOrder Cooccurrence) : List Cooccurrence :=
  (((order.list (grouped q t)).filter fun row =>
    decide (q.minCooccurrence ≤ row.cooccur)).mergeSort fun row row' =>
      row'.cooccur ≤ row.cooccur).take q.batchSize

def Relation.joins (r : Relation W) (a b : ℕ) : Bool :=
  (r.fromEntityId = a && r.toEntityId = b) || (r.fromEntityId = b && r.toEntityId = a)

def Relation.relates (tenantId : String) (r : Relation W) : Bool :=
  r.tenantId = tenantId && r.relationType = "related_to"

def existingRows (order : QueryOrder (Relation W)) (pairs : List Cooccurrence) :
    List (Relation W) :=
  let ids := pairs.flatMap fun row => [row.fromId, row.toId]
  order.list (t.relations.filter fun r => r.relates q.tenantId &&
    (decide (r.fromEntityId ∈ ids) || decide (r.toEntityId ∈ ids)))

/-- `existing_map.get(pair_key)`: of several rows of a pair the map keeps the last. -/
def existing (rows : List (Relation W)) (row : Cooccurrence) : Option (Relation W) :=
  (rows.filter fun r => r.joins row.fromId row.toId).getLast?

variable (R : Rounding W)

def newWeight (r : Relation W) (cooccur : ℕ) : W :=
  min (R.add r.weight (R.scale cooccur q.reinforceDelta)) q.maxRelationWeight

structure Reinforcement (W : Type) where
  relId : ℕ
  newWeight : W

structure NewRelation (W : Type) where
  fromId : ℕ
  toId : ℕ
  weight : W

def reinforceBatch (rows : List (Relation W)) (pairs : List Cooccurrence) :
    List (Reinforcement W) :=
  pairs.filterMap fun row => (existing rows row).map fun r => ⟨r.id, newWeight q R r row.cooccur⟩

def insertBatch (rows : List (Relation W)) (pairs : List Cooccurrence) : List (NewRelation W) :=
  pairs.filterMap fun row =>
    match existing rows row with
    | some _ => none
    | none => some ⟨row.fromId, row.toId,
        min (R.scale row.cooccur q.reinforceDelta) q.maxRelationWeight⟩

def setWeight (r : Relation W) (update : Reinforcement W) : Relation W :=
  if r.id = update.relId && r.tenantId = q.tenantId then { r with weight := update.newWeight }
  else r

def reinforce (relations : List (Relation W)) (update : Reinforcement W) : List (Relation W) :=
  relations.map fun r => setWeight q r update

def NewRelation.row (new : NewRelation W) (id : ℕ) : Relation W where
  id := id
  tenantId := q.tenantId
  fleetId := q.fleetId
  fromEntityId := new.fromId
  relationType := "related_to"
  toEntityId := new.toId
  weight := new.weight
  evidenceMemoryId := none

/-- `ON CONFLICT ON CONSTRAINT uq_relations_natural_key DO NOTHING` -/
def insertRelation (relations : List (Relation W)) (new : NewRelation W) : List (Relation W) :=
  let row := new.row q (newRelationId relations)
  if relations.any fun r => r.key = row.key then relations else relations ++ [row]

inductive InferResult
  | skipped
  | done (relationsCreated relationsReinforced : ℕ)

structure InferRun (W : Type) where
  request : InferRequest W
  pairOrder : QueryOrder Cooccurrence
  relationOrder : QueryOrder (Relation W)

def entityInferRelations (run : InferRun W) : Tables V W × InferResult :=
  let pairs := cooccurrences run.request t run.pairOrder
  if pairs = [] then (t, .skipped)
  else
    let rows := existingRows run.request t run.relationOrder pairs
    let updates := reinforceBatch run.request R rows pairs
    let reinforced := updates.foldl (reinforce run.request) t.relations
    let relations := (insertBatch run.request R rows pairs).foldl (insertRelation run.request)
      reinforced
    ({ t with relations := relations },
      .done (relations.length - reinforced.length) updates.length)

structure RelationData (W : Type) where
  tenantId : String
  fleetId : Option String
  fromEntityId : ℕ
  relationType : String
  toEntityId : ℕ
  weight : W
  evidenceMemoryId : Option ℕ

def RelationData.row (data : RelationData W) (id : ℕ) : Relation W where
  id := id
  tenantId := data.tenantId
  fleetId := data.fleetId
  fromEntityId := data.fromEntityId
  relationType := data.relationType
  toEntityId := data.toEntityId
  weight := data.weight
  evidenceMemoryId := data.evidenceMemoryId

/-- The upsert on the natural key. A null leaves the evidence that is there; the fleet is that of
the first writer. -/
def relationAdd (data : RelationData W) : Tables V W :=
  let row := data.row (newRelationId t.relations)
  if t.relations.any fun r => r.key = row.key then
    { t with relations := t.relations.map fun r =>
        if r.key = row.key then
          { r with
            weight := data.weight
            evidenceMemoryId := data.evidenceMemoryId <|> r.evidenceMemoryId }
        else r }
  else { t with relations := t.relations ++ [row] }

inductive RelationEvent (W : Type)
  | infer (run : InferRun W)
  | add (data : RelationData W)

def relationStep (t : Tables V W) : RelationEvent W → Tables V W
  | .infer run => (entityInferRelations t R run).1
  | .add data => relationAdd t data

end Memclaw.Entities
