import Mathlib.Data.List.Dedup
import Mathlib.Order.Defs.LinearOrder
import Memclaw.Lib.Groups
import Memclaw.Lib.Keyed
import Memclaw.Memories.TableDefs

/-! The entity graph of a tenant: entities, their links to memories, relations between them, and
the merge of a duplicate into its canonical entity. A statement that would break a unique
constraint raises. Weights are compared as `GREATEST` compares them, a null below all others. Of the
searches of several fleets, the nearest that they found for each entity is kept. -/

namespace Memclaw.Entities

open Memclaw.Lib
open Memclaw.Memories (Memory)

structure Entity (V : Type) where
  id : ℕ
  tenantId : String
  fleetId : Option String
  entityType : String
  canonicalName : String
  attributes : Option Dict
  nameEmbedding : Option V

structure MemoryEntityLink where
  memoryId : ℕ
  entityId : ℕ
  role : String

def MemoryEntityLink.key (l : MemoryEntityLink) : ℕ × ℕ := (l.memoryId, l.entityId)

structure Relation (W : Type) where
  id : ℕ
  tenantId : String
  fleetId : Option String
  fromEntityId : ℕ
  relationType : String
  toEntityId : ℕ
  weight : W
  evidenceMemoryId : Option ℕ

structure RelationKey where
  tenantId : String
  fromEntityId : ℕ
  relationType : String
  toEntityId : ℕ
deriving DecidableEq

def Relation.key {W : Type} (r : Relation W) : RelationKey :=
  ⟨r.tenantId, r.fromEntityId, r.relationType, r.toEntityId⟩

structure Tables (V W : Type) where
  entities : List (Entity V)
  memories : List (Memory V)
  links : List MemoryEntityLink
  relations : List (Relation W)

variable {V W : Type} [LinearOrder W]

inductive End
  | source
  | target
deriving DecidableEq

def RelationKey.near (e : End) (k : RelationKey) : ℕ :=
  match e with
  | .source => k.fromEntityId
  | .target => k.toEntityId

def RelationKey.far (e : End) (k : RelationKey) : ℕ :=
  match e with
  | .source => k.toEntityId
  | .target => k.fromEntityId

def RelationKey.setNear (e : End) (id : ℕ) (k : RelationKey) : RelationKey :=
  match e with
  | .source => { k with fromEntityId := id }
  | .target => { k with toEntityId := id }

def Relation.setNear (e : End) (id : ℕ) (r : Relation W) : Relation W :=
  match e with
  | .source => { r with fromEntityId := id }
  | .target => { r with toEntityId := id }

namespace Tables

/-- `memory_id IN (SELECT m.id FROM memories m WHERE m.tenant_id = :tenant_id)`. -/
def memoryOf (t : Tables V W) (tenantId : String) (memoryId : ℕ) : Bool :=
  t.memories.any fun m => m.id = memoryId && m.tenantId = tenantId

variable (tenantId : String) (canonicalId dupeId : ℕ)

def dropDoubleLinks (t : Tables V W) : Tables V W :=
  { t with links := t.links.filter fun l =>
      !(l.entityId = dupeId && t.links.any fun mel =>
        mel.entityId = canonicalId && mel.memoryId = l.memoryId &&
          t.memoryOf tenantId mel.memoryId) }

def repointLinks (t : Tables V W) : Option (Tables V W) :=
  let links := t.links.map fun l =>
    if l.entityId = dupeId && t.memoryOf tenantId l.memoryId then
      { l with entityId := canonicalId }
    else l
  if Keyed.Unique MemoryEntityLink.key links then some { t with links := links } else none

/-- A relation of the canonical entity takes the weight of its counterpart of the duplicate,
where that is greater. -/
def keepWeight (e : End) (t : Tables V W) (r : Relation W) : Relation W :=
  if r.key.near e = canonicalId && r.tenantId = tenantId then
    match t.relations.find? fun r' => r'.key = r.key.setNear e dupeId with
    | some r' => { r with weight := max r.weight r'.weight }
    | none => r
  else r

def keepWeights (e : End) (t : Tables V W) : Tables V W :=
  { t with relations := t.relations.map (keepWeight tenantId canonicalId dupeId e t) }

/-- A relation of the duplicate that would become a self-loop, or the duplicate of a relation
that the canonical entity has. -/
def conflicts (e : End) (t : Tables V W) (r : Relation W) : Bool :=
  r.key.near e = dupeId && r.tenantId = tenantId &&
    (r.key.far e = canonicalId || t.relations.any fun r' => r'.key = r.key.setNear e canonicalId)

def dropConflicts (e : End) (t : Tables V W) : Tables V W :=
  { t with relations := t.relations.filter fun r =>
      !t.conflicts tenantId canonicalId dupeId e r }

def repoint (e : End) (r : Relation W) : Relation W :=
  if r.key.near e = dupeId && r.tenantId = tenantId then r.setNear e canonicalId else r

def repointEnd (e : End) (t : Tables V W) : Option (Tables V W) :=
  let relations := t.relations.map (repoint tenantId canonicalId dupeId e)
  if Keyed.Unique Relation.key relations then some { t with relations := relations } else none

def repointRelations (e : End) (t : Tables V W) : Option (Tables V W) :=
  ((t.keepWeights tenantId canonicalId dupeId e).dropConflicts tenantId canonicalId dupeId
    e).repointEnd tenantId canonicalId dupeId e

def setAttributes (t : Tables V W) (id : ℕ) (attributes : Dict) : Tables V W :=
  { t with entities := t.entities.map fun e =>
      if e.id = id then { e with attributes := some attributes } else e }

/-- The delete of an entity: links and relations go with it, and a memory loses its subject. -/
def deleteEntity (t : Tables V W) (id : ℕ) : Tables V W where
  entities := t.entities.filter fun e => e.id ≠ id
  memories := t.memories.map fun m =>
    if m.subjectEntityId = some id then { m with subjectEntityId := none } else m
  links := t.links.filter fun l => l.entityId ≠ id
  relations := t.relations.filter fun r => r.fromEntityId ≠ id && r.toEntityId ≠ id

end Tables

/-- The items of `set(attrs.get("_aliases", []))`; an item that is no text fails in the set or
in the sort. -/
def aliasItems : Option Json → Option (List String)
  | none => some []
  | some (.arr items) => items.mapM Json.asStr
  | some (.str s) => some (s.toList.map fun c => String.ofList [c])
  | some (.obj fields) => some (fields.map (·.1))
  | some _ => none

def Entity.aliases (e : Entity V) : Option (List String) :=
  aliasItems (Dict.find (e.attributes.getD []) "_aliases")

def sortedSet (texts : List String) : List String :=
  texts.dedup.mergeSort fun a b => !(b < a)

def mergedAliases (canonical dupe : Entity V) : Option (List String) := do
  let ofCanonical ← canonical.aliases
  let ofDupe ← dupe.aliases
  some (sortedSet (ofCanonical ++ [canonical.canonicalName, dupe.canonicalName] ++ ofDupe))

def mergedAttributes (canonical dupe : Entity V) : Option Dict := do
  let aliases ← mergedAliases canonical dupe
  some (Dict.set (canonical.attributes.getD []) "_aliases" (.arr (aliases.map .str)))

/-- `_entity_merge_dupe_into_canonical`; nothing where it raises. -/
def entityMergeDupeIntoCanonical (t : Tables V W) (canonical dupe : Entity V)
    (tenantId : String) : Option (Tables V W) := do
  let t ← (t.dropDoubleLinks tenantId canonical.id dupe.id).repointLinks tenantId canonical.id
    dupe.id
  let t ← t.repointRelations tenantId canonical.id dupe.id .source
  let t ← t.repointRelations tenantId canonical.id dupe.id .target
  let attributes ← mergedAttributes canonical dupe
  some ((t.setAttributes canonical.id attributes).deleteEntity dupe.id)

def graphMaxExpandedEntities : ℕ := 200

/-- What an expansion of the graph knows of an entity. -/
structure Reached (W : Type) where
  hop : ℕ
  weight : W
deriving DecidableEq

abbrev Hops (W : Type) := List (ℕ × Reached W)

/-- `fleet_ids if fleet_ids else [None]` -/
def idsToExpand : Option (List String) → List (Option String)
  | none => [none]
  | some [] => [none]
  | some (fleetId :: fleetIds) => (fleetId :: fleetIds).map some

def Reached.nearer (reached : Reached W) : Option (Reached W) → Reached W
  | none => reached
  | some known =>
    if reached.hop < known.hop || (reached.hop = known.hop && known.weight < reached.weight) then
      reached
    else known

def mergePartial (merged hops : Hops W) : Hops W :=
  Groups.collect Prod.fst (fun item => item.2.nearer) merged hops

def mergeResults (results : List (Option (Hops W))) : Hops W :=
  results.foldl (fun merged result =>
    match result with
    | none => merged
    | some hops => mergePartial merged hops) []

def resultItems (results : List (Option (Hops W))) : Hops W :=
  results.flatMap fun hops => hops.getD []

theorem mergeResults_eq (results : List (Option (Hops W))) :
    mergeResults results =
      Groups.collect Prod.fst (fun item => item.2.nearer) [] (resultItems results) := by
  rw [mergeResults]
  generalize ([] : Hops W) = merged
  induction results generalizing merged with
  | nil => rfl
  | cons result results ih =>
    rw [List.foldl_cons, ih, resultItems, resultItems, List.flatMap_cons, Groups.collect,
      Groups.collect, List.foldl_append]
    cases result <;> rfl

theorem mergeResults_unique (results : List (Option (Hops W))) :
    Keyed.Unique Prod.fst (mergeResults results) := by
  rw [mergeResults_eq]
  exact Groups.collect_nil_unique _

end Memclaw.Entities
