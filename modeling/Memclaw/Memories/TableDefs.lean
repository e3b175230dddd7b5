import Mathlib.Data.Rat.Defs
import Memclaw.Contradiction.DetectorDefs
import Memclaw.Lib.DictDefs
import Memclaw.Lib.Rows

/-! The `memories` table and the statements that write its rows. -/

namespace Memclaw.Memories

open Memclaw.Lib
open Memclaw.Contradiction (Status Visibility)

inductive MemoryType
  | fact
  | episode
  | decision
  | preference
  | task
  | semantic
  | intention
  | plan
  | commitment
  | action
  | outcome
  | cancellation
  | rule
  | insight
deriving DecidableEq

def MemoryType.value : MemoryType → String
  | fact => "fact"
  | episode => "episode"
  | decision => "decision"
  | preference => "preference"
  | task => "task"
  | semantic => "semantic"
  | intention => "intention"
  | plan => "plan"
  | commitment => "commitment"
  | action => "action"
  | outcome => "outcome"
  | cancellation => "cancellation"
  | rule => "rule"
  | insight => "insight"

def statusValue : Status → String
  | .active => "active"
  | .pending => "pending"
  | .confirmed => "confirmed"
  | .cancelled => "cancelled"
  | .outdated => "outdated"
  | .conflicted => "conflicted"
  | .archived => "archived"
  | .deleted => "deleted"

def given (filter : Option String) (p : String → Bool) : Bool :=
  match filter with
  | none => true
  | some s => s = "" || p s

/-- A row of `memories`, whose vectors are of type `V`. A weight is the value of its double;
times are instants. -/
structure Memory (V : Type) where
  id : ℕ
  tenantId : String
  fleetId : Option String
  agentId : String
  memoryType : MemoryType
  title : Option String
  content : String
  embedding : Option V
  weight : Option ℚ
  sourceUri : Option String
  runId : Option String
  metadata : Option Dict
  contentHash : Option String
  createdAt : ℕ
  expiresAt : Option ℕ
  subjectEntityId : Option ℕ
  predicate : Option String
  objectValue : Option String
  tsValidStart : Option ℕ
  tsValidEnd : Option ℕ
  status : Status
  visibility : Visibility
  supersedesId : Option ℕ
  recallCount : ℕ
  deletedAt : Option ℕ

abbrev Table (V : Type) := List (Memory V)

variable {V : Type}

def Memory.live (m : Memory V) : Bool := m.deletedAt.isNone

def Memory.at (id : ℕ) (tenantId : String) (m : Memory V) : Bool :=
  m.id = id && m.tenantId = tenantId

/-- What `memory_add` stores for the body of a create; the columns that no create of the
API sends are null. -/
structure NewMemory (V : Type) where
  tenantId : String
  fleetId : Option String
  agentId : String
  memoryType : MemoryType
  title : Option String
  content : String
  embedding : Option V
  weight : Option ℚ
  sourceUri : Option String
  runId : Option String
  metadata : Option Dict
  contentHash : Option String
  expiresAt : Option ℕ
  subjectEntityId : Option ℕ
  predicate : Option String
  objectValue : Option String
  tsValidStart : Option ℕ
  tsValidEnd : Option ℕ
  status : Status
  visibility : Visibility

def NewMemory.row (data : NewMemory V) (id now : ℕ) : Memory V where
  id := id
  tenantId := data.tenantId
  fleetId := data.fleetId
  agentId := data.agentId
  memoryType := data.memoryType
  title := data.title
  content := data.content
  embedding := data.embedding
  weight := data.weight
  sourceUri := data.sourceUri
  runId := data.runId
  metadata := data.metadata
  contentHash := data.contentHash
  createdAt := now
  expiresAt := data.expiresAt
  subjectEntityId := data.subjectEntityId
  predicate := data.predicate
  objectValue := data.objectValue
  tsValidStart := data.tsValidStart
  tsValidEnd := data.tsValidEnd
  status := data.status
  visibility := data.visibility
  supersedesId := none
  recallCount := 0
  deletedAt := none

/-- The body of `PATCH /memories/{id}` at the storage API: a key is absent, null or a
value. -/
structure Patch (V : Type) where
  content : Option String := none
  embedding : Option V := none
  contentHash : Option String := none
  supersedesId : Option (Option ℕ) := none
  memoryType : Option (Option MemoryType) := none
  weight : Option (Option ℚ) := none
  title : Option (Option String) := none
  status : Option (Option Status) := none
  visibility : Option (Option Visibility) := none
  sourceUri : Option (Option String) := none
  subjectEntityId : Option (Option ℕ) := none
  predicate : Option (Option String) := none
  objectValue : Option (Option String) := none
  tsValidStart : Option (Option ℕ) := none
  tsValidEnd : Option (Option ℕ) := none
  expiresAt : Option (Option ℕ) := none
  metadata : Option (Option Dict) := none
  metadataPatch : Option Dict := none

/-- A null for a column that is declared `NOT NULL`, which fails the statement. -/
def Patch.nullsRequired (patch : Patch V) : Bool :=
  patch.memoryType = some none || patch.status = some none || patch.visibility = some none

def Patch.mergedMetadata (patch : Patch V) (metadata : Option Dict) : Option Dict :=
  match patch.metadataPatch with
  | none => metadata
  | some merged => if merged = [] then metadata else some ((metadata.getD []).update merged)

def Patch.apply (patch : Patch V) (m : Memory V) : Memory V :=
  { m with
    content := patch.content.getD m.content
    embedding := patch.embedding.or m.embedding
    contentHash := patch.contentHash.or m.contentHash
    supersedesId := patch.supersedesId.getD m.supersedesId
    memoryType := (patch.memoryType.getD none).getD m.memoryType
    weight := patch.weight.getD m.weight
    title := patch.title.getD m.title
    status := (patch.status.getD none).getD m.status
    visibility := (patch.visibility.getD none).getD m.visibility
    sourceUri := patch.sourceUri.getD m.sourceUri
    subjectEntityId := patch.subjectEntityId.getD m.subjectEntityId
    predicate := patch.predicate.getD m.predicate
    objectValue := patch.objectValue.getD m.objectValue
    tsValidStart := patch.tsValidStart.getD m.tsValidStart
    tsValidEnd := patch.tsValidEnd.getD m.tsValidEnd
    expiresAt := patch.expiresAt.getD m.expiresAt
    metadata := patch.mergedMetadata (patch.metadata.getD m.metadata) }

structure DeleteFilter where
  tenantId : String
  fleetId : Option String
  agentId : Option String
  memoryType : Option String
  status : Option String
  excludeIds : List ℕ
  metadataFilter : List (String × String)

abbrev GetText := Dict → String → Option String

def metadataText (getText : GetText) (m : Memory V) (key : String) : Option String :=
  m.metadata.bind fun metadata => getText metadata key

def DeleteFilter.matches (getText : GetText) (filter : DeleteFilter) (m : Memory V) : Bool :=
  m.tenantId = filter.tenantId && m.live &&
    given filter.fleetId (m.fleetId = some ·) && given filter.agentId (m.agentId = ·) &&
    given filter.memoryType (m.memoryType.value = ·) &&
    given filter.status (statusValue m.status = ·) &&
    !filter.excludeIds.contains m.id &&
    filter.metadataFilter.all fun field => metadataText getText m field.1 = some field.2

structure StatusUpdate where
  id : ℕ
  tenantId : String
  status : Status
  supersedesId : Option ℕ := none
  unsetSupersedes : Bool := false
  expectedSupersedesId : Option ℕ := none

/-- The `WHERE` clause; it does not ask whether the row is live. -/
def StatusUpdate.matches (u : StatusUpdate) (m : Memory V) : Bool :=
  m.at u.id u.tenantId && (u.expectedSupersedesId.isNone || m.supersedesId = u.expectedSupersedesId)

def StatusUpdate.write (u : StatusUpdate) (m : Memory V) : Memory V :=
  { m with
    status := u.status
    supersedesId := if u.unsetSupersedes then none else u.supersedesId.or m.supersedesId }

structure Retraction where
  id : ℕ
  tenantId : String
  status : Status
  expectedSupersedesId : ℕ

def Retraction.matches (u : Retraction) (m : Memory V) : Bool :=
  m.at u.id u.tenantId &&
    (m.supersedesId = some u.expectedSupersedesId || m.supersedesId.isNone)

def Retraction.write (u : Retraction) (m : Memory V) : Memory V :=
  { m with supersedesId := none, status := u.status }

def Memory.markDeleted (now : ℕ) (m : Memory V) : Memory V :=
  { m with deletedAt := some now, status := .deleted }

namespace Table

def memoryAdd (t : Table V) (data : NewMemory V) (now : ℕ) : Table V :=
  t ++ [data.row t.length now]

def get (t : Table V) (id : ℕ) : Option (Memory V) := t.find? fun m => m.id = id

def getForTenant (t : Table V) (id : ℕ) (tenantId : String) : Option (Memory V) :=
  (t.get id).filter fun m => m.tenantId = tenantId && m.live

/-- The soft deletes: those of live rows, and `memory_soft_delete` by primary key alone. -/
def softDeleteWhere (t : Table V) (p : Memory V → Bool) (now : ℕ) : Table V :=
  Rows.update p (Memory.markDeleted now) t

def memorySoftDelete (t : Table V) (id now : ℕ) : Table V :=
  t.softDeleteWhere (fun m => m.id = id) now

def memorySoftDeleteByFilter (getText : GetText) (t : Table V) (filter : DeleteFilter) (now : ℕ) :
    Table V :=
  t.softDeleteWhere (filter.matches getText) now

def memorySoftDeleteByIds (t : Table V) (tenantId : String) (ids : List ℕ) (now : ℕ) : Table V :=
  t.softDeleteWhere (fun m => m.tenantId = tenantId && ids.contains m.id && m.live) now

def memorySoftDeleteByRun (getText : GetText) (t : Table V) (tenantId runId metadataSource : String)
    (now : ℕ) : Table V :=
  t.softDeleteWhere (fun m => m.tenantId = tenantId && m.live && m.runId = some runId &&
    metadataText getText m "source" = some metadataSource) now

/-- `memory_update`: whether a live row was found, with the table after it; nothing when a
required column is given a null and the transaction is rolled back. -/
def memoryUpdate (t : Table V) (id : ℕ) (tenantId : String) (patch : Patch V) :
    Option (Bool × Table V) :=
  match t.find? (Memory.at id tenantId) with
  | none => some (false, t)
  | some row =>
    if !row.live then some (false, t)
    else if patch.nullsRequired then none
    else some (true, Rows.update (fun m => m.at id tenantId && m.live) patch.apply t)

def memoryUpdateStatus (t : Table V) (u : StatusUpdate) : Table V := Rows.update u.matches u.write t

def retract (t : Table V) (u : Retraction) : Table V := Rows.update u.matches u.write t

/-- The pointer that the status route sets after the status. -/
def setSupersedes (t : Table V) (id : ℕ) (tenantId : String) (supersedesId : ℕ) : Table V :=
  Rows.update (fun m => m.at id tenantId && m.supersedesId.isNone)
    (fun m => { m with supersedesId := some supersedesId }) t

def insightsRestorePriors (t : Table V) (tenantId : String) (priorIds : List ℕ) : Table V :=
  Rows.update (fun m => priorIds.contains m.id && m.status = .outdated && m.tenantId = tenantId)
    (fun m => { m with status := .active }) t

end Table

end Memclaw.Memories
