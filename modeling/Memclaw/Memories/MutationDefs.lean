import Memclaw.Contradiction.Scope
import Memclaw.Memories.AccessDefs
import Memclaw.Memories.UpdateDefs

/-! The routes that change or delete stored memories: `PATCH`, the status route and the three
deletes, each with its own subset of the access checks, and the tasks that a change of content
leaves to run in the background. -/

namespace Memclaw.Memories

open Memclaw.Lib Memclaw.Api
open Memclaw.Contradiction (Status Visibility Store Runtime DtValue Detection idText)

variable {V : Type}

def notFound : HTTPException := ⟨404, "Memory not found"⟩

def memoryStatuses : String :=
  "active, pending, confirmed, cancelled, outdated, conflicted, archived, deleted"

def refusedUnless (allowed : Bool) (error : HTTPException) : Except HTTPException Unit :=
  if allowed then .ok () else .error error

def enforceRowUpdate (agents : Agents.Table) (tenantId : String) (agentId : Option String)
    (mem : Memory V) : Except HTTPException Unit :=
  match orText agentId none with
  | none => .ok ()
  | some agent => do
    enforceUpdate agents tenantId agent mem.agentId
    refusedUnless (authorizeMemoryAccess agents tenantId (some agent) mem true)
      ⟨403, "Agent '" ++ agent ++ "' cannot modify memory in fleet '" ++
        fleetText mem.fleetId ++ "'."⟩

/-- What an update meets on its way: the vector of the new content, and a duplicate, an
exhausted quota or a failed call that ends it. -/
structure UpdateSurroundings (V : Type) where
  newEmbedding : Option V := none
  refusal : Option HTTPException := none
  entityExtractionEnabled : Bool := true

inductive Task
  | processEntityExtraction (memoryId : ℕ)
  | detectContradictions (memoryId : ℕ)
  | detectContradictionsByEntities (memoryId : ℕ)
deriving DecidableEq

def Task.memoryId : Task → ℕ
  | processEntityExtraction memoryId => memoryId
  | detectContradictions memoryId => memoryId
  | detectContradictionsByEntities memoryId => memoryId

def postCommitTasks (memoryId : ℕ) (contentChanged entityExtractionEnabled : Bool) : List Task :=
  if contentChanged then
    (if entityExtractionEnabled then [.processEntityExtraction memoryId] else []) ++
      [.detectContradictions memoryId]
  else []

/-- `update_memory`: the table after it and the tasks that it leaves. -/
def updateMemory (agents : Agents.Table) (t : Table V) (memoryId : ℕ) (tenantId : String)
    (data : MemoryUpdate) (agentId : Option String) (s : UpdateSurroundings V) :
    Except HTTPException (Table V × List Task) := do
  match t.getForTenant memoryId tenantId with
  | none => .error notFound
  | some mem =>
    enforceRowUpdate agents tenantId agentId mem
    match s.refusal with
    | some error => .error error
    | none =>
      match data.patch mem s.newEmbedding with
      | .error error => .error error
      | .ok patch =>
        match t.memoryUpdate memoryId tenantId patch with
        | none => .error serverError
        | some (_, t') => .ok (t',
            postCommitTasks memoryId (data.contentChanged mem) s.entityExtractionEnabled)

def MemoryUpdate.withMode (data : MemoryUpdate) (metadataMode : Option MetadataMode) :
    Except HTTPException MemoryUpdate :=
  match metadataMode, data.metadataMode with
  | some mode, none =>
    if data.metadata.isNone then
      .error ⟨422, "metadata_mode is only valid when metadata is also provided"⟩
    else .ok { data with metadataMode := some mode }
  | _, _ => .ok data

def updateMemoryEndpoint (agents : Agents.Table) (auth : AuthContext) (t : Table V) (memoryId : ℕ)
    (tenantId : String) (agentId : Option String) (metadataMode : Option MetadataMode)
    (body : MemoryUpdate) (s : UpdateSurroundings V) :
    Except HTTPException (Table V × List Task) := do
  auth.enforceTenant tenantId
  let body ← body.withMode metadataMode
  updateMemory agents t memoryId tenantId body
    (if (orText auth.tenantId none).isSome then orText auth.agentId agentId else none) s

def updateMemoryStatus (agents : Agents.Table) (auth : AuthContext) (t : Table V) (memoryId : ℕ)
    (tenantId : String) (status : Option Status) : Except HTTPException (Table V) := do
  auth.enforceReadOnly
  auth.enforceUsageLimits
  auth.enforceTenant tenantId
  match status with
  | none => .error ⟨400, "Invalid status. Must be one of: " ++ memoryStatuses⟩
  | some status =>
    match t.getForTenant memoryId tenantId with
    | none => .error notFound
    | some mem =>
      refusedUnless (authorizeMemoryAccess agents tenantId auth.agentId mem true)
        ⟨403, "Agent '" ++ auth.agentId.getD "" ++ "' cannot modify memory in fleet '" ++
          fleetText mem.fleetId ++ "'."⟩
      .ok (t.memoryUpdateStatus { id := memoryId, tenantId := tenantId, status := status })

def deleteGate (agents : Agents.Table) (auth : AuthContext) (tenantId : String)
    (callerAgentId : Option String) : Except HTTPException Unit :=
  match orText auth.tenantId none, orText callerAgentId none with
  | some _, some caller => enforceDelete agents tenantId caller
  | _, _ => .ok ()

def deleteRowGate (agents : Agents.Table) (auth : AuthContext) (tenantId : String)
    (callerAgentId : Option String) (target : Option (Memory V)) : Except HTTPException Unit :=
  match orText auth.tenantId none, orText callerAgentId none, target with
  | some _, some caller, some m =>
    refusedUnless (authorizeMemoryAccess agents tenantId (some caller) m true)
      ⟨403, "Agent '" ++ caller ++ "' cannot delete memory in fleet '" ++
        fleetText m.fleetId ++ "'."⟩
  | _, _, _ => .ok ()

def deleteMemory (agents : Agents.Table) (auth : AuthContext) (t : Table V) (memoryId : ℕ)
    (tenantId : String) (agentId : Option String) (now : ℕ) : Except HTTPException (Table V) := do
  auth.enforceReadOnly
  auth.enforceTenant tenantId
  let callerAgentId := orText auth.agentId agentId
  deleteGate agents auth tenantId callerAgentId
  let target := t.getForTenant memoryId tenantId
  deleteRowGate agents auth tenantId callerAgentId target
  match target with
  | none => .error notFound
  | some _ => .ok (t.memorySoftDelete memoryId now)

def deleteAllMemories (getText : GetText) (agents : Agents.Table) (auth : AuthContext) (t : Table V)
    (filter : DeleteFilter) (now : ℕ) : Except HTTPException (Table V) := do
  auth.enforceReadOnly
  auth.enforceTenant filter.tenantId
  deleteGate agents auth filter.tenantId auth.agentId
  if 20 < filter.metadataFilter.length then
    .error ⟨400, "metadata_filter supports at most 20 key/value pairs"⟩
  else .ok (t.memorySoftDeleteByFilter getText filter now)

def bulkDeleteByIds (agents : Agents.Table) (auth : AuthContext) (t : Table V)
    (tenantId : Option String) (ids : List ℕ) (now : ℕ) : Except HTTPException (Table V) := do
  match orText tenantId none with
  | none => .error ⟨400, "tenant_id required"⟩
  | some tenantId =>
    auth.enforceReadOnly
    auth.enforceTenant tenantId
    deleteGate agents auth tenantId auth.agentId
    if ids.isEmpty ∨ 1000 < ids.length then .error ⟨400, "ids must be 1-1000 items"⟩
    else .ok (t.memorySoftDeleteByIds tenantId ids now)

inductive MutationRequest (V : Type)
  | update (memoryId : ℕ) (tenantId : String) (agentId : Option String)
      (metadataMode : Option MetadataMode) (body : MemoryUpdate) (s : UpdateSurroundings V)
  | status (memoryId : ℕ) (tenantId : String) (status : Option Status)
  | delete (memoryId : ℕ) (tenantId : String) (agentId : Option String) (now : ℕ)
  | deleteAll (filter : DeleteFilter) (now : ℕ)
  | bulkDelete (tenantId : Option String) (ids : List ℕ) (now : ℕ)

def handleMutation (getText : GetText) (agents : Agents.Table) (auth : AuthContext) (t : Table V) :
    MutationRequest V → Except HTTPException (Table V × List Task)
  | .update memoryId tenantId agentId metadataMode body s =>
    updateMemoryEndpoint agents auth t memoryId tenantId agentId metadataMode body s
  | .status memoryId tenantId status => do
    return (← updateMemoryStatus agents auth t memoryId tenantId status, [])
  | .delete memoryId tenantId agentId now => do
    return (← deleteMemory agents auth t memoryId tenantId agentId now, [])
  | .deleteAll filter now => do return (← deleteAllMemories getText agents auth t filter now, [])
  | .bulkDelete tenantId ids now => do
    return (← bulkDeleteByIds agents auth t tenantId ids now, [])

structure RowDicts where
  rt : Runtime
  uuid : ℕ → Uuid
  entityId : ℕ → String
  createdAt : ℕ → DtValue

namespace RowDicts

def memory (dicts : RowDicts) (m : Memory V) : Contradiction.Memory where
  id := dicts.uuid m.id
  tenantId := m.tenantId
  fleetId := m.fleetId
  visibility := m.visibility
  status := m.status
  createdAt := dicts.createdAt m.createdAt
  supersedesId := m.supersedesId.map dicts.uuid
  subjectEntityId := m.subjectEntityId.map dicts.entityId
  predicate := m.predicate
  objectValue := m.objectValue
  deleted := m.deletedAt.isSome

def store (dicts : RowDicts) (t : Table V) : Option Store :=
  if h : ((t.map dicts.memory).map (·.id)).Nodup then some ⟨t.map dicts.memory, h⟩ else none

def written (dicts : RowDicts) (t : Table V) (after : Contradiction.Memory) (m : Memory V) :
    Memory V :=
  { m with
    status := after.status
    supersedesId := if after.supersedesId = (dicts.memory m).supersedesId then m.supersedesId
      else after.supersedesId.bind fun id => (t.find? (dicts.uuid ·.id = id)).map (·.id) }

def detect (dicts : RowDicts) (t : Table V) (memoryId : ℕ) (detection : Detection) : Table V :=
  match dicts.store t, t.get memoryId with
  | some store, some mem =>
    let after := detection.run dicts.rt store (dicts.memory mem)
    t.map fun m => match after.get (dicts.uuid m.id) with
      | some row => dicts.written t row m
      | none => m
  | _, _ => t

end RowDicts

/-- A task that runs, with what its queries and judges answer. A task that fails or that another
run of its kind locks out writes nothing, as one that never runs. -/
inductive TaskRun
  | processEntityExtraction (memoryId : ℕ) (entitiesNamed : Bool)
  | detect (memoryId : ℕ) (detection : Detection)

def TaskRun.task : TaskRun → Task
  | processEntityExtraction memoryId _ => .processEntityExtraction memoryId
  | detect memoryId (.pathA _) => .detectContradictions memoryId
  | detect memoryId (.pathC _ _) => .detectContradictionsByEntities memoryId

/-- Extraction writes to the tables of entities, and hands a memory with entities to Path C. -/
def TaskRun.apply (dicts : RowDicts) (t : Table V) : TaskRun → Table V × List Task
  | processEntityExtraction memoryId entitiesNamed =>
    (t, if entitiesNamed then [.detectContradictionsByEntities memoryId] else [])
  | detect memoryId detection => (dicts.detect t memoryId detection, [])

/-- The table and the tasks that have not run yet. -/
structure Mutable (V : Type) where
  table : Table V
  tasks : List Task

inductive MutationEvent (V : Type)
  | request (request : MutationRequest V)
  | background (run : TaskRun)

/-- A request that is answered with an error leaves the table. -/
def mutationStep (getText : GetText) (dicts : RowDicts) (agents : Agents.Table) (auth : AuthContext)
    (c : Mutable V) : MutationEvent V → Mutable V
  | .request request =>
    match handleMutation getText agents auth c.table request with
    | .error _ => c
    | .ok (t', tasks) => ⟨t', c.tasks ++ tasks⟩
  | .background run =>
    if run.task ∈ c.tasks then
      ⟨(run.apply dicts c.table).1, c.tasks.erase run.task ++ (run.apply dicts c.table).2⟩
    else c

end Memclaw.Memories
