import Memclaw.Memories.AccessDefs
import Memclaw.Memories.MutationDefs

/-! The routes that return memories to an agent: list, search, recall, one memory by id and
its contradictions. Each derives the identity that the shared filters see in its own way, and a
credential may read other tenants next to its own. Ranking and paging enter as the rows that
they keep. -/

namespace Memclaw.Memories

open Memclaw.Lib Memclaw.Lib.Interleave Memclaw.Api
open Memclaw.Agents (Agent GetOrCreateArgs getOrCreateTurn)
open Memclaw.Contradiction (Status Visibility)

variable {V : Type}

structure Store (V : Type) where
  rows : Table V
  unique : (rows.map (·.id)).Nodup

/-- What a read meets: the rows that ranking and paging keep, a successor lookup that fails,
and a malformed cursor, an exhausted quota or a failed call that ends the request. -/
structure Surroundings (V : Type) where
  keep : Table V → Table V
  keep_subset : ∀ rows, keep rows ⊆ rows
  successorsFail : Bool
  refusal : Option HTTPException

def Surroundings.proceed (s : Surroundings V) : Except HTTPException Unit :=
  match s.refusal with
  | some error => .error error
  | none => .ok ()

def Surroundings.all : Surroundings V :=
  ⟨fun rows => rows, fun _ => List.Subset.refl _, false, none⟩

structure Reader where
  auth : AuthContext
  listed : List String

def Reader.readableTenantIds (reader : Reader) : List String :=
  match orText reader.auth.tenantId none with
  | none => reader.listed
  | some tenantId =>
    if reader.listed.contains tenantId then reader.listed else tenantId :: reader.listed

def Reader.isCrossTenantRead (reader : Reader) : Bool := 1 < reader.readableTenantIds.length

/-- The set that goes along with a query to widen it; empty where the tenant alone counts. -/
def Reader.widenedTenantIds (reader : Reader) : List String :=
  if reader.isCrossTenantRead then reader.readableTenantIds else []

def Reader.enforceReadableTenant (reader : Reader) (requestedTenant : String) :
    Except HTTPException Unit :=
  if reader.auth.isAdmin then .ok ()
  else if reader.readableTenantIds.contains requestedTenant then .ok ()
  else .error ⟨403, "API key is not authorized to read tenant '" ++ requestedTenant ++ "'"⟩

def visibleTo (callerAgentId : Option String) (m : Memory V) : Bool :=
  m.visibility ≠ .scopeAgent ||
    match orText callerAgentId none with
    | some caller => m.agentId = caller
    | none => false

structure ListQuery where
  tenantId : Option String
  fleetId : Option String
  agentId : Option String
  memoryType : Option String
  excludeMemoryTypes : List String
  createdAfter : Option ℕ
  createdBefore : Option ℕ
  status : Option String
  runId : Option String
  includeDeleted : Bool

def ListQuery.matches (q : ListQuery) (tenantId : String) (callerAgentId : Option String)
    (m : Memory V) : Bool :=
  m.tenantId = tenantId && visibleTo callerAgentId m && given q.fleetId (m.fleetId = some ·) &&
    given q.agentId (m.agentId = ·) && given q.memoryType (m.memoryType.value = ·) &&
    !q.excludeMemoryTypes.contains m.memoryType.value &&
    given q.status (statusValue m.status = ·) &&
    q.runId.all (m.runId = some ·) && q.createdAfter.all (· ≤ m.createdAt) &&
    q.createdBefore.all (m.createdAt ≤ ·) && (q.includeDeleted || m.live)

/-- The filters of `memory_list_by_filters`; a readable set takes the place of the tenant. -/
def ListQuery.matchesIn (q : ListQuery) (tenantId : String) (readableTenantIds : List String)
    (callerAgentId : Option String) (m : Memory V) : Bool :=
  if readableTenantIds = [] then q.matches tenantId callerAgentId m
  else readableTenantIds.contains m.tenantId && q.matches m.tenantId callerAgentId m

/-- The tenant of a list; an admin may leave it open. -/
def ListQuery.tenant (q : ListQuery) (reader : Reader) : Except HTTPException String :=
  match orText q.tenantId none with
  | some tenantId => do
    reader.enforceReadableTenant tenantId
    .ok tenantId
  | none =>
    if reader.auth.isAdmin then .ok ""
    else
      match orText reader.auth.tenantId none with
      | some tenantId => .ok tenantId
      | none => .error ⟨400, "tenant_id is required"⟩

/-- The readable set goes along when no tenant was pinned. -/
def ListQuery.widened (q : ListQuery) (reader : Reader) : List String :=
  match orText q.tenantId none with
  | some _ => []
  | none => reader.widenedTenantIds

def ListQuery.fleetGate (q : ListQuery) (reader : Reader) (agents : Agents.Table)
    (tenantId : String) (callerAgentId : Option String) : Except HTTPException Unit :=
  match orText reader.auth.tenantId none, orText (some tenantId) none, orText callerAgentId none,
      orText q.fleetId none with
  | some _, some tenantId, some caller, some fleetId =>
    enforceFleetRead agents tenantId caller (some fleetId)
  | _, _, _, _ => .ok ()

def listMemories (agents : Agents.Table) (reader : Reader) (t : Table V) (s : Surroundings V)
    (q : ListQuery) : Except HTTPException (List (Memory V)) := do
  let tenantId ← q.tenant reader
  let callerAgentId := orText reader.auth.agentId q.agentId
  q.fleetGate reader agents tenantId callerAgentId
  s.proceed
  .ok (s.keep (t.filter (q.matchesIn tenantId (q.widened reader) callerAgentId)))

/-- The body of both routes; what only the ranking reads is left out. -/
structure SearchRequest where
  tenantId : String
  fleetIds : List String
  filterAgentId : Option String
  memoryTypeFilter : Option MemoryType
  statusFilter : Option Status
  validAt : Option ℕ

/-- What the database makes of a query: the rows that match its text, the day of an instant,
and the memories of the entities that it names. -/
structure SearchEngine (V : Type) where
  fts : Memory V → Bool
  day : ℕ → ℕ
  entityIds : Option (List ℕ)

structure SearchScope where
  tenantId : String
  readableTenantIds : List String
  fleetIds : List String
  filterAgentId : Option String
  callerAgentId : Option String
  memoryTypeFilter : Option MemoryType
  statusFilter : Option Status
  validAt : Option ℕ

def inFleets (fleetIds : List String) (m : Memory V) : Bool :=
  fleetIds.isEmpty || m.fleetId.all (fleetIds.contains ·) || m.visibility = .scopeOrg

namespace SearchScope

def inTenants (scope : SearchScope) (m : Memory V) : Bool :=
  if scope.readableTenantIds = [] then m.tenantId = scope.tenantId
  else scope.readableTenantIds.contains m.tenantId

def admits (scope : SearchScope) (m : Memory V) : Bool :=
  m.live && inFleets scope.fleetIds m && visibleTo scope.callerAgentId m &&
    given scope.filterAgentId (m.agentId = ·) && scope.memoryTypeFilter.all (m.memoryType = ·)

def started (scope : SearchScope) (engine : SearchEngine V) (m : Memory V) : Bool :=
  scope.validAt.all fun instant =>
    m.tsValidStart.all fun start => engine.day start ≤ engine.day instant

def scored (scope : SearchScope) (engine : SearchEngine V) (m : Memory V) : Bool :=
  scope.inTenants m && scope.admits m && (m.embedding.isSome || engine.fts m) && scope.started engine m &&
    match scope.statusFilter with
    | some status => m.status = status
    | none => m.status ≠ .outdated && (m.status ≠ .conflicted || engine.fts m)

def loaded (scope : SearchScope) (engine : SearchEngine V) (ids : List ℕ) (m : Memory V) : Bool :=
  scope.inTenants m && scope.admits m && ids.contains m.id && scope.started engine m &&
    match scope.statusFilter with
    | some status => m.status = status
    | none => m.status ≠ .outdated

/-- The candidates of a search: the memories of the named entities, or else by score. -/
def direct (scope : SearchScope) (engine : SearchEngine V) (t : Table V) : Table V :=
  match engine.entityIds with
  | none => t.filter (scope.scored engine)
  | some ids =>
    match t.filter (scope.loaded engine ids) with
    | [] => t.filter (scope.scored engine)
    | rows => rows

def succeeds (scope : SearchScope) (ids : List ℕ) (m : Memory V) : Bool :=
  m.tenantId = scope.tenantId && scope.admits m && m.supersedesId.any (ids.contains ·) &&
    (m.status = .active || m.status = .confirmed) &&
    scope.validAt.all fun instant =>
      m.tsValidStart.all (· ≤ instant) && m.tsValidEnd.all (instant ≤ ·)

end SearchScope

def Memory.superseded (m : Memory V) : Bool := m.status = .outdated || m.status = .conflicted

def maxSuccessorLookups : ℕ := 10

def searchMemories (engine : SearchEngine V) (t : Table V) (s : Surroundings V)
    (scope : SearchScope) : List (Memory V) :=
  let rows := s.keep (scope.direct engine t)
  let outdatedIds := ((rows.filter (·.superseded)).map (·.id)).take maxSuccessorLookups
  let successors := if s.successorsFail then [] else t.filter (scope.succeeds outdatedIds)
  rows ++ successors.filter fun m => !(rows.map (·.id)).contains m.id

def registerReader (agents : Agents.Table) (tenantId agentId : String) (fleetId : Option String) :
    Except HTTPException (Agent × Agents.Table) :=
  let args : GetOrCreateArgs := ⟨tenantId, agentId, fleetId, false, none, none, none⟩
  let looked := getOrCreateTurn args .ok agents .get
  let registered := getOrCreateTurn args .ok looked.2 looked.1
  match registered.1 with
  | .returned agent => .ok (agent, registered.2)
  | _ => .error serverError

/-- A search without fleets stays in the fleet of an agent below trust 2. -/
def scopedFleets (fleetIds : List String) (agent : Agent) : List String :=
  match fleetIds, orText agent.fleetId none with
  | [], some fleetId => if agent.trustLevel < 2 then [fleetId] else []
  | fleetIds, _ => fleetIds

def fleetScope (agents : Agents.Table) (auth : AuthContext) (body : SearchRequest)
    (callerAgentId : Option String) : Except HTTPException (List String) :=
  match orText auth.tenantId none, orText callerAgentId none with
  | some _, some caller => do
    let hint := match body.fleetIds with
      | [fleetId] => some fleetId
      | _ => none
    let registered ← registerReader agents body.tenantId caller hint
    match scopedFleets body.fleetIds registered.1 with
    | [fleetId] =>
      enforceFleetRead registered.2 body.tenantId caller (some fleetId)
      .ok [fleetId]
    | fleetIds => .ok fleetIds
  | _, _ => .ok body.fleetIds

def scopeFor (agents : Agents.Table) (reader : Reader) (body : SearchRequest)
    (callerAgentId : Option String) : Except HTTPException SearchScope := do
  reader.enforceReadableTenant body.tenantId
  let fleetIds ← fleetScope agents reader.auth body callerAgentId
  .ok ⟨body.tenantId, reader.widenedTenantIds, fleetIds, body.filterAgentId, callerAgentId, body.memoryTypeFilter,
    body.statusFilter, body.validAt⟩

/-- `_search_inner` takes the filter for the identity of the caller, if there is one. -/
def searchScope (agents : Agents.Table) (reader : Reader) (body : SearchRequest) :
    Except HTTPException SearchScope :=
  scopeFor agents reader body (orText body.filterAgentId reader.auth.agentId)

/-- `recall_endpoint` knows no other identity than the filter. -/
def recallScope (agents : Agents.Table) (reader : Reader) (body : SearchRequest) :
    Except HTTPException SearchScope :=
  scopeFor agents reader body body.filterAgentId

def searchIn (engine : SearchEngine V) (t : Table V) (s : Surroundings V)
    (scope : Except HTTPException SearchScope) : Except HTTPException (List (Memory V)) := do
  let scope ← scope
  s.proceed
  .ok (searchMemories engine t s scope)

def getMemory (agents : Agents.Table) (reader : Reader) (t : Table V) (memoryId : ℕ)
    (tenantId : String) : Except HTTPException (Memory V) := do
  reader.enforceReadableTenant tenantId
  match t.getForTenant memoryId tenantId with
  | none => .error notFound
  | some m =>
    if authorizeMemoryAccess agents tenantId reader.auth.agentId m false then .ok m
    else .error notFound

def supersessors (t : Table V) (m : Memory V) : Table V :=
  t.filter fun other => other.supersedesId = some m.id && other.tenantId = m.tenantId && other.live

def older (t : Table V) (m : Memory V) : Option (Memory V) :=
  (m.supersedesId.bind t.get).filter fun other => other.tenantId = m.tenantId && other.live

/-- What an answer shows of a memory: all of it, with the id behind its pointer, or its id and
status with a preview of the content. -/
inductive Shown (V : Type)
  | memoryOut (m : Memory V)
  | finding (m : Memory V)

def Shown.memory : Shown V → Memory V
  | memoryOut m => m
  | finding m => m

def Shown.ids : Shown V → List ℕ
  | memoryOut m => m.id :: m.supersedesId.toList
  | finding m => [m.id]

def getContradictions (agents : Agents.Table) (reader : Reader) (t : Table V) (memoryId : ℕ)
    (tenantId : String) : Except HTTPException (List (Shown V)) := do
  let m ← getMemory agents reader t memoryId tenantId
  .ok ((m :: (supersessors t m ++ (older t m).toList)).map .finding)

inductive ReadRequest
  | list (q : ListQuery)
  | search (body : SearchRequest)
  | recallMemories (body : SearchRequest)
  | get (memoryId : ℕ) (tenantId : String)
  | contradictions (memoryId : ℕ) (tenantId : String)

def respond (engine : SearchEngine V) (agents : Agents.Table) (reader : Reader) (t : Table V)
    (s : Surroundings V) : ReadRequest → Except HTTPException (List (Shown V))
  | .list q => (listMemories agents reader t s q).map (·.map .memoryOut)
  | .search body => (searchIn engine t s (searchScope agents reader body)).map (·.map .memoryOut)
  | .recallMemories body =>
    (searchIn engine t s (recallScope agents reader body)).map (·.map .memoryOut)
  | .get memoryId tenantId => (getMemory agents reader t memoryId tenantId).map ([.memoryOut ·])
  | .contradictions memoryId tenantId => getContradictions agents reader t memoryId tenantId

end Memclaw.Memories
