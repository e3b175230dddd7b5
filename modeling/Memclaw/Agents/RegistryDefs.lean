import Memclaw.Api.AuthDefs
import Memclaw.Lib.Interleave
import Memclaw.Lib.JsonDefs

/-! The agents table and its writers: registration on first use, the ownership gate of
broker writes and the operator's trust and fleet calls, cut at their storage calls. -/

namespace Memclaw.Agents

open Memclaw.Lib Memclaw.Lib.Interleave Memclaw.Api

/-- A row of `agents`. `operatorFleet` is a ghost column: the fleet was last set by an
operator. -/
structure Agent where
  fleetId : Option String
  displayName : Option String
  installId : Option String
  ownerInstallUuid : Option String
  trustLevel : Int
  searchProfile : Option Json
  operatorFleet : Bool

abbrev Table := String → String → Option Agent

def Table.set (t : Table) (tenantId agentId : String) (row : Agent) : Table := fun tenant agent =>
  if tenant = tenantId ∧ agent = agentId then some row else t tenant agent

/-- The body of `create_or_update_agent`; a missing key and a null are the same there. -/
structure AgentData where
  tenantId : String
  agentId : String
  fleetId : Option String
  displayName : Option String
  installId : Option String
  ownerInstallUuid : Option String
  trustLevel : Option Int
  searchProfile : Option Json

def AgentData.fits (data : AgentData) : Bool :=
  data.installId.all (·.length ≤ 32) && data.ownerInstallUuid.all (·.length ≤ 36) &&
    data.trustLevel.all fun level => -32768 ≤ level && level ≤ 32767

def AgentData.row (data : AgentData) : Agent where
  fleetId := data.fleetId
  displayName := data.displayName
  installId := data.installId
  ownerInstallUuid := data.ownerInstallUuid
  trustLevel := data.trustLevel.getD 1
  searchProfile := data.searchProfile
  operatorFleet := false

/-- The conflict branch: fleet, trust and display name are overwritten, the install
identities are only filled in. -/
def AgentData.merge (data : AgentData) (row : Agent) : Agent where
  fleetId := data.fleetId.or row.fleetId
  displayName := data.displayName.or row.displayName
  installId := row.installId.or data.installId
  ownerInstallUuid := row.ownerInstallUuid.or data.ownerInstallUuid
  trustLevel := data.trustLevel.getD row.trustLevel
  searchProfile := row.searchProfile
  operatorFleet := row.operatorFleet && (data.fleetId.isNone || data.fleetId = row.fleetId)

def AgentData.stored (data : AgentData) (t : Table) : Agent :=
  match t data.tenantId data.agentId with
  | none => data.row
  | some row => data.merge row

def Table.agentAdd (t : Table) (data : AgentData) : Option (Table × Agent) :=
  if data.fits then some (t.set data.tenantId data.agentId (data.stored t), data.stored t) else none

def Table.agentUpdateTrustLevel (t : Table) (agentId tenantId : String) (trustLevel : Int)
    (fleetId : Option String) : Table :=
  match t tenantId agentId with
  | none => t
  | some row => t.set tenantId agentId { row with
      trustLevel := trustLevel
      fleetId := fleetId.or row.fleetId
      operatorFleet := fleetId.isSome || row.operatorFleet }

def Table.agentUpdateFleet (t : Table) (agentId tenantId fleetId : String) : Table :=
  match t tenantId agentId with
  | none => t
  | some row => t.set tenantId agentId { row with fleetId := some fleetId, operatorFleet := true }

structure GetOrCreateArgs where
  tenantId : String
  agentId : String
  fleetId : Option String
  requireApproval : Bool
  displayName : Option String
  installId : Option String
  ownerInstallUuid : Option String

/-- Where `get_or_create_agent` stands, with the row that it read and is to backfill, or what it
carries over from the legacy row. -/
inductive GetOrCreate
  | get
  | backfill (read : Agent)
  | legacy
  | create (carried : Option Agent)
  | returned (agent : Agent)
  | raised (error : HTTPException)

def defaultTrustLevel : Int := 1

def GetOrCreateArgs.backfill (args : GetOrCreateArgs) (agent : Agent) : AgentData where
  tenantId := args.tenantId
  agentId := args.agentId
  fleetId := if agent.fleetId.isNone then args.fleetId else none
  displayName := if agent.displayName ≠ args.displayName then args.displayName else none
  installId := if agent.installId.isNone then args.installId else none
  ownerInstallUuid := if agent.ownerInstallUuid.isNone then args.ownerInstallUuid else none
  trustLevel := none
  searchProfile := none

def AgentData.isEmpty (data : AgentData) : Bool :=
  data.fleetId.isNone && data.displayName.isNone && data.installId.isNone &&
    data.ownerInstallUuid.isNone

def AgentData.updateCopy (data : AgentData) (agent : Agent) : Agent :=
  { agent with
    fleetId := data.fleetId.or agent.fleetId
    displayName := data.displayName.or agent.displayName
    installId := data.installId.or agent.installId
    ownerInstallUuid := data.ownerInstallUuid.or agent.ownerInstallUuid }

def GetOrCreateArgs.carriesLegacy (args : GetOrCreateArgs) : Bool :=
  !args.requireApproval && args.installId.any fun installId => args.agentId = "main-" ++ installId

def GetOrCreateArgs.initialTrust (args : GetOrCreateArgs) : Option Agent → Int
  | some legacy => legacy.trustLevel
  | none => if args.requireApproval then 0 else defaultTrustLevel

def GetOrCreateArgs.payload (args : GetOrCreateArgs) (legacy : Option Agent) : AgentData where
  tenantId := args.tenantId
  agentId := args.agentId
  fleetId := args.fleetId
  displayName := args.displayName
  installId := args.installId
  ownerInstallUuid := args.ownerInstallUuid
  trustLevel := some (args.initialTrust legacy)
  searchProfile := legacy.bind (·.searchProfile)

def GetOrCreateArgs.inherits (args : GetOrCreateArgs) (legacy : Option Agent) : Option Agent :=
  legacy.filter fun row => args.fleetId.isNone || row.fleetId = args.fleetId

def getOrCreateTurn (args : GetOrCreateArgs) (reply : Reply) (t : Table) :
    GetOrCreate → GetOrCreate × Table
  | .get =>
    match reply, t args.tenantId args.agentId with
    | .ok, some agent =>
      (if (args.backfill agent).isEmpty then .returned agent else .backfill agent, t)
    | .ok, none => (if args.carriesLegacy then .legacy else .create none, t)
    | _, _ => (.raised serverError, t)
  | .backfill read =>
    -- the reply carries the stored row, but the caller keeps its own copy
    match reply, t.agentAdd (args.backfill read) with
    | .ok, some (t', _) => (.returned ((args.backfill read).updateCopy read), t')
    | .lost, some (t', _) => (.raised serverError, t')
    | _, _ => (.raised serverError, t)
  | .legacy =>
    match reply with
    | .ok => (.create (args.inherits (t args.tenantId "main")), t)
    | _ => (.raised serverError, t)
  | .create carried =>
    match reply, t.agentAdd (args.payload carried) with
    | .ok, some (t', agent) => (.returned agent, t')
    | .lost, some (t', _) => (.raised serverError, t')
    | _, _ => (.raised serverError, t)
  | .returned agent => (.returned agent, t)
  | .raised e => (.raised e, t)

def brokerLabelStart : String := "broker:"

def brokerLabel (installUuid : Option String) : String :=
  brokerLabelStart ++ (if installUuid.getD "" = "" then "unknown" else installUuid.getD "")

def reserved (agentId : String) : Bool := brokerLabelStart.toList.isPrefixOf agentId.toList

def ownedByOtherInstall (ownerInstallUuid installUuid : Option String) : Bool :=
  ownerInstallUuid.isSome && ownerInstallUuid ≠ installUuid

structure ResolveArgs where
  chosenAgentId : String
  tenantId : String
  fleetId : Option String
  isInstallCredential : Bool
  installUuid : Option String
  requireApproval : Bool

/-- Where `resolve_write_agent` stands: at its gate, in its first or, after the re-check
degraded it, its second registration. -/
inductive Resolve
  | gate
  | first (agentId : String) (state : GetOrCreate)
  | second (state : GetOrCreate)
  | returned (agent : Agent) (agentId : String)
  | raised (error : HTTPException)

/-- `broker_owned_agent_id`; nothing when its lookup raises. -/
def brokerOwnedAgentId (chosen : String) (installUuid : Option String) (reply : Reply)
    (owner : Option Agent) : Option String :=
  if installUuid.isNone then some chosen
  else if chosen = brokerLabel installUuid then some chosen
  else if reserved chosen then some (brokerLabel installUuid)
  else if reply = .ok then
    match owner with
    | none => some chosen
    | some row =>
      if ownedByOtherInstall row.ownerInstallUuid installUuid then some (brokerLabel installUuid)
      else some chosen
  else none

def ResolveArgs.register (args : ResolveArgs) (agentId : String) : GetOrCreateArgs where
  tenantId := args.tenantId
  agentId := agentId
  fleetId := args.fleetId
  requireApproval := args.requireApproval
  displayName := none
  installId := none
  ownerInstallUuid := if args.isInstallCredential then args.installUuid else none

def ResolveArgs.afterFirst (args : ResolveArgs) (agentId : String) : GetOrCreate → Resolve
  | .returned agent =>
    if args.isInstallCredential && args.installUuid.getD "" ≠ "" &&
        ownedByOtherInstall agent.ownerInstallUuid args.installUuid then
      .second .get
    else .returned agent agentId
  | .raised e => .raised e
  | state => .first agentId state

def ResolveArgs.afterSecond (args : ResolveArgs) : GetOrCreate → Resolve
  | .returned agent => .returned agent (brokerLabel args.installUuid)
  | .raised e => .raised e
  | state => .second state

def resolveTurn (args : ResolveArgs) (reply : Reply) (t : Table) : Resolve → Resolve × Table
  | .gate =>
    if args.isInstallCredential then
      match brokerOwnedAgentId args.chosenAgentId args.installUuid reply
          (t args.tenantId args.chosenAgentId) with
      | some agentId => (.first agentId .get, t)
      | none => (.raised serverError, t)
    else (.first args.chosenAgentId .get, t)
  | .first agentId state =>
    let next := getOrCreateTurn (args.register agentId) reply t state
    (args.afterFirst agentId next.1, next.2)
  | .second state =>
    let next := getOrCreateTurn (args.register (brokerLabel args.installUuid)) reply t state
    (args.afterSecond next.1, next.2)
  | .returned agent agentId => (.returned agent agentId, t)
  | .raised e => (.raised e, t)

inductive OperatorUpdate
  | trustLevel (level : Int) (fleetId : Option String)
  | fleet (fleetId : String)

/-- The storage call of an operator; it is retried, so a lost reply leaves it pending. -/
inductive OperatorCall
  | pending
  | returned
  | raised

inductive Request
  | resolveWriteAgent (args : ResolveArgs) (state : Resolve)
  | getOrCreateAgent (args : GetOrCreateArgs) (state : GetOrCreate)
  | operator (tenantId agentId : String) (update : OperatorUpdate) (state : OperatorCall)

def OperatorUpdate.apply (update : OperatorUpdate) (t : Table) (tenantId agentId : String) : Table :=
  match update with
  | .trustLevel level fleetId => t.agentUpdateTrustLevel agentId tenantId level fleetId
  | .fleet fleetId => t.agentUpdateFleet agentId tenantId fleetId

def operatorTurn (tenantId agentId : String) (update : OperatorUpdate) (reply : Reply) (t : Table) :
    OperatorCall → OperatorCall × Table
  | .pending =>
    match reply with
    | .ok => (.returned, update.apply t tenantId agentId)
    | .lost => (.pending, update.apply t tenantId agentId)
    | .refused => (.raised, t)
  | state => (state, t)

def turn (reply : Reply) (request : Request) (t : Table) : Request × Table :=
  match request with
  | .resolveWriteAgent args state =>
    let next := resolveTurn args reply t state
    (.resolveWriteAgent args next.1, next.2)
  | .getOrCreateAgent args state =>
    let next := getOrCreateTurn args reply t state
    (.getOrCreateAgent args next.1, next.2)
  | .operator tenantId agentId update state =>
    let next := operatorTurn tenantId agentId update reply t state
    (.operator tenantId agentId update next.1, next.2)

def Request.fresh : Request → Bool
  | .resolveWriteAgent _ .gate => true
  | .getOrCreateAgent _ .get => true
  | .operator _ _ _ .pending => true
  | _ => false

end Memclaw.Agents
