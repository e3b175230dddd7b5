import Memclaw.Agents.RegistryDefs
import Memclaw.Memories.TableDefs

/-! The trust ladder of `agent_service.py`: who may read, change and delete a memory. -/

namespace Memclaw.Memories

open Memclaw.Api
open Memclaw.Agents (Agent)
open Memclaw.Contradiction (Status Visibility)

variable {V : Type}

def orText (a b : Option String) : Option String :=
  match a with
  | none => b
  | some s => if s = "" then b else some s

theorem orText_some {s : String} (hs : s ≠ "") (other : Option String) :
    orText (some s) other = some s := if_neg hs

def fleetName (fleetId : Option String) : String := (orText fleetId none).getD "none"

def fleetText (fleetId : Option String) : String := fleetId.getD "None"

def memoryAccessAllowedForAgent (agent : Option Agent) (callerAgentId : String)
    (visibility : Visibility) (ownerAgentId : String) (fleetId : Option String) (write : Bool) :
    Bool :=
  match visibility with
  | .scopeAgent => ownerAgentId = callerAgentId
  | .scopeOrg => true
  | .scopeTeam =>
    match agent with
    | none => true
    | some agent =>
      fleetId.isNone || fleetId = agent.fleetId || (if write then 3 else 2) ≤ agent.trustLevel

def authorizeMemoryAccess (agents : Agents.Table) (tenantId : String)
    (callerAgentId : Option String) (m : Memory V) (write : Bool) : Bool :=
  match orText callerAgentId none with
  | none => true
  | some caller =>
    memoryAccessAllowedForAgent (agents tenantId caller) caller m.visibility m.agentId m.fleetId
      write

def enforceFleetRead (agents : Agents.Table) (tenantId agentId : String)
    (fleetId : Option String) : Except HTTPException Unit :=
  match agents tenantId agentId with
  | none => .ok ()
  | some agent =>
    if fleetId.isNone ∨ fleetId = agent.fleetId then .ok ()
    else if agent.trustLevel < 2 then
      .error ⟨403, "fleet-scope policy: fleet '" ++ fleetText fleetId ++
        "' is not readable by principals of fleet '" ++ fleetName agent.fleetId ++ "'."⟩
    else .ok ()

def enforceDelete (agents : Agents.Table) (tenantId agentId : String) :
    Except HTTPException Unit :=
  match agents tenantId agentId with
  | none =>
    .error ⟨403, "Agent '" ++ agentId ++ "' is not registered and cannot delete memories."⟩
  | some agent =>
    if agent.trustLevel < 3 then
      .error ⟨403, "access policy: principals of fleet '" ++ fleetName agent.fleetId ++
        "' are not permitted to delete memories."⟩
    else .ok ()

def enforceUpdate (agents : Agents.Table) (tenantId agentId memoryOwnerAgentId : String) :
    Except HTTPException Unit :=
  match agents tenantId agentId with
  | none =>
    .error ⟨403, "Agent '" ++ agentId ++ "' is not registered and cannot update memories."⟩
  | some agent =>
    if agent.trustLevel = 0 then
      .error ⟨403, "access policy: agent '" ++ agentId ++ "' is restricted from updates."⟩
    else if agent.trustLevel < 3 ∧ agentId ≠ memoryOwnerAgentId then
      .error ⟨403, "access policy: agent '" ++ agentId ++
        "' may only update its own memories."⟩
    else .ok ()

structure AgentCredential (auth : AuthContext) (tenantId agentId : String) : Prop where
  tenant : auth.tenantId = some tenantId
  tenant_ne : tenantId ≠ ""
  agent : auth.agentId = some agentId
  agent_ne : agentId ≠ ""
  notAdmin : auth.isAdmin = false

/-- A trust below the last step of the ladder, or no registration at all. -/
def BelowAdmin (agents : Agents.Table) (tenantId agentId : String) : Prop :=
  ∀ agent ∈ agents tenantId agentId, agent.trustLevel < 3

theorem not_enforceDelete {agents : Agents.Table} {tenantId agentId : String}
    (h : BelowAdmin agents tenantId agentId) : enforceDelete agents tenantId agentId ≠ .ok () := by
  unfold enforceDelete
  cases hagent : agents tenantId agentId with
  | none => exact nofun
  | some agent =>
    simp only [if_pos (h agent hagent)]
    exact nofun

theorem owner_of_enforceUpdate {agents : Agents.Table} {tenantId agentId owner : String}
    (h : BelowAdmin agents tenantId agentId)
    (hok : enforceUpdate agents tenantId agentId owner = .ok ()) : agentId = owner := by
  unfold enforceUpdate at hok
  cases hagent : agents tenantId agentId with
  | none =>
    rw [hagent] at hok
    exact nomatch hok
  | some agent =>
    rw [hagent] at hok
    simp only at hok
    split at hok
    · exact nomatch hok
    · split at hok
      · exact nomatch hok
      · next hown =>
        by_contra hne
        exact hown ⟨h agent hagent, hne⟩

end Memclaw.Memories
