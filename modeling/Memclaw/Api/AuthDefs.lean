import Memclaw.Lib.Fallible

/-! The authenticated identity of `auth.py` and the gates that the handlers ask of it. -/

namespace Memclaw.Api

structure HTTPException where
  statusCode : Nat
  detail : String
deriving DecidableEq

/-- An exception that no handler turns into an answer of its own. -/
def serverError : HTTPException := ⟨500, "Internal Server Error"⟩

structure AuthContext where
  tenantId : Option String
  isDemo : Bool
  isAdmin : Bool
  isReadOnly : Bool
  agentId : Option String
  isInstallCredential : Bool
  installUuid : Option String
  /-- Nothing for a legacy credential, which may do everything. -/
  capabilities : Option (List String)
deriving DecidableEq

def AuthContext.ofTenant (tenantId : String) : AuthContext where
  tenantId := some tenantId
  isDemo := false
  isAdmin := false
  isReadOnly := false
  agentId := none
  isInstallCredential := false
  installUuid := none
  capabilities := none

def AuthContext.enforceReadOnly (auth : AuthContext) : Except HTTPException Unit :=
  if auth.isDemo then .error ⟨403, "Demo sandbox is read-only."⟩
  else match auth.capabilities with
    | none => .ok ()
    | some capabilities =>
      if capabilities.contains "write" then .ok ()
      else .error ⟨403, "This API key is read-only and cannot perform write operations."⟩

def AuthContext.enforceUsageLimits (auth : AuthContext) : Except HTTPException Unit :=
  if auth.isReadOnly then
    .error ⟨403, "Organization is in read-only mode: usage exceeds plan limits. " ++
      "Upgrade your plan or delete data to restore write access."⟩
  else .ok ()

def AuthContext.enforceTenant (auth : AuthContext) (requestedTenant : String) :
    Except HTTPException Unit :=
  if auth.isAdmin then .ok ()
  else if auth.tenantId = some requestedTenant then .ok ()
  else .error ⟨403, "API key is not authorized for tenant '" ++ requestedTenant ++ "'"⟩

theorem AuthContext.tenant_of_enforceTenant {auth : AuthContext} {requested : String}
    (hadmin : auth.isAdmin = false) (h : auth.enforceTenant requested = .ok ()) :
    auth.tenantId = some requested := by
  unfold enforceTenant at h
  rw [hadmin] at h
  simpa using h

end Memclaw.Api
