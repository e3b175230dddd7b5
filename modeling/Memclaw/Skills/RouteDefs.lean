import Memclaw.Skills.LifecycleDefs

/-! The routes that write skills: `POST /documents` on the skills collection and the five
actions of the Inbox, and the route that serves skills to a node. -/

namespace Memclaw.Skills

open Memclaw.Lib Memclaw.Lib.Interleave Memclaw.Api

structure Caller extends AuthContext where
  orgRole : Option String

def Caller.isSkillAdmin (caller : Caller) : Bool := caller.isAdmin || caller.orgRole = some "admin"

structure SkillsSettings where
  enabled : Bool
  caps : Caps
  rejectionCooloffDays : Int

def skillSlugRe : Pattern := ⟨r"^(?:forge/|agent/)?[a-z0-9][a-z0-9._-]{0,99}$", .none⟩

def hasText (env : SkillEnv) (text : String) : Bool := text.toList.any fun c => !env.chars.space c

def resolveEmbedSource (env : SkillEnv) (data : Dict) : Checked String :=
  match (Dict.get data "summary").asStr.filter (hasText env) with
  | some summary => .ok summary
  | none =>
    match (Dict.get data "description").asStr.filter (hasText env) with
    | some description => .ok description
    | none =>
      .error ⟨422, "collection='skills' requires data['summary'] (preferred) or " ++
        "data['description'] (back-compat) as a non-empty string."⟩

/-- A write to the skills collection with what its helpers answer: whether the response of
an earlier request is replayed, the quota, and whether a text has an embedding. -/
structure DocWriteRequest where
  caller : Caller
  settings : SkillsSettings
  tenantId : String
  fleetId : Option String
  docId : String
  data : Dict
  replay : Checked Bool
  quota : Checked Unit
  getEmbedding : String → Checked Bool
  now : String
  scannedAt : String

inductive DocOut
  | replayed
  | stored (row : Row)

def DocWriteRequest.gates (env : SkillEnv) (req : DocWriteRequest) : Checked Bool := do
  req.caller.enforceTenant req.tenantId
  req.caller.enforceReadOnly
  req.caller.enforceUsageLimits
  if ← req.replay then .ok true
  else if !skillSlugRe.fullmatches env.chars req.docId.toList then
    .error ⟨422, "collection='skills' requires doc_id matching " ++ skillSlugRe.source ++ " — got " ++
      env.repr req.docId ++ ". Slugs become directory names on each plugin node."⟩
  else .ok false

def DocWriteRequest.context (req : DocWriteRequest) : SkillWriteContext where
  callerAgentId := req.caller.agentId
  isAdmin := req.caller.isSkillAdmin
  isInternalForge := false
  caps := req.settings.caps
  isInboxEdit := false

def DocWriteRequest.normalize (env : SkillEnv) (req : DocWriteRequest) (live : Option Row) :
    Checked Dict :=
  if req.settings.enabled then do
    let (out, _) ← validateAndNormalizeSkillWrite env req.context req.now req.scannedAt req.data live
    .ok out
  else .ok req.data

def DocWriteRequest.index (env : SkillEnv) (req : DocWriteRequest) (data : Dict) : Checked Unit := do
  (if req.caller.tenantId.any (· ≠ "") then req.quota else .ok ())
  let source ← resolveEmbedSource env data
  if !(← req.getEmbedding source) then
    .error ⟨502,
      "Embedding provider returned no vector (check provider config / quota). Write aborted."⟩

def DocWriteRequest.readsLive (req : DocWriteRequest) : Bool :=
  req.settings.enabled && (Dict.get req.data "kind").isStr "update"

def DocWriteRequest.readLive (env : SkillEnv) (req : DocWriteRequest) : Handler (Option Row) :=
  if req.readsLive then Handler.get (env.pathId (.str req.docId)) else .done none

def DocWriteRequest.write (req : DocWriteRequest) (data : Dict) : Upsert :=
  ⟨req.docId, req.fleetId, data, req.settings.caps, anyStatus⟩

def DocOut.of : Option Row → Handler DocOut
  | some row => .done (.stored row)
  | none => .raise ⟨500, "Document upsert returned no rows"⟩

def DocWriteRequest.store (env : SkillEnv) (req : DocWriteRequest) (live : Option Row) :
    Handler DocOut := do
  let data ← Handler.ofExcept (req.normalize env live)
  Handler.ofExcept (req.index env data)
  Handler.upsert (req.write data)
  let found ← Handler.get (env.pathId (.str req.docId))
  DocOut.of found

def upsertDocument (env : SkillEnv) (req : DocWriteRequest) : Handler DocOut := do
  let replayed ← Handler.ofExcept (req.gates env)
  if replayed then .done .replayed
  else do
    let live ← req.readLive env
    req.store env live

def installableSkills (db : DbEnv) (enabled : Bool) (fleetId : Option String) (limit : ℕ)
    (s : Store) : List Row :=
  s.query db ⟨fleetId, if enabled then [("status", "active")] else [], .updatedAt, limit⟩

structure InboxRequest where
  caller : Caller
  settings : SkillsSettings
  slug : String
  now : String
  scannedAt : String

structure ActionResponse where
  slug : String
  previousStatus : String
  newStatus : String
  detail : Option String := none
deriving DecidableEq

def InboxRequest.require (req : InboxRequest) : Checked Unit :=
  if !req.caller.tenantId.any (· ≠ "") then
    .error ⟨401, "UNAUTHENTICATED — auth context has no tenant_id"⟩
  else if !req.settings.enabled then
    .error ⟨403,
      "SKILLS_FACTORY_DISABLED — set org_settings.skills_factory.enabled=true to use the inbox"⟩
  else if !req.caller.isSkillAdmin then
    .error ⟨403, "SKILLS_INBOX_FORBIDDEN — inbox actions require admin privileges"⟩
  else .ok ()

def InboxRequest.named (env : SkillEnv) (req : InboxRequest) : String := "skill " ++ env.repr req.slug

def loadDocOr404 (env : SkillEnv) (req : InboxRequest) : Handler Row := do
  match ← Handler.get (env.pathId (.str req.slug)) with
  | some row => .done row
  | none => .raise ⟨404, req.named env ++ " not found"⟩

def names (statuses : List Status) : List String := statuses.map Status.name

def assertStatus (env : SkillEnv) (req : InboxRequest) (row : Row) (expected : List Status)
    (rule : String) : Checked Unit :=
  match row.status.inSet (names expected) with
  | none => .error serverError
  | some true => .ok ()
  | some false =>
    .error ⟨409, req.named env ++ " status=" ++ env.reprJson row.status ++ "; can only " ++ rule⟩

def assertStaged (env : SkillEnv) (req : InboxRequest) (row : Row) (rule : String) : Checked Unit :=
  if row.has .staged then .ok ()
  else .error ⟨409, req.named env ++ " status=" ++ env.reprJson row.status ++ "; can only " ++ rule⟩

def reloadAndAssertStatus (env : SkillEnv) (req : InboxRequest) (expected : List Status) :
    Handler Row := do
  let row ← loadDocOr404 env req
  match row.status.inSet (names expected) with
  | none => .raise serverError
  | some true => .done row
  | some false =>
    .raise ⟨409, req.named env ++ " was concurrently transitioned to status=" ++
      env.reprJson row.status ++ " (expected one of " ++ env.reprList (names expected) ++
      "); reload and retry"⟩

def transitioned (row : Row) (new : Status) (now : String) (patches : Dict) (removeKeys : List String) :
    Dict :=
  let data := Dict.set row.data "status" new.json
  let data := Dict.set data (new.name ++ "_at") (.str now)
  let data := Dict.set data "updated_at" (.str now)
  removeKeys.foldl Dict.pop (Dict.update data patches)

/-- The statuses that a reload accepts, as a writer leaves them with its upsert. -/
def accepting (statuses : List Status) : List (Option Status) := statuses.map some

def ActionResponse.of (req : InboxRequest) (row : Row) (new : Status) (detail : Option String) :
    ActionResponse :=
  ⟨req.slug, row.status.asStr.getD "", new.name, detail⟩

def refusedScan (env : SkillEnv) (scan : ScanResult) : HTTPException :=
  let finding (f : ScanFinding) : String := "(" ++ env.repr f.code ++ ", " ++ env.repr f.message ++ ")"
  ⟨422, "pre-apply rescan refused (state=" ++ scan.state.name ++ "): [" ++
    ", ".intercalate (scan.findings.map finding) ++ "]"⟩

def approve (env : SkillEnv) (req : InboxRequest) : Handler ActionResponse := do
  Handler.ofExcept req.require
  let first ← loadDocOr404 env req
  Handler.ofExcept (assertStaged env req first "approve from 'staged'")
  let second ← reloadAndAssertStatus env req [.staged]
  match (Dict.get second.data "content_hash").asStr.filter (· ≠ "") with
  | none =>
    .raise ⟨422, req.named env ++ " has no content_hash; cannot safely approve " ++
      "(rerun Forge to re-derive, or reject the candidate)"⟩
  | some preScanContentHash =>
    let third ← reloadAndAssertStatus env req [.staged]
    if !(Dict.get third.data "content_hash").isStr preScanContentHash then
      .raise ⟨409, req.named env ++
        " content was modified during the rescan; reload and retry approve"⟩
    else match scanSkillDoc env.toTextEnv req.settings.caps req.scannedAt third.data with
      | none => .raise serverError
      | some scan =>
        if !(scan.state = .clean && !scan.anyFatal) then .raise (refusedScan env scan)
        else
          Handler.upsert ⟨req.slug, third.fleetId,
            transitioned third .active req.now [("scan", scan.asDocField)] ["deferred_at", "defer_reason"],
            req.settings.caps, accepting [.staged]⟩
          .done (.of req third .active none)

structure RejectRequest extends InboxRequest where
  reason : String
  cooloffDays : Option Int

def rejectable : List Status := [.candidate, .quarantined, .staged]

def checkRejection (r : Rejection) : Checked Unit :=
  if r.clusterFingerprint = "" then .error ⟨422, "cluster_fingerprint must be non-empty"⟩
  else if r.cooloffDays < 1 then
    .error ⟨422, "cooloff_days must be >= 1 (got " ++ toString r.cooloffDays ++ ")"⟩
  else .ok ()

def writeRejectedFingerprint (r : Rejection) : Handler Unit := do
  Handler.ofExcept (checkRejection r)
  .call (.writeRejectedFingerprint r) fun a => match a with
    | .ok _ => .done ()
    | .error _ => .raise serverError

def Caller.agentName (caller : Caller) : String :=
  match caller.agentId with
  | some id => if id = "" then "unknown" else id
  | none => "unknown"

def fingerprintOf (env : SkillEnv) (req : InboxRequest) (row : Row) (whence : String) : Checked String :=
  match (Dict.get row.data "cluster_fingerprint").asStr.filter (· ≠ "") with
  | some fingerprint => .ok fingerprint
  | none =>
    .error ⟨422, req.named env ++ " has no fingerprint" ++ whence ++ "; cannot poison cluster"⟩

def reject (env : SkillEnv) (req : RejectRequest) : Handler ActionResponse := do
  Handler.ofExcept req.require
  let cooloff := req.cooloffDays.getD req.settings.rejectionCooloffDays
  let first ← loadDocOr404 env req.toInboxRequest
  Handler.ofExcept (assertStatus env req.toInboxRequest first rejectable
    "reject from staged/candidate/quarantined")
  let _ ← Handler.ofExcept (fingerprintOf env req.toInboxRequest first "")
  let second ← reloadAndAssertStatus env req.toInboxRequest rejectable
  let fingerprint ← Handler.ofExcept (fingerprintOf env req.toInboxRequest second " after reload")
  let third ← reloadAndAssertStatus env req.toInboxRequest rejectable
  writeRejectedFingerprint ⟨third.fleetId, fingerprint, req.caller.agentName, req.reason, cooloff⟩
  Handler.upsert ⟨req.slug, third.fleetId,
    transitioned third .rejected req.now [("rejection_reason", .str req.reason)] [],
    third.caps, accepting rejectable⟩
  .done (.of req.toInboxRequest third .rejected
    (some ("cluster fingerprint poisoned for " ++ toString cooloff ++ " days")))

structure QuarantineRequest extends InboxRequest where
  reason : String

def quarantine (env : SkillEnv) (req : QuarantineRequest) : Handler ActionResponse := do
  Handler.ofExcept req.require
  let first ← loadDocOr404 env req.toInboxRequest
  Handler.ofExcept (assertStatus env req.toInboxRequest first [.candidate, .staged]
    "quarantine from staged/candidate")
  let second ← reloadAndAssertStatus env req.toInboxRequest [.candidate, .staged]
  Handler.upsert ⟨req.slug, second.fleetId,
    transitioned second .quarantined req.now [("quarantine_reason", .str req.reason)] [],
    second.caps, accepting [.candidate, .staged]⟩
  .done (.of req.toInboxRequest second .quarantined none)

structure DeferRequest extends InboxRequest where
  reason : Option String

def deferred (req : DeferRequest) (row : Row) : Dict :=
  let data := Dict.set row.data "deferred_at" (.str req.now)
  let data := match req.reason.filter (· ≠ "") with
    | some reason => Dict.set data "defer_reason" (.str reason)
    | none => data
  Dict.set data "updated_at" (.str req.now)

def defer (env : SkillEnv) (req : DeferRequest) : Handler ActionResponse := do
  Handler.ofExcept req.require
  let first ← loadDocOr404 env req.toInboxRequest
  Handler.ofExcept (assertStaged env req.toInboxRequest first "defer from 'staged'")
  let second ← reloadAndAssertStatus env req.toInboxRequest [.staged]
  Handler.upsert ⟨req.slug, second.fleetId, deferred req second, second.caps, accepting [.staged]⟩
  .done ⟨req.slug, Status.staged.name, Status.staged.name, some "deferred"⟩

structure EditRequest extends InboxRequest where
  content : Option String
  description : Option String
  summary : Option String
  editedAt : String

def reservedFields : List String :=
  ["status", "cluster_fingerprint", "cites", "origin", "created_at", "telemetry"]

def EditRequest.revised (req : EditRequest) (data : Dict) : Dict :=
  let change (data : Dict) (key : String) (value : Option String) : Dict :=
    match value with
    | some text => Dict.set data key (.str text)
    | none => data
  change (change (change data "content" req.content) "description" req.description) "summary" req.summary

def EditRequest.context (req : EditRequest) : SkillWriteContext where
  callerAgentId := req.caller.agentId
  isAdmin := req.caller.isSkillAdmin
  isInternalForge := false
  caps := req.settings.caps
  isInboxEdit := true

def liveForBinding (env : SkillEnv) (data : Dict) : Handler (Option Row) :=
  if !(Dict.get data "kind").isStr "update" then .done none
  else match (Dict.get data "target").orEmpty with
    | none => .raise serverError
    | some target =>
      let slug := Dict.get target "slug"
      if slug.truthy then Handler.get (env.pathId slug) else .done none

def reservedSnapshot (data : Dict) : Dict :=
  reservedFields.filterMap fun key => (Dict.find data key).map (key, ·)

/-- What an edit stores: the validated document with its reserved fields, staged unless the
validator quarantined it. -/
def EditRequest.restored (req : EditRequest) (snapshot normalized : Dict) : Dict :=
  let quarantinedAt := Dict.get normalized "quarantined_at"
  let quarantined := (Dict.get normalized "status").isStr Status.quarantined.name
  let data := Dict.update normalized snapshot
  let data :=
    if quarantined then
      let data := Dict.set data "status" Status.quarantined.json
      if quarantinedAt.truthy then Dict.set data "quarantined_at" quarantinedAt else data
    else Dict.set data "status" Status.staged.json
  let data := Dict.set data "edited_at" (.str req.editedAt)
  Dict.pop (Dict.pop data "deferred_at") "defer_reason"

def edit (env : SkillEnv) (req : EditRequest) : Handler ActionResponse := do
  Handler.ofExcept req.require
  if req.content.isNone && req.description.isNone && req.summary.isNone then
    .raise ⟨422, "edit requires at least one of content/description/summary"⟩
  else
    let first ← reloadAndAssertStatus env req.toInboxRequest [.staged]
    let data := req.revised first.data
    let bare := reservedFields.foldl Dict.pop data
    let live ← liveForBinding env bare
    let (normalized, scan) ← Handler.ofExcept
      (validateAndNormalizeSkillWrite env req.context req.now req.scannedAt bare live)
    let data := req.restored (reservedSnapshot data) normalized
    let second ← reloadAndAssertStatus env req.toInboxRequest [.staged]
    Handler.upsert ⟨req.slug, second.fleetId, data, req.settings.caps, accepting [.staged]⟩
    let hash := Dict.get data "content_hash"
    .done ⟨req.slug, Status.staged.name, (Dict.get data "status").asStr.getD "",
      some ("rehashed → " ++ hash.asStr.getD (env.reprJson hash) ++ "; scan=" ++ scan.state.name)⟩

end Memclaw.Skills
