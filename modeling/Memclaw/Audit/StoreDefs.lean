import Mathlib.Algebra.Ring.Int.Defs
import Memclaw.Audit.ChainDefs

/-! The audit tables and the storage functions over them: the chained batch
insert, the chain verification and the tenant purge. A transaction is a function
that returns the new tables or raises; a raise leaves the tables as they were. -/

namespace Memclaw.Audit

open Memclaw.Lib Memclaw.Lib.Sha256

/-- A row of `audit_log`; the chain columns are null on rows older than the chain. -/
structure AuditLog where
  id : Uuid
  tenantId : String
  agentId : Option String
  action : String
  resourceType : String
  resourceId : Option ResourceId
  detail : Json
  createdAt : DateTime
  seq : Option Int
  prevHash : Option Bytes
  eventHash : Option Bytes
  clientEventId : Option String

structure AuditChainHead where
  lastSeq : Int
  lastHash : Bytes
deriving DecidableEq

def AuditChainHead.genesis : AuditChainHead := ⟨0, genesisPrevHash⟩

structure Tables where
  auditLog : List AuditLog
  chainHead : String → Option AuditChainHead

def Tables.empty : Tables := ⟨[], fun _ => none⟩

def Tables.rowsOf (tables : Tables) (tenant : String) : List AuditLog :=
  tables.auditLog.filter (·.tenantId = tenant)

def Tables.headOf (tables : Tables) (tenant : String) : AuditChainHead :=
  (tables.chainHead tenant).getD .genesis

def Tables.setHead (tables : Tables) (tenant : String) (head : AuditChainHead) : Tables :=
  { tables with chainHead := fun t => if t = tenant then some head else tables.chainHead t }

/-- What the database does with a value bound to a column: nothing when it refuses the
value, else the value that a later read returns. -/
structure Columns where
  text : String → Bool
  uuid : String → Option Uuid
  jsonb : Json → Option Json

inductive AuditError
  | piiInAudit
  | refusedByDatabase
deriving DecidableEq

def bigintRange (i : Int) : Bool := -(2 ^ 63) ≤ i && i < 2 ^ 63

def Columns.storeResourceId (columns : Columns) : Option ResourceId → Option (Option ResourceId)
  | none => some none
  | some (.uuid u) => some (some (.uuid u))
  | some (.text s) => (columns.uuid s).map fun u => some (.uuid u)

def Columns.storesTexts (columns : Columns) (row : AuditLog) : Bool :=
  columns.text row.tenantId && row.agentId.all columns.text && columns.text row.action &&
    columns.text row.resourceType && row.clientEventId.all columns.text &&
    row.seq.all bigintRange

def Columns.store (columns : Columns) (row : AuditLog) : Option AuditLog :=
  if columns.storesTexts row then
    match columns.storeResourceId row.resourceId, columns.jsonb row.detail with
    | some resourceId, some detail => some { row with resourceId, detail }
    | _, _ => none
  else none

/-- The two partial unique indexes, on `(tenant_id, seq)` and `(tenant_id, client_event_id)`. -/
def collides (row other : AuditLog) : Bool :=
  row.tenantId = other.tenantId &&
    ((row.seq.isSome && row.seq = other.seq) ||
      (row.clientEventId.isSome && row.clientEventId = other.clientEventId))

def insertAll (columns : Columns) : List AuditLog → List AuditLog → Option (List AuditLog)
  | log, [] => some log
  | log, row :: rows =>
    match columns.store row with
    | some stored =>
      if log.any (collides stored) then none else insertAll columns (log ++ [stored]) rows
    | none => none

structure Event where
  tenantId : String
  agentId : Option String
  action : String
  resourceType : String
  resourceId : Option ResourceId
  detail : Json
  createdAt : Option DateTime
  clientEventId : Option String

/-- The clock and the id generator, as each tenant's transaction of one call finds them. -/
structure Env where
  now : String → DateTime
  newId : String → Int → Uuid

def Event.fields (ev : Event) (tenant : String) (seq : Int) (created : DateTime) : EventFields where
  tenantId := tenant
  seq := seq
  agentId := ev.agentId
  action := ev.action
  resourceType := ev.resourceType
  resourceId := ev.resourceId
  detail := ev.detail
  createdAtIso := canonicalCreatedAt created

section

variable (chars : CharData) (columns : Columns) (env : Env)

/-- `ev.get("created_at") or now`. -/
def Event.created (ev : Event) (tenant : String) : DateTime := ev.createdAt.getD (env.now tenant)

def Event.hash (ev : Event) (tenant : String) (seq : Int) (prevHash : Bytes) : Bytes :=
  computeEventHash (canonicalEvent chars (ev.fields tenant seq (ev.created env tenant))) prevHash

def Event.toRow (ev : Event) (tenant : String) (seq : Int) (prevHash : Bytes) : AuditLog :=
  { id := env.newId tenant seq
    tenantId := tenant
    agentId := ev.agentId
    action := ev.action
    resourceType := ev.resourceType
    resourceId := ev.resourceId
    detail := ev.detail
    createdAt := ev.created env tenant
    seq := some seq
    prevHash := some prevHash
    eventHash := some (ev.hash chars env tenant seq prevHash)
    clientEventId := ev.clientEventId }

def Event.duplicate (ev : Event) (known : List String) : Bool :=
  ev.clientEventId.any fun id => known.contains id

/-- The loop of `_audit_chain_one_tenant`. `known` holds the client event ids that are
already chained or were seen in this batch. -/
def chainEvents (tenant : String) : List Event → Int → Bytes → List String →
    Except AuditError (List AuditLog × AuditChainHead)
  | [], seq, prevHash, _ => .ok ([], ⟨seq, prevHash⟩)
  | ev :: events, seq, prevHash, known =>
    if ev.duplicate known then chainEvents tenant events seq prevHash known
    else if !assertPiiSafe chars ev.detail then .error .piiInAudit
    else
      match chainEvents tenant events (seq + 1) (ev.hash chars env tenant (seq + 1) prevHash)
          (ev.clientEventId.toList ++ known) with
      | .ok (rows, head) => .ok (ev.toRow chars env tenant (seq + 1) prevHash :: rows, head)
      | .error e => .error e

def alreadyChained (tables : Tables) (tenant : String) (events : List Event) : List String :=
  let incoming := events.filterMap (·.clientEventId)
  ((tables.rowsOf tenant).filterMap (·.clientEventId)).filter (incoming.contains ·)

def auditChainOneTenant (tenant : String) (events : List Event) (tables : Tables) :
    Except AuditError Tables :=
  if !(columns.text tenant && (events.filterMap (·.clientEventId)).all columns.text) then
    .error .refusedByDatabase
  else
    let head := tables.headOf tenant
    match chainEvents chars env tenant events head.lastSeq head.lastHash
        (alreadyChained tables tenant events) with
    | .error e => .error e
    | .ok (rows, head') =>
      match insertAll columns tables.auditLog rows with
      | none => .error .refusedByDatabase
      | some auditLog => .ok ({ tables with auditLog }.setHead tenant head')

/-- `by_tenant.setdefault(ev["tenant_id"], []).append(ev)`. -/
def appendToGroup (ev : Event) : List (String × List Event) → List (String × List Event)
  | [] => [(ev.tenantId, [ev])]
  | (tenant, events) :: groups =>
    if tenant = ev.tenantId then (tenant, events ++ [ev]) :: groups
    else (tenant, events) :: appendToGroup ev groups

def groupByTenant (events : List Event) : List (String × List Event) :=
  events.foldl (fun groups ev => appendToGroup ev groups) []

/-- One transaction a group. The first group that raises ends the loop, and its exception
leaves the call; the groups before it stay committed. -/
def runGroups : List (String × List Event) → Tables → Tables × Option (String × AuditError)
  | [], tables => (tables, none)
  | (tenant, events) :: groups, tables =>
    match auditChainOneTenant chars columns env tenant events tables with
    | .ok tables' => runGroups groups tables'
    | .error e => (tables, some (tenant, e))

def auditAddBatchChained (events : List Event) (tables : Tables) :
    Tables × Option (String × AuditError) :=
  runGroups chars columns env (groupByTenant events) tables

end

inductive BreakReason
  | seqGap
  | prevHashMismatch
  | eventHashMismatch
deriving DecidableEq

inductive FirstBroken
  | row (seq : Option Int) (id : String) (reason : BreakReason) (createdAt : String)
  | tailTruncated (headSeq chainSeq : Int)
deriving DecidableEq

inductive VerifyReport
  | invalid (tenantId : String) (verifiedCount : Int) (firstBroken : FirstBroken)
  | valid (tenantId : String) (verifiedCount : ℕ) (headSeq : Int) (truncated : Bool)
deriving DecidableEq

def VerifyReport.isValid : VerifyReport → Bool
  | invalid .. => false
  | valid .. => true

def VerifyReport.isTruncated : VerifyReport → Bool
  | invalid .. => false
  | valid _ _ _ truncated => truncated

def AuditLog.fields (row : AuditLog) (seq : Int) : EventFields where
  tenantId := row.tenantId
  seq := seq
  agentId := row.agentId
  action := row.action
  resourceType := row.resourceType
  resourceId := row.resourceId
  detail := row.detail
  createdAtIso := canonicalCreatedAt row.createdAt

section

variable (chars : CharData)

def rowReason (row : AuditLog) (expectedSeq : Int) (expectedPrev : Bytes) :
    Except BreakReason Bytes :=
  if row.seq ≠ some expectedSeq then .error .seqGap
  else if row.prevHash ≠ some expectedPrev then .error .prevHashMismatch
  else
    let hash := computeEventHash (canonicalEvent chars (row.fields expectedSeq)) expectedPrev
    if row.eventHash ≠ some hash then .error .eventHashMismatch else .ok hash

def verifyRows : List AuditLog → Int → Bytes → Except (Int × FirstBroken) Bytes
  | [], _, expectedPrev => .ok expectedPrev
  | row :: rows, expectedSeq, expectedPrev =>
    match rowReason chars row expectedSeq expectedPrev with
    | .error reason =>
      .error (expectedSeq - 1, .row row.seq (String.ofList row.id.text) reason
        (String.ofList row.createdAt.isoformat))
    | .ok hash => verifyRows rows (expectedSeq + 1) hash

def verifyAuditChainRows (tenant : String) (rows : List AuditLog) (head : Option AuditChainHead)
    (limit : ℕ) : VerifyReport :=
  match verifyRows chars rows 1 genesisPrevHash with
  | .error (count, broken) => .invalid tenant count broken
  | .ok _ =>
    let truncated : Bool := limit ≤ rows.length
    let head := head.getD .genesis
    let lastSeq := (rows.getLast?.bind (·.seq)).getD 0
    let lastHash := (rows.getLast?.bind (·.eventHash)).getD genesisPrevHash
    if !truncated && (head.lastSeq ≠ lastSeq || head.lastHash ≠ lastHash) then
      .invalid tenant rows.length (.tailTruncated head.lastSeq lastSeq)
    else .valid tenant rows.length lastSeq truncated

def insertBySeq (row : AuditLog) : List AuditLog → List AuditLog
  | [] => [row]
  | other :: rows =>
    if other.seq.getD 0 < row.seq.getD 0 then other :: insertBySeq row rows
    else row :: other :: rows

/-- `WHERE seq IS NOT NULL ORDER BY seq LIMIT limit`. -/
def chainedRows (tables : Tables) (tenant : String) (limit : ℕ) : List AuditLog :=
  (((tables.rowsOf tenant).filter (·.seq.isSome)).foldr insertBySeq []).take limit

def auditVerifyChain (tables : Tables) (tenant : String) (limit : ℕ) : VerifyReport :=
  verifyAuditChainRows chars tenant (chainedRows tables tenant limit) (tables.chainHead tenant)
    limit

end

def purgeTenantTables : List String := ["relations", "fleet_commands", "memories", "entities",
  "agents", "fleet_nodes", "audit_log", "documents", "analysis_reports", "dedup_reviews",
  "background_task_log", "idempotency_responses"]

def purgeOrgKeyedTables : List String := ["organization_settings", "organization_settings_audit"]

/-- The database as the purge sees it: the two audit tables, and of every other table
the scoping column (`tenant_id` or `org_id`) of each of its rows. -/
structure Database where
  tables : Tables
  others : String → List String

def deleteScoped (table tenant : String) (db : Database) : Database × ℕ :=
  if table = "audit_log" then
    ({ db with tables := { db.tables with
        auditLog := db.tables.auditLog.filter (·.tenantId ≠ tenant) } },
      (db.tables.rowsOf tenant).length)
  else if table = "audit_chain_head" then
    ({ db with tables := { db.tables with
        chainHead := fun t => if t = tenant then none else db.tables.chainHead t } },
      if (db.tables.chainHead tenant).isSome then 1 else 0)
  else
    ({ db with others := fun t =>
        if t = table then (db.others t).filter (· ≠ tenant) else db.others t },
      (db.others table).count tenant)

def deleteFromAll (tenant : String) : List String → Database → Database × List (String × ℕ)
  | [], db => (db, [])
  | table :: tables, db =>
    let (db', count) := deleteScoped table tenant db
    let (db'', counts) := deleteFromAll tenant tables db'
    (db'', (table, count) :: counts)

def purgeTenantData (tenant : String) (db : Database) : Database × List (String × ℕ) :=
  deleteFromAll tenant (purgeTenantTables ++ purgeOrgKeyedTables) db

end Memclaw.Audit
