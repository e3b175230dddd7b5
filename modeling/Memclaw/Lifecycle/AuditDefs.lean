import Memclaw.Lib.DictDefs
import Memclaw.Lib.Interleave
import Memclaw.Lib.Rows

/-! Scheduled lifecycle operations: the `lifecycle_audit` table, the triggers that publish a
request with the id of its row, and `_run_action`, which a message may enter any number of
times. A party moves at its storage calls; a message stays deliverable for ever. -/

namespace Memclaw.Lifecycle

open Memclaw.Lib Memclaw.Lib.Interleave

inductive Action
  | archiveExpired
  | archiveStale
  | purgeSoftDeleted
  | crystallize
  | entityLink
  | insights
  | forgeDistill
deriving DecidableEq

def Action.value : Action → String
  | archiveExpired => "archive-expired"
  | archiveStale => "archive-stale"
  | purgeSoftDeleted => "purge-soft-deleted"
  | crystallize => "crystallize"
  | entityLink => "entity-link"
  | insights => "insights"
  | forgeDistill => "forge-distill"

def Action.statsKey : Action → String
  | archiveExpired => "archived"
  | archiveStale => "archived"
  | purgeSoftDeleted => "deleted"
  | crystallize => "links_or_clusters"
  | entityLink => "links_created"
  | insights => "insights_created"
  | forgeDistill => "candidates_produced"

def pipelineDedupWindowHours : ℕ := 23

def Action.dedupWindowHours : Action → Option ℕ
  | archiveExpired => none
  | archiveStale => none
  | purgeSoftDeleted => none
  | _ => some pipelineDedupWindowHours

inductive AuditStatus
  | pending
  | inProgress
  | success
  | failure
deriving DecidableEq

def hour : ℕ := 3600000000

structure LifecycleAudit where
  id : ℕ
  orgId : String
  action : Action
  triggeredBy : String
  startedAt : ℕ
  finishedAt : Option ℕ := none
  status : AuditStatus := .pending
  stats : Option Dict := none
  errorMessage : Option String := none

structure Finalize where
  status : AuditStatus
  stats : Option Dict := none
  errorMessage : Option String := none

def Finalize.write (f : Finalize) (now : ℕ) (row : LifecycleAudit) : LifecycleAudit :=
  { row with
    status := f.status
    finishedAt := match f.status with
      | .success => some now
      | .failure => some now
      | .inProgress => none
      | .pending => row.finishedAt
    stats := f.stats.or row.stats
    errorMessage := if f.status = .success then none else f.errorMessage.or row.errorMessage }

structure Message where
  auditId : ℕ
  orgId : String
  action : Action

/-- A success update that storage has carried out, as a record: by whom, when and with which
stats, and whether the op ran. -/
structure Finish where
  message : Message
  stats : Dict
  at_ : ℕ
  ran : Bool

/-- The table with its sequence, the clock of the database, the messages that were published,
and the record of the success updates. -/
structure World where
  rows : List LifecycleAudit := []
  nextId : ℕ := 0
  now : ℕ := 0
  messages : List Message := []
  finishes : List Finish := []

namespace World

def lifecycleAuditCreate (w : World) (orgId : String) (action : Action) (triggeredBy : String) :
    World :=
  { w with
    rows := w.rows ++
      [{ id := w.nextId, orgId := orgId, action := action, triggeredBy := triggeredBy,
         startedAt := w.now }]
    nextId := w.nextId + 1 }

/-- `lifecycle_audit_finalize`; a row at `success` is left as it is. -/
def lifecycleAuditFinalize (w : World) (auditId : ℕ) (f : Finalize) : World :=
  { w with rows :=
      Rows.update (fun row => row.id = auditId && row.status ≠ .success) (f.write w.now) w.rows }

def recentSuccess (w : World) (orgId : String) (action : Action) (sinceHours : ℕ)
    (row : LifecycleAudit) : Bool :=
  row.orgId = orgId && row.action = action && row.status = .success &&
    row.finishedAt.any fun finishedAt => w.now < finishedAt + sinceHours * hour

def hasRecentSuccess (w : World) (orgId : String) (action : Action) (sinceHours : ℕ) : Bool :=
  w.rows.any (w.recentSuccess orgId action sinceHours)

def finish (w : World) (m : Message) (stats : Dict) (ran : Bool) : World :=
  { w.lifecycleAuditFinalize m.auditId { status := .success, stats := some stats } with
    finishes := w.finishes ++ [⟨m, stats, w.now, ran⟩] }

end World

def skipStats : Dict := [("skipped", .bool true), ("reason", .str "recent_success")]

def failureMessage (text : String) : String := String.ofList (text.toList.take 500)

/-- A trigger on its way to publish, or a delivery between two storage calls; `checkedAt` is
the time at which the gate found a recent success. -/
inductive Party
  | trigger (orgId : String) (action : Action) (triggeredBy : String)
  | publishing (m : Message)
  | triggered
  | idle
  | received (m : Message)
  | skipping (m : Message) (checkedAt : ℕ)
  | skipped (m : Message) (checkedAt : ℕ)
  | marking (m : Message)
  | running (m : Message)
  | failing (m : Message) (text : String)
  | succeeded (m : Message) (count : ℕ)
  | acked
  | nacked

/-- What a turn meets: the time since the last turn, what becomes of its call, which message
the bus delivers, and how the op ends. -/
structure Answer where
  elapsed : ℕ := 0
  reply : Reply := .ok
  pick : ℕ := 0
  op : Except String ℕ := .ok 0

def Answer.carry (a : Answer) (w next : World) : World := if a.reply = .refused then w else next

/-- The dedup gate; a failed check does not block the op. -/
def gate (a : Answer) (m : Message) (w : World) : Party :=
  match m.action.dedupWindowHours with
  | none => .marking m
  | some sinceHours =>
    if a.reply = .ok ∧ w.hasRecentSuccess m.orgId m.action sinceHours then .skipping m w.now
    else .marking m

/-- A turn of a party. The best-effort updates go on whatever becomes of them; the last one
raises, and the message is delivered again. -/
def act (a : Answer) (p : Party) (w : World) : Party × World :=
  match p with
  | .trigger orgId action triggeredBy =>
    (if a.reply = .ok then .publishing ⟨w.nextId, orgId, action⟩ else .triggered,
      a.carry w (w.lifecycleAuditCreate orgId action triggeredBy))
  | .publishing m => (.triggered, a.carry w { w with messages := w.messages ++ [m] })
  | .triggered => (.triggered, w)
  | .idle =>
    (match w.messages[a.pick]? with
      | some m => .received m
      | none => .idle, w)
  | .received m => (gate a m w, w)
  | .skipping m checkedAt => (.skipped m checkedAt, a.carry w (w.finish m skipStats false))
  | .skipped m checkedAt => (.skipped m checkedAt, w)
  | .marking m =>
    (.running m, a.carry w (w.lifecycleAuditFinalize m.auditId { status := .inProgress }))
  | .running m =>
    (match a.op with
      | .ok count => .succeeded m count
      | .error text => .failing m text, w)
  | .failing m text =>
    (.nacked, a.carry w (w.lifecycleAuditFinalize m.auditId
      { status := .failure, errorMessage := some (failureMessage text) }))
  | .succeeded m count =>
    (if a.reply = .ok then .acked else .nacked,
      a.carry w (w.finish m [(m.action.statsKey, .int count)] true))
  | .acked => (.acked, w)
  | .nacked => (.nacked, w)

def runAction (a : Answer) (p : Party) (w : World) : Party × World :=
  act a p { w with now := w.now + a.elapsed }

inductive Role
  | trigger (orgId : String) (action : Action) (triggeredBy : String)
  | consumer

def Role.begin : Role → Party
  | .trigger orgId action triggeredBy => .trigger orgId action triggeredBy
  | .consumer => .idle

def World.start {ι : Type} (roles : ι → Role) : Pool ι World Party := ⟨{}, fun i => (roles i).begin⟩

end Memclaw.Lifecycle
