import Mathlib.Algebra.GroupWithZero.Nat
import Mathlib.Algebra.Ring.Int.Defs
import Mathlib.Data.List.Dedup
import Memclaw.Lib.Interleave

/-! The audit queue of a worker process: enqueueing, the flusher with its chunks, the flush of a
chunk by tenant, and the counters. A tick of the flusher may come at any time, for the interval
or for the threshold; between the turns of the flusher any caller may move. -/

namespace Memclaw.Audit.Queue

open Memclaw.Lib.Interleave

structure QueuedEvent where
  tenantId : Option String
  clientEventId : String
deriving DecidableEq

/-- `ev.get("tenant_id") or _UNKNOWN_TENANT_SENTINEL`. -/
def QueuedEvent.key (ev : QueuedEvent) : Option String := ev.tenantId.filter (· ≠ "")

/-- `by_tenant.setdefault(tenant_id, []).append(ev)`. -/
def appendTo (tenantId : String) (ev : QueuedEvent) :
    List (String × List QueuedEvent) → List (String × List QueuedEvent)
  | [] => [(tenantId, [ev])]
  | (tid, tevs) :: groups =>
    if tid = tenantId then (tid, tevs ++ [ev]) :: groups
    else (tid, tevs) :: appendTo tenantId ev groups

def byTenant (events : List QueuedEvent) : List (String × List QueuedEvent) :=
  events.foldl (fun groups ev =>
    match ev.key with
    | none => groups
    | some tenantId => appendTo tenantId ev groups) []

def sentinelEvents (events : List QueuedEvent) : List QueuedEvent :=
  events.filter fun ev => ev.key = none

/-- What `gather` has for a tenant: no exception, an `Exception`, a `CancelledError`, or
another `BaseException`. -/
inductive Outcome
  | ok
  | error
  | cancelled
  | exited
deriving DecidableEq

def Outcome.isBase : Outcome → Bool
  | cancelled => true
  | exited => true
  | _ => false

structure Flush where
  tenantId : String
  events : List QueuedEvent
  outcome : Option Outcome := none

structure Batch where
  chunk : List QueuedEvent
  sentinelCount : ℕ
  flushes : List Flush

def Batch.start (chunk : List QueuedEvent) : Batch where
  chunk := chunk
  sentinelCount := (sentinelEvents chunk).length
  flushes := (byTenant chunk).map fun (tid, tevs) => { tenantId := tid, events := tevs }

def Batch.done (b : Batch) : Bool := b.flushes.all (·.outcome.isSome)

def Batch.totalFailedEvents (b : Batch) : ℕ :=
  ((b.flushes.filter (·.outcome ≠ some .ok)).map (·.events.length)).sum

/-- Whether what the batch raises ends the flusher: cancellation and other base exceptions
are raised in place of an `Exception`. -/
def Batch.raisesBase (b : Batch) : Bool := b.flushes.any fun f => f.outcome.any Outcome.isBase

def Flush.pendingFor (tenantId : String) (f : Flush) : Bool :=
  f.tenantId = tenantId && f.outcome.isNone

def Flush.land (tenantId : String) (outcome : Outcome) (f : Flush) : Flush :=
  if f.pendingFor tenantId then { f with outcome := some outcome } else f

def Batch.land (b : Batch) (tenantId : String) (outcome : Outcome) : Batch :=
  { b with flushes := b.flushes.map (Flush.land tenantId outcome) }

def Batch.inFlight (b : Batch) (tenantId : String) : List QueuedEvent :=
  (b.flushes.filter (Flush.pendingFor tenantId)).flatMap (·.events)

inductive Flusher
  | waiting
  | flushing (batch : Batch) (rest : List QueuedEvent) (final : Bool)
  | ended (rest : List QueuedEvent)

structure Stored where
  event : QueuedEvent
  bulk : Bool

structure Config where
  maxQueueSize : ℕ
  chunkSize : ℕ

/-- The queue, with the events that storage has. The last four fields are records: the events
that the queue accepted, those whose bulk write was acknowledged, those dropped for want of a
tenant, and whether the flusher was cancelled. -/
structure AuditEventQueue where
  queue : List QueuedEvent := []
  stopping : Bool := false
  droppedCount : ℕ := 0
  flushedCount : ℤ := 0
  failedCount : ℤ := 0
  flusher : Flusher := .waiting
  storage : List Stored := []
  accepted : List QueuedEvent := []
  acknowledged : List QueuedEvent := []
  tenantless : List QueuedEvent := []
  cancelled : Bool := false

namespace AuditEventQueue

variable (cfg : Config)

/-- `Queue.full`: a size of zero means no bound. -/
def full (q : AuditEventQueue) : Bool := 0 < cfg.maxQueueSize && cfg.maxQueueSize ≤ q.queue.length

def enqueue (q : AuditEventQueue) (ev : QueuedEvent) (silent : Bool) : Bool × AuditEventQueue :=
  if q.full cfg then
    if silent then (false, q) else (false, { q with droppedCount := q.droppedCount + 1 })
  else (true, { q with queue := q.queue ++ [ev], accepted := q.accepted ++ [ev] })

def store (q : AuditEventQueue) (events : List QueuedEvent) (bulk : Bool) : AuditEventQueue :=
  { q with storage := q.storage ++ events.map (⟨·, bulk⟩) }

def logAction (q : AuditEventQueue) (ev : QueuedEvent) (critical : Bool) (reply : Reply) :
    AuditEventQueue :=
  match q.enqueue cfg ev critical with
  | (true, q) => q
  | (false, q) => if critical && reply ≠ .refused then q.store [ev] false else q

def flushChunk (q : AuditEventQueue) (events : List QueuedEvent) (final : Bool) :
    AuditEventQueue :=
  { q with flusher :=
      .flushing (.start (events.take cfg.chunkSize)) (events.drop cfg.chunkSize) final }

/-- The drain after the loop. A chunk size of zero makes `range` raise, and what was drained
is gone. -/
def finalDrain (q : AuditEventQueue) : AuditEventQueue :=
  if q.queue = [] ∨ cfg.chunkSize = 0 then { q with queue := [], flusher := .ended [] }
  else flushChunk cfg { q with queue := [] } q.queue true

def drained (q : AuditEventQueue) (final : Bool) : AuditEventQueue :=
  if final then { q with flusher := .ended [] }
  else if q.stopping then q.finalDrain cfg
  else { q with flusher := .waiting }

def tick (q : AuditEventQueue) : AuditEventQueue :=
  match q.flusher with
  | .waiting =>
    if q.queue = [] ∨ cfg.chunkSize = 0 then drained cfg { q with queue := [] } false
    else flushChunk cfg { q with queue := [] } q.queue false
  | _ => q

def land (q : AuditEventQueue) (tenantId : String) (outcome : Outcome) (carried : Bool) :
    AuditEventQueue :=
  match q.flusher with
  | .flushing batch rest final =>
    let events := batch.inFlight tenantId
    let q := q.store (if outcome = .ok || carried then events else []) true
    { q with
      flusher := .flushing (batch.land tenantId outcome) rest final
      acknowledged := if outcome = .ok then q.acknowledged ++ events else q.acknowledged }
  | _ => q

def account (q : AuditEventQueue) (batch : Batch) (failed : ℕ) : AuditEventQueue :=
  { q with
    failedCount := q.failedCount + failed
    flushedCount := q.flushedCount + (batch.chunk.length - failed) - batch.sentinelCount
    tenantless := q.tenantless ++ sentinelEvents batch.chunk }

/-- The flush callable returns or raises: an `Exception` costs the events of its tenants, and a
base exception ends the flusher as well. -/
def settle (q : AuditEventQueue) : AuditEventQueue :=
  match q.flusher with
  | .flushing batch rest final =>
    if !batch.done then q
    else
      let q := q.account batch batch.totalFailedEvents
      if batch.raisesBase then { q with flusher := .ended rest, cancelled := true }
      else if rest = [] then q.drained cfg final
      else q.flushChunk cfg rest final
  | _ => q

/-- The flusher's task is cancelled where it waits. A flush that is in flight is cancelled with
it, whether storage carries it out or not, and the error has no `failed_event_count`. -/
def cancel (q : AuditEventQueue) (carried : List String) : AuditEventQueue :=
  match q.flusher with
  | .waiting => { q with flusher := .ended [], cancelled := true }
  | .flushing batch rest _ =>
    let q := q.store (carried.dedup.flatMap batch.inFlight) true
    { q.account batch 0 with flusher := .ended rest, cancelled := true }
  | .ended _ => q

end AuditEventQueue

inductive Event
  | log (ev : QueuedEvent) (critical : Bool) (reply : Reply)
  | tick
  | land (tenantId : String) (outcome : Outcome) (carried : Bool)
  | settle
  | stop
  | cancel (carried : List String)

def next (cfg : Config) (q : AuditEventQueue) : Event → AuditEventQueue
  | .log ev critical reply => q.logAction cfg ev critical reply
  | .tick => q.tick cfg
  | .land tenantId outcome carried => q.land tenantId outcome carried
  | .settle => q.settle cfg
  | .stop => { q with stopping := true }
  | .cancel carried => q.cancel carried

end Memclaw.Audit.Queue
