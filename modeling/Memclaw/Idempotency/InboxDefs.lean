import Memclaw.Api.AuthDefs
import Memclaw.Lib.FixedWidthDefs
import Memclaw.Lib.Interleave
import Memclaw.Lib.JsonDefs
import Memclaw.Lib.Sha256

/-! The idempotency inbox: the table, its storage functions and the guard around a
handler, cut at every statement that commits on its own. Expiry is judged by the clock
of the database; what a request writes as expiry comes from the clock of its server. -/

namespace Memclaw.Idempotency

open Memclaw.Lib Memclaw.Lib.Interleave Memclaw.Lib.Sha256 Memclaw.Api

structure Response where
  body : Json
  statusCode : Int

structure Row where
  requestHash : String
  response : Response
  expiresAt : Int
  isPending : Bool

structure Recorded where
  tenantId : String
  key : String
  requestHash : String
  response : Response

/-- The inbox by tenant and key, with the clock of the database. The last two fields are
ghosts: the responses written by `record`, and the expiry of the last row that a claim or
a record wrote for a key. -/
structure Inbox where
  rows : String → String → Option Row
  now : Int
  recorded : List Recorded
  lastExpiry : String → String → Option Int

def Inbox.empty (now : Int) : Inbox := ⟨fun _ _ => none, now, [], fun _ _ => none⟩

def setAt {α : Type} (f : String → String → α) (tenantId key : String) (value : α) :
    String → String → α := fun tenant k =>
  if tenant = tenantId ∧ k = key then value else f tenant k

def Inbox.put (s : Inbox) (tenantId key : String) (row : Row) : Inbox :=
  { s with
    rows := setAt s.rows tenantId key (some row)
    lastExpiry := setAt s.lastExpiry tenantId key (some row.expiresAt) }

def Inbox.live (s : Inbox) (row : Row) : Bool := s.now < row.expiresAt

def Inbox.idempotencyGet (s : Inbox) (tenantId key : String) : Option Row :=
  (s.rows tenantId key).filter s.live

def pendingRow (requestHash : String) (expiresAt : Int) : Row :=
  ⟨requestHash, ⟨.obj [], 0⟩, expiresAt, true⟩

/-- `idempotency_claim`: it inserts, or takes over an expired row; nothing on a live row. -/
def Inbox.idempotencyClaim (s : Inbox) (tenantId key requestHash : String) (expiresAt : Int) :
    Option Inbox :=
  match s.idempotencyGet tenantId key with
  | some _ => none
  | none => some (s.put tenantId key (pendingRow requestHash expiresAt))

def Inbox.record (s : Inbox) (tenantId key requestHash : String) (response : Response)
    (expiresAt : Int) : Inbox :=
  { s.put tenantId key ⟨requestHash, response, expiresAt, false⟩ with
    recorded := ⟨tenantId, key, requestHash, response⟩ :: s.recorded }

def Inbox.recordUpdate (s : Inbox) (tenantId key requestHash : String) (response : Response)
    (expiresAt : Int) : Option Inbox :=
  match s.rows tenantId key with
  | some row =>
    if row.requestHash = requestHash && row.isPending then
      some (s.record tenantId key requestHash response expiresAt)
    else none
  | none => none

def Inbox.recordInsert (s : Inbox) (tenantId key requestHash : String) (response : Response)
    (expiresAt : Int) : Option Inbox :=
  match s.rows tenantId key with
  | some _ => none
  | none => some (s.record tenantId key requestHash response expiresAt)

def Inbox.prune (s : Inbox) (among : String → String → Bool) : Inbox :=
  { s with rows := fun tenantId key =>
      (s.rows tenantId key).filter fun row => !among tenantId key || s.live row }

inductive Source
  | header
  | body
deriving DecidableEq

structure IdemRequest where
  tenantId : String
  idempotencyKey : Option String
  source : Source
  bodyBytes : Bytes

def IdemRequest.key (req : IdemRequest) : String :=
  (match req.source with
    | .header => "header:"
    | .body => "body:") ++ req.idempotencyKey.getD ""

def IdemRequest.requestHash (req : IdemRequest) : String :=
  hexdigest (sha256 req.bodyBytes)

def maxIdempotencyKeyLen : ℕ := 255
def claimPollMaxAttempts : ℕ := 20

/-- Where a request stands. `granted` tells a handler run under a claim from one without a
cache, after a failed call. -/
inductive Guard
  | start
  | lookup
  | claim
  /-- The claim met a live row; storage reads it for the answer. -/
  | conflict
  | poll (attempt : ℕ)
  | handling (granted : Bool)
  | recording (response : Response)
  | inserting (response : Response)
  /-- The insert met a row; storage reads it to see whose it is. -/
  | checking (response : Response)
  | unguarded
  | answered (response : Response)
  | replayed (response : Response)
  | raised (error : HTTPException)

inductive Party
  | request (req : IdemRequest) (state : Guard)
  | clock
  | cleanup

/-- What a party meets on its turn: the reply of a call, the clock of the server, what a
handler returns, how far time goes on and which rows the cleanup job looks at. -/
structure Answer where
  reply : Reply
  serverNow : Int
  handler : Except HTTPException Response
  elapsed : ℕ
  among : String → String → Bool

structure Settings where
  ttl : Int
  pendingTtl : Int

def keyReused : HTTPException := ⟨422, "Idempotency-Key reused with a different request body"⟩
def stillInProgress : HTTPException := ⟨409, "Idempotency-Key still in progress; retry shortly"⟩
def storageUnavailable : HTTPException := ⟨503, "Upstream storage unavailable; retry later"⟩
def previousVanished : HTTPException := ⟨409, "Previous request did not complete; safe to retry"⟩

def IdemRequest.replay (req : IdemRequest) (row : Row) : Guard :=
  if row.requestHash ≠ req.requestHash then .raised keyReused else .replayed row.response

def IdemRequest.afterLookup (req : IdemRequest) : Option Row → Guard
  | none => .claim
  | some row =>
    if row.isPending then
      if row.requestHash ≠ req.requestHash then .raised keyReused else .poll 0
    else req.replay row

def IdemRequest.afterConflict (req : IdemRequest) : Option Row → Guard
  | none => .poll 0
  | some row =>
    if row.requestHash ≠ req.requestHash then .raised keyReused
    else if row.isPending then .poll 0
    else .replayed row.response

def IdemRequest.afterPoll (req : IdemRequest) (attempt : ℕ) : Option Row → Guard
  | none => .raised previousVanished
  | some row =>
    if row.isPending then
      if attempt + 1 < claimPollMaxAttempts then .poll (attempt + 1) else .raised stillInProgress
    else req.replay row

def IdemRequest.validate (chars : CharData) (req : IdemRequest) : Guard :=
  let key := req.idempotencyKey.getD ""
  if key = "" then .unguarded
  else if key.toList.all chars.space then .raised ⟨400, "Idempotency-Key must not be blank"⟩
  else if maxIdempotencyKeyLen < key.length then
    .raised ⟨400, "Idempotency-Key must be at most 255 characters"⟩
  else .lookup

def Response.isDict (response : Response) : Bool :=
  match response.body with
  | .obj _ => true
  | _ => false

def requestTurn (chars : CharData) (settings : Settings) (req : IdemRequest) (a : Answer) (s : Inbox) :
    Guard → Guard × Inbox
  | .start => (req.validate chars, s)
  | .lookup =>
    match a.reply with
    | .ok => (req.afterLookup (s.idempotencyGet req.tenantId req.key), s)
    | _ => (.handling false, s)
  | .claim =>
    match a.reply, s.idempotencyClaim req.tenantId req.key req.requestHash
        (a.serverNow + settings.pendingTtl) with
    | .ok, some s' => (.handling true, s')
    | .ok, none => (.conflict, s)
    | .lost, some s' => (.handling false, s')
    | _, _ => (.handling false, s)
  | .conflict =>
    match a.reply with
    | .ok => (req.afterConflict (s.idempotencyGet req.tenantId req.key), s)
    | _ => (.handling false, s)
  | .poll attempt =>
    match a.reply with
    | .ok => (req.afterPoll attempt (s.idempotencyGet req.tenantId req.key), s)
    | _ => (.raised storageUnavailable, s)
  | .handling _ =>
    match a.handler with
    | .ok response => (.recording response, s)
    | .error e => (.raised e, s)
  | .recording response =>
    -- whatever happens to the record, the client has its live response
    if a.reply = .refused || !response.isDict then (.answered response, s)
    else match s.recordUpdate req.tenantId req.key req.requestHash response
        (a.serverNow + settings.ttl) with
      | some s' => (.answered response, s')
      | none => (.inserting response, s)
  | .inserting response =>
    if a.reply = .refused then (.answered response, s)
    else match s.recordInsert req.tenantId req.key req.requestHash response
        (a.serverNow + settings.ttl) with
      | some s' => (.answered response, s')
      | none => (.checking response, s)
  | .checking response => (.answered response, s)
  | .unguarded =>
    match a.handler with
    | .ok response => (.answered response, s)
    | .error e => (.raised e, s)
  | state => (state, s)

def turn (chars : CharData) (settings : Settings) (a : Answer) (p : Party) (s : Inbox) :
    Party × Inbox :=
  match p with
  | .request req state =>
    let next := requestTurn chars settings req a s state
    (.request req next.1, next.2)
  | .clock => (.clock, { s with now := s.now + a.elapsed })
  | .cleanup => (.cleanup, s.prune a.among)

inductive Kind
  | request (req : IdemRequest)
  | clock
  | cleanup

def Kind.party : Kind → Party
  | .request req => .request req .start
  | .clock => .clock
  | .cleanup => .cleanup

def start {ι : Type} (kinds : ι → Kind) (now : Int) : Pool ι Inbox Party where
  shared := Inbox.empty now
  parties := fun i => (kinds i).party

end Memclaw.Idempotency
