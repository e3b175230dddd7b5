import Mathlib.Data.Prod.Lex
import Memclaw.Lib.Base64
import Memclaw.Lib.Keyset
import Memclaw.Lib.Timestamp
import Memclaw.Memories.ReadDefs

/-! The two paginated lists, `GET /memories` and `GET /admin/memories`, from the cursor text of
`pagination.py` down to the queries of the storage service. -/

namespace Memclaw.Memories

open Memclaw.Lib Memclaw.Api

variable {V : Type}

def rsplitColon (cs : List Char) : Option (List Char × List Char) :=
  match cs.reverse.dropWhile (· ≠ ':') with
  | [] => none
  | _ :: front => some (front.reverse, (cs.reverse.takeWhile (· ≠ ':')).reverse)

def encodeCursor (createdAt : Timestamp) (memoryId : Uuid) : List Char :=
  Base64.encode (encodeUtf8 (createdAt.isoformat ++ ':' :: memoryId.text))

def readTimestamp (naive : DateTime → Option Timestamp) (cs : List Char) : Option Timestamp :=
  match Timestamp.fromisoformat cs with
  | none => none
  | some (clock, none) => naive clock
  | some (clock, some offset) =>
    if h : offset.natAbs < 86400000000 then some ⟨clock, offset, h⟩ else none

def readAware (cs : List Char) : Option Timestamp := readTimestamp (fun _ => none) cs

/-- A naive time is taken as UTC; nothing where it raises. -/
def decodeCursor (chars : CharData) (cursor : List Char) : Option (Timestamp × Uuid) := do
  let bytes ← Base64.decode cursor
  let decoded ← decodeUtf8 bytes
  let (tsText, idText) ← rsplitColon decoded
  let ts ← readTimestamp (fun clock => some (.utc clock)) tsText
  let id ← Uuid.ofText chars idText
  return (ts, id)

structure Listed (V : Type) where
  memory : Memory V
  id : Uuid
  createdAt : DateTime
  id_value : memory.id = id.value
  createdAt_micro : memory.createdAt = createdAt.micro

abbrev Key := ℤ ×ₗ ℕ

def cursorKey (ts : Timestamp) (id : Uuid) : Key := toLex (ts.instant, id.value)

def Listed.key (r : Listed V) : Key := cursorKey (.utc r.createdAt) r.id

structure Database (V : Type) where
  rows : List (Listed V)
  agents : Agents.Table
  unique : (rows.map (·.id)).Nodup

inductive Order
  | asc
  | desc
deriving DecidableEq

abbrev Columns (V : Type) := String → Memory V → Memory V → Bool

def paginatedOrderBy (columns : Columns V) (sort : String) (order : Order)
    (rows : List (Listed V)) : List (Listed V) :=
  if sort = "created_at" then
    match order with
    | .desc => Keyset.descending Listed.key rows
    | .asc => rows.insertionSort fun a b => a.key ≤ b.key
  else
    let before (a b : Listed V) : Bool := columns sort a.memory b.memory &&
      (!columns sort b.memory a.memory || decide (a.id.value ≤ b.id.value))
    match order with
    | .desc => rows.insertionSort fun a b => before b a
    | .asc => rows.insertionSort fun a b => before a b

structure Paging where
  sort : String
  order : Order
  limit : ℕ
  offset : ℕ
  cursor : Option (Timestamp × Uuid)

def Paging.behind (paging : Paging) (r : Listed V) : Bool :=
  match paging.cursor with
  | none => true
  | some (ts, id) =>
    match paging.order with
    | .desc => decide (r.key < cursorKey ts id)
    | .asc => decide (cursorKey ts id < r.key)

/-- Only `memory_admin_list` walks down whatever the order is. -/
def Paging.adminBehind (paging : Paging) (r : Listed V) : Bool :=
  match paging.cursor with
  | none => true
  | some (ts, id) => decide (r.key < cursorKey ts id)

def Paging.start (paging : Paging) : ℕ :=
  match paging.cursor with
  | none => paging.offset
  | some _ => 0

def memoryListByFilters (columns : Columns V) (rows : List (Listed V)) (q : ListQuery)
    (tenantId : String) (readableTenantIds : List String) (callerAgentId : Option String)
    (paging : Paging) : List (Listed V) :=
  ((paginatedOrderBy columns paging.sort paging.order
    (rows.filter fun r => q.matchesIn tenantId readableTenantIds callerAgentId r.memory &&
      paging.behind r)).drop paging.start).take (paging.limit + 1)

def ListQuery.matchesAll (q : ListQuery) (m : Memory V) : Bool :=
  given q.tenantId (m.tenantId = ·) && given q.fleetId (m.fleetId = some ·) &&
    (q.includeDeleted || m.live) && given q.agentId (m.agentId = ·) &&
    given q.memoryType (m.memoryType.value = ·) && given q.status (statusValue m.status = ·)

def memoryAdminList (columns : Columns V) (rows : List (Listed V)) (q : ListQuery)
    (paging : Paging) : List (Listed V) :=
  ((paginatedOrderBy columns paging.sort paging.order
    (rows.filter fun r => q.matchesAll r.memory && paging.adminBehind r)).drop paging.start).take
      paging.limit

structure RowDict (V : Type) where
  id : List Char
  createdAt : List Char
  memory : Memory V

def ormToDict (r : Listed V) : RowDict V := ⟨r.id.text, r.createdAt.isoformat, r.memory⟩

structure CursorFields where
  cursorTs : List Char
  cursorId : List Char

def CursorFields.of (cursor : Timestamp × Uuid) : CursorFields :=
  ⟨cursor.1.isoformat, cursor.2.text⟩

/-- The storage service reads them back; a field that does not parse is answered by a 422. -/
def CursorFields.read (chars : CharData) : Option CursorFields →
    Except HTTPException (Option (Timestamp × Uuid))
  | none => .ok none
  | some fields =>
    match readAware fields.cursorTs, Uuid.ofText chars fields.cursorId with
    | some ts, some id => .ok (some (ts, id))
    | _, _ => .error ⟨422, "invalid cursor fields"⟩

structure MemoryOut (V : Type) where
  id : Uuid
  createdAt : Timestamp
  memory : Memory V

def memoryToOut (chars : CharData) (row : RowDict V) : Except HTTPException (MemoryOut V) :=
  match readAware row.createdAt, Uuid.ofText chars row.id with
  | some createdAt, some id => .ok ⟨id, createdAt, row.memory⟩
  | _, _ => .error serverError

structure PaginatedMemoryResponse (V : Type) where
  items : List (MemoryOut V)
  nextCursor : Option (List Char)

/-- The end of both routes: one row more than the page was asked for. -/
def paginate (chars : CharData) (limit : ℕ) (rows : List (RowDict V)) :
    Except HTTPException (PaginatedMemoryResponse V) := do
  let items ← (rows.take limit).mapM (memoryToOut chars)
  if limit < rows.length ∧ items ≠ [] then
    match rows[limit - 1]? with
    | none => .error serverError
    | some last => do
      let out ← memoryToOut chars last
      .ok ⟨items, some (encodeCursor out.createdAt out.id)⟩
  else .ok ⟨items, none⟩

def maxListLimit : ℕ := 500

structure ListRequest where
  query : ListQuery
  sort : String
  order : Order
  offset : ℕ
  limit : ℕ
  cursor : Option (List Char)
  bounds : 1 ≤ limit ∧ limit ≤ maxListLimit

def ListRequest.readCursor (chars : CharData) (r : ListRequest) :
    Except HTTPException (Option (Timestamp × Uuid)) :=
  match r.cursor with
  | none | some [] => .ok none
  | some cursor =>
    if r.sort ≠ "created_at" ∨ r.order ≠ .desc then
      .error ⟨400, "Cursor pagination is only supported with sort=created_at and order=desc"⟩
    else
      match decodeCursor chars cursor with
      | none => .error ⟨400, "Invalid cursor"⟩
      | some decoded => .ok (some decoded)

def storageList (chars : CharData) (columns : Columns V) (rows : List (Listed V)) (q : ListQuery)
    (tenantId : String) (readableTenantIds : List String) (callerAgentId : Option String)
    (sort : String) (order : Order) (limit offset : ℕ) (cursor : Option CursorFields) :
    Except HTTPException (List (RowDict V)) :=
  if tenantId = "" then .error serverError
  else
    match CursorFields.read chars cursor with
    | .error _ => .error serverError
    | .ok cursor =>
      if (orText q.memoryType none).any (q.excludeMemoryTypes.contains ·) then .error serverError
      else
        .ok ((memoryListByFilters columns rows q tenantId readableTenantIds callerAgentId
          ⟨sort, order, max 1 (min limit 5000), offset, cursor⟩).map ormToDict)

def listPage (chars : CharData) (columns : Columns V) (reader : Reader) (db : Database V)
    (r : ListRequest) : Except HTTPException (PaginatedMemoryResponse V) := do
  let tenantId ← r.query.tenant reader
  let callerAgentId := orText reader.auth.agentId r.query.agentId
  r.query.fleetGate reader db.agents tenantId callerAgentId
  let cursor ← r.readCursor chars
  let rows ← storageList chars columns db.rows r.query tenantId
    (r.query.widened reader) callerAgentId r.sort r.order r.limit r.offset
    (cursor.map .of)
  paginate chars r.limit rows

def storageAdminList (chars : CharData) (columns : Columns V) (rows : List (Listed V))
    (q : ListQuery) (sort : String) (order : Order) (limit offset : ℕ)
    (cursor : Option CursorFields) : Except HTTPException (List (RowDict V)) :=
  match CursorFields.read chars cursor with
  | .error _ => .error serverError
  | .ok cursor =>
    .ok ((memoryAdminList columns rows q ⟨sort, order, limit, offset, cursor⟩).map ormToDict)

/-- `GET /admin/memories`, which asks for the extra row itself. -/
def adminListPage (chars : CharData) (columns : Columns V) (reader : Reader) (db : Database V)
    (r : ListRequest) : Except HTTPException (PaginatedMemoryResponse V) := do
  if reader.auth.isAdmin then
    let cursor ← r.readCursor chars
    let rows ← storageAdminList chars columns db.rows r.query r.sort r.order (r.limit + 1) r.offset
      (cursor.map .of)
    paginate chars r.limit rows
  else .error ⟨403, "Admin access required"⟩

def ListRequest.first (q : ListQuery) (limit : ℕ) (bounds : 1 ≤ limit ∧ limit ≤ maxListLimit) :
    ListRequest :=
  ⟨q, "created_at", .desc, 0, limit, none, bounds⟩

/-- A client that asks for page after page, each from the database as it then is, until there is
no next cursor; nothing when that takes more than the given number of requests. -/
def follow (page : Database V → ListRequest → Except HTTPException (PaginatedMemoryResponse V))
    (r : ListRequest) : ℕ → (ℕ → Database V) → Option (List Char) →
      Option (Except HTTPException (List (List (MemoryOut V))))
  | 0, _, _ => none
  | n + 1, dbs, cursor =>
    match page (dbs 0) { r with cursor := cursor } with
    | .error e => some (.error e)
    | .ok response =>
      match response.nextCursor with
      | none => some (.ok [response.items])
      | some next =>
        (follow page r n (fun j => dbs (j + 1)) (some next)).map fun rest =>
          rest.map (response.items :: ·)

end Memclaw.Memories
