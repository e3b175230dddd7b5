import Mathlib.Data.NNRat.Defs
import Mathlib.Logic.Function.Basic
import Memclaw.Lib.JsonPath

/-! Short-term memory: the notes of an agent and the bulletin of a fleet, in the process
(`inmemory_stm.py`) and in the lists of a Redis that answers every command (`redis_stm.py`). An
operation sees one clock: the time advances between operations. -/

namespace Memclaw.Stm

open Memclaw.Lib

/-- An entry is a dict, which has no key twice at any depth. -/
abbrev Entry := {entry : Dict // Json.distinctFields entry = true}

abbrev Aged := List (Entry × ℚ)

structure Limits where
  notesMaxEntries : ℤ
  bulletinMaxEntries : ℤ
  notesTtl : ℤ
  bulletinTtl : ℤ

def Limits.default : Limits := ⟨50, 100, 86400, 172800⟩

def sliceTo {α : Type} (xs : List α) (k : ℤ) : List α :=
  if k < 0 then xs.take (xs.length + k).toNat else xs.take k.toNat

structure InMemorySTM where
  notes : String → Option Aged
  bulletins : String → Option Aged

namespace InMemorySTM

def empty : InMemorySTM := ⟨fun _ => none, fun _ => none⟩

def key (tenantId scopeId : String) : String := tenantId ++ ":" ++ scopeId

def prune (now : ℚ) (store : Aged) (ttl : ℤ) : Aged := store.filter fun entry => now - entry.2 < ttl

def getFrom (now : ℚ) (ttl : ℤ) (dict : String → Option Aged) (key : String) (limit : ℤ) :
    (String → Option Aged) × List Entry :=
  let entries := prune now ((dict key).getD []) ttl
  (Function.update dict key (if entries.isEmpty then none else some entries),
    (sliceTo entries limit).map Prod.fst)

def postTo (now : ℚ) (ttl maxEntries : ℤ) (dict : String → Option Aged) (key : String)
    (entry : Entry) : String → Option Aged :=
  let store := prune now ((entry, now) :: (dict key).getD []) ttl
  Function.update dict key (some (sliceTo store maxEntries))

def clearIn (dict : String → Option Aged) (key : String) : String → Option Aged :=
  Function.update dict key none

variable (limits : Limits) (now : ℚ) (stm : InMemorySTM) (tenantId : String)

def getNotes (agentId : String) (limit : ℤ) : InMemorySTM × List Entry :=
  let got := getFrom now limits.notesTtl stm.notes (key tenantId agentId) limit
  ({ stm with notes := got.1 }, got.2)

def postNote (agentId : String) (entry : Entry) : InMemorySTM :=
  { stm with
    notes := postTo now limits.notesTtl limits.notesMaxEntries stm.notes (key tenantId agentId)
      entry }

def clearNotes (agentId : String) : InMemorySTM :=
  { stm with notes := clearIn stm.notes (key tenantId agentId) }

def getBulletin (fleetId : String) (limit : ℤ) : InMemorySTM × List Entry :=
  let got := getFrom now limits.bulletinTtl stm.bulletins (key tenantId fleetId) limit
  ({ stm with bulletins := got.1 }, got.2)

def postBulletin (fleetId : String) (entry : Entry) : InMemorySTM :=
  { stm with
    bulletins := postTo now limits.bulletinTtl limits.bulletinMaxEntries stm.bulletins
      (key tenantId fleetId) entry }

def clearBulletin (fleetId : String) : InMemorySTM :=
  { stm with bulletins := clearIn stm.bulletins (key tenantId fleetId) }

end InMemorySTM

structure RedisList where
  items : List String
  expireAt : Option ℚ

/-- The lists of the server by key; a list that is empty has no key. -/
abbrev Redis := String → Option RedisList

namespace Redis

variable (now : ℚ) (db : Redis) (key : String)

/-- The list that a command finds: a key is gone once its time has passed, and still there at it. -/
def live : Option RedisList := (db key).filter fun list => list.expireAt.all (now ≤ ·)

def put (items : List String) (expireAt : Option ℚ) : Redis :=
  Function.update db key (if items.isEmpty then none else some ⟨items, expireAt⟩)

def lpush (item : String) : Redis :=
  match live now db key with
  | some list => put db key (item :: list.items) list.expireAt
  | none => put db key [item] none

/-- The items between two inclusive indices; a negative one counts from the end. -/
def range (items : List String) (start stop : ℤ) : List String :=
  let start := max (if start < 0 then items.length + start else start) 0
  let stop := if stop < 0 then items.length + stop else stop
  (items.drop start.toNat).take (stop + 1 - start).toNat

def ltrim (start stop : ℤ) : Redis :=
  match live now db key with
  | some list => put db key (range list.items start stop) list.expireAt
  | none => db

/-- A key whose time is not positive is deleted. -/
def expire (seconds : ℤ) : Redis :=
  match live now db key with
  | some list =>
    if seconds ≤ 0 then Function.update db key none
    else put db key list.items (some (now + seconds))
  | none => db

def lrange (start stop : ℤ) : List String :=
  ((live now db key).elim [] fun list => range list.items start stop)

def delete : Redis := Function.update db key none

end Redis

/-- `json.dumps` and `json.loads` on entries. -/
structure JsonCodec where
  dumps : Entry → String
  loads : String → Option Entry
  loads_dumps : ∀ entry, loads (dumps entry) = some entry

namespace RedisSTM

def notesKey (tenantId agentId : String) : String := "stm:notes:" ++ tenantId ++ ":" ++ agentId

def bulletinKey (tenantId fleetId : String) : String := "stm:bul:" ++ tenantId ++ ":" ++ fleetId

variable (codec : JsonCodec) (now : ℚ) (db : Redis)

/-- The getters. A text that does not load is caught, and nothing is returned. -/
def getAt (key : String) (limit : ℤ) : List Entry :=
  ((Redis.lrange now db key 0 (limit - 1)).mapM codec.loads).getD []

def postAt (ttl maxEntries : ℤ) (key : String) (entry : Entry) : Redis :=
  let db := Redis.lpush now db key (codec.dumps entry)
  let db := Redis.ltrim now db key 0 (maxEntries - 1)
  Redis.expire now db key ttl

variable (limits : Limits) (tenantId : String)

def getNotes (agentId : String) (limit : ℤ) : List Entry :=
  getAt codec now db (notesKey tenantId agentId) limit

def postNote (agentId : String) (entry : Entry) : Redis :=
  postAt codec now db limits.notesTtl limits.notesMaxEntries (notesKey tenantId agentId) entry

def clearNotes (agentId : String) : Redis := Redis.delete db (notesKey tenantId agentId)

def getBulletin (fleetId : String) (limit : ℤ) : List Entry :=
  getAt codec now db (bulletinKey tenantId fleetId) limit

def postBulletin (fleetId : String) (entry : Entry) : Redis :=
  postAt codec now db limits.bulletinTtl limits.bulletinMaxEntries (bulletinKey tenantId fleetId)
    entry

def clearBulletin (fleetId : String) : Redis := Redis.delete db (bulletinKey tenantId fleetId)

end RedisSTM

inductive Board
  | notes
  | bulletin
deriving DecidableEq

inductive Method
  | get (limit : ℤ)
  | post (entry : Entry)
  | clear

inductive Op
  | advance (seconds : ℚ≥0)
  | call (board : Board) (tenantId scopeId : String) (method : Method)

structure Backend where
  State : Type
  start : State
  call : ℚ → State → Board → String → String → Method → State × Option (List Entry)

def inMemory (limits : Limits) : Backend where
  State := InMemorySTM
  start := .empty
  call now stm board tenantId scopeId
    | .get limit =>
      match board with
      | .notes => (stm.getNotes limits now tenantId scopeId limit).map id some
      | .bulletin => (stm.getBulletin limits now tenantId scopeId limit).map id some
    | .post entry =>
      match board with
      | .notes => (stm.postNote limits now tenantId scopeId entry, none)
      | .bulletin => (stm.postBulletin limits now tenantId scopeId entry, none)
    | .clear =>
      match board with
      | .notes => (stm.clearNotes tenantId scopeId, none)
      | .bulletin => (stm.clearBulletin tenantId scopeId, none)

def redis (codec : JsonCodec) (limits : Limits) : Backend where
  State := Redis
  start := fun _ => none
  call now db board tenantId scopeId
    | .get limit =>
      match board with
      | .notes => (db, some (RedisSTM.getNotes codec now db tenantId scopeId limit))
      | .bulletin => (db, some (RedisSTM.getBulletin codec now db tenantId scopeId limit))
    | .post entry =>
      match board with
      | .notes => (RedisSTM.postNote codec now db limits tenantId scopeId entry, none)
      | .bulletin => (RedisSTM.postBulletin codec now db limits tenantId scopeId entry, none)
    | .clear =>
      match board with
      | .notes => (RedisSTM.clearNotes db tenantId scopeId, none)
      | .bulletin => (RedisSTM.clearBulletin db tenantId scopeId, none)

structure Answer where
  board : Board
  tenantId : String
  scopeId : String
  entries : List Entry

namespace Backend

variable (b : Backend)

def answers : ℚ → b.State → List Op → List Answer
  | _, _, [] => []
  | now, state, .advance seconds :: ops => answers (now + seconds) state ops
  | now, state, .call board tenantId scopeId method :: ops =>
    let called := b.call now state board tenantId scopeId method
    (called.2.map (Answer.mk board tenantId scopeId)).toList ++ answers now called.1 ops

def after : ℚ → b.State → List Op → ℚ × b.State
  | now, state, [] => (now, state)
  | now, state, .advance seconds :: ops => after (now + seconds) state ops
  | now, state, .call board tenantId scopeId method :: ops =>
    after now (b.call now state board tenantId scopeId method).1 ops

end Backend

end Memclaw.Stm
