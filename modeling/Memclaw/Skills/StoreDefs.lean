import Memclaw.Api.AuthDefs
import Memclaw.Lib.Prog
import Memclaw.Skills.ScanDefs

/-! The skills collection of one tenant with its poison table, and the calls of the storage
client that the skill factory makes. Each call is one committed statement. -/

namespace Memclaw.Skills

open Memclaw.Lib Memclaw.Lib.Interleave Memclaw.Api

inductive Status
  | candidate
  | staged
  | active
  | rejected
  | quarantined
  | stale
  | deprecated
deriving DecidableEq

def Status.name : Status → String
  | .candidate => "candidate"
  | .staged => "staged"
  | .active => "active"
  | .rejected => "rejected"
  | .quarantined => "quarantined"
  | .stale => "stale"
  | .deprecated => "deprecated"

def Status.json (status : Status) : Json := .str status.name

/-- A row of the collection. The last field is a ghost: the size caps in force when its scan
was stamped. -/
structure Row where
  docId : String
  fleetId : Option String
  data : Dict
  updatedAt : Int
  caps : Caps

def Row.status (row : Row) : Json := Dict.get row.data "status"

def Row.has (row : Row) (status : Status) : Bool := row.status.isStr status.name

structure Rejection where
  fleetId : Option String
  clusterFingerprint : String
  rejectedByAgent : String
  reason : String
  cooloffDays : Int
deriving DecidableEq

structure PoisonRow extends Rejection where
  rejectedAt : Int
deriving DecidableEq

structure Store where
  rows : List Row
  poison : List PoisonRow

def Store.empty : Store := ⟨[], []⟩

inductive QueryOrder
  /-- `data->>'created_at'`, ascending. -/
  | createdAt
  /-- `updated_at`, descending. -/
  | updatedAt

/-- What the statements take from the database: what JSONB does to floats, and the order in
which a query returns rows. -/
structure DbEnv where
  floats : JsonbFloats
  order : QueryOrder → List Row → List Row
  order_perm : ∀ key rows, (order key rows).Perm rows

def DbEnv.plain : DbEnv := ⟨.same, fun _ rows => rows, fun _ _ => .refl _⟩

/-- A whole document to be stored. The last two fields are ghosts: the caps under which
`data["scan"]` was made, and the stored statuses that the writer's last check of the
document accepts, nothing standing for a document without a status. -/
structure Upsert where
  docId : String
  fleetId : Option String
  data : Dict
  caps : Caps
  accepts : List (Option Status)

def anyStatus : List (Option Status) :=
  [none, some .candidate, some .staged, some .active, some .rejected, some .quarantined, some .stale,
    some .deprecated]

structure Query where
  fleetId : Option String
  filters : List (String × String)
  order : QueryOrder
  limit : ℕ

def Store.find (s : Store) (docId : String) : Option Row := s.rows.find? (·.docId = docId)

def Store.status (s : Store) (docId : String) : Json :=
  match s.find docId with
  | some row => row.status
  | none => .null

def Store.put (s : Store) (row : Row) : Store :=
  { s with rows :=
      if s.rows.any (·.docId = row.docId) then
        s.rows.map fun r => if r.docId = row.docId then row else r
      else s.rows ++ [row] }

def Store.upsert (db : DbEnv) (now : Int) (w : Upsert) (s : Store) : Store :=
  s.put ⟨w.docId, w.fleetId, Json.jsonbFields db.floats w.data, now, w.caps⟩

def jsonbSet (d : Dict) (key : String) (value : Json) : Dict :=
  Json.insertJsonb (key, value) (Dict.pop d key)

/-- `document_update_status`: the status of a document that still has the expected one, and
its time; nothing when no row matches. -/
def Store.updateStatus (nowIso : String) (docId : String) (new expected : Status) (s : Store) :
    Option Store :=
  match s.find docId with
  | some row =>
    if row.has expected then
      some (s.put { row with
        data := jsonbSet (jsonbSet row.data "status" new.json) (new.name ++ "_at") (.str nowIso) })
    else none
  | none => none

def fleetMatches (fleetId : Option String) (row : Row) : Bool :=
  match fleetId with
  | some fleet => fleet = "" || row.fleetId = some fleet
  | none => true

def Store.query (db : DbEnv) (q : Query) (s : Store) : List Row :=
  (db.order q.order (s.rows.filter fun row =>
    fleetMatches q.fleetId row && q.filters.all fun (key, value) =>
      (Dict.get row.data key).isStr value)).take q.limit

def microsPerDay : Int := 86400000000

def Store.isFingerprintPoisoned (now : Int) (fleetId : Option String) (fingerprint : String)
    (s : Store) : Bool :=
  s.poison.any fun row =>
    row.clusterFingerprint = fingerprint &&
      (row.fleetId.isNone || fleetId.isNone || row.fleetId = fleetId) &&
      now < row.rejectedAt + microsPerDay * row.cooloffDays

inductive Call
  | getDocument (docId : String)
  | queryDocuments (query : Query)
  | upsertDocument (w : Upsert)
  | updateDocumentStatus (docId : String) (new expected : Status)
  | writeRejectedFingerprint (rejection : Rejection)
  | isFingerprintPoisoned (fleetId : Option String) (fingerprint : String)

/-- What a call returns, or the class of the exception it raises. -/
def Call.Answer : Call → Type
  | .getDocument _ => Except String (Option Row)
  | .queryDocuments _ => Except String (List Row)
  | .upsertDocument _ => Except String Unit
  | .updateDocumentStatus _ _ _ => Except String Bool
  | .writeRejectedFingerprint _ => Except String Unit
  | .isFingerprintPoisoned _ _ => Except String Bool

/-- What a call meets: its reply, the exception of a failed one, and the clocks of the
database and of its server. -/
structure Surroundings where
  reply : Reply
  error : String
  now : Int
  nowIso : String

def Surroundings.read {α : Type} (b : Surroundings) (value : α) : Except String α :=
  match b.reply with
  | .ok => .ok value
  | _ => .error b.error

/-- A call that writes: refused it leaves the store, lost it writes and fails. -/
def Surroundings.write {α : Type} (b : Surroundings) (value : α) (s s' : Store) :
    Except String α × Store :=
  match b.reply with
  | .ok => (.ok value, s')
  | .refused => (.error b.error, s)
  | .lost => (.error b.error, s')

def serve (db : DbEnv) (b : Surroundings) : (c : Call) → Store → c.Answer × Store
  | .getDocument docId, s => (b.read (s.find docId), s)
  | .queryDocuments query, s => (b.read (s.query db query), s)
  | .upsertDocument w, s => b.write () s (s.upsert db b.now w)
  | .updateDocumentStatus docId new expected, s =>
    match s.updateStatus b.nowIso docId new expected with
    | some s' => b.write true s s'
    | none => (b.read false, s)
  | .writeRejectedFingerprint rejection, s =>
    b.write () s { s with poison := s.poison ++ [⟨rejection, b.now⟩] }
  | .isFingerprintPoisoned fleetId fingerprint, s =>
    (b.read (s.isFingerprintPoisoned b.now fleetId fingerprint), s)

abbrev Handler (R : Type) := Prog HTTPException Call Call.Answer R

namespace Handler

/-- A call whose exception nothing catches. -/
def get (docId : String) : Handler (Option Row) :=
  .call (.getDocument docId) fun a => match a with
    | .ok row => .done row
    | .error _ => .raise serverError

def upsert (w : Upsert) : Handler Unit :=
  .call (.upsertDocument w) fun a => match a with
    | .ok _ => .done ()
    | .error _ => .raise serverError

def ofExcept {R : Type} : Except HTTPException R → Handler R
  | .ok r => .done r
  | .error e => .raise e

end Handler

end Memclaw.Skills
