import Memclaw.Lib.DictDefs
import Memclaw.Lib.Interleave
import Memclaw.Lib.JsonPath

/-! The merge and the flat diff of organization settings, the row of one organization, and the
transaction that updates it. A call takes two turns, at the statements where it can wait for
another: the locking read, and the upsert with the commit. -/

namespace Memclaw.Settings

open Memclaw.Lib Memclaw.Lib.Interleave

mutual

/-- `deep_merge`: objects are merged key by key, any other new value takes the place of the
old one. -/
def deepMerge (old : Json) : Json → Json
  | .obj new =>
    match old with
    | .obj fields => .obj (mergeFields fields new)
    | _ => .obj new
  | v => v

def mergeFields (out : Dict) : Dict → Dict
  | [] => out
  | (k, v) :: new => mergeFields (Dict.set out k (deepMerge (Dict.get out k) v)) new

end

mutual

def diffValue (out : Dict) (path : String) (old : Json) : Json → Dict
  | .obj new => Dict.update out (diffFields [] (path ++ ".") (old.asDict.getD []) new)
  | v => if v.pyEq old then out else Dict.set out path (.arr [old, v])

def diffFields (out : Dict) (start : String) (old : Dict) : Dict → Dict
  | [] => out
  | (k, v) :: new => diffFields (diffValue out (start ++ k) (Dict.get old k) v) start old new

end

def diffSettings (old new : Dict) : Dict := diffFields [] "" old new

/-- `stored || excluded` on JSONB objects: the keys of the second take the place of those of
the first. -/
def jsonbConcat (stored excluded : Dict) : Dict :=
  excluded.foldr (fun field d => Json.insertJsonb field (Dict.pop d field.1)) stored

def upsert (row : Option Dict) (excluded : Dict) : Dict :=
  match row with
  | some stored => jsonbConcat stored excluded
  | none => excluded

structure AuditRow where
  changedBy : Option String
  diff : Dict

/-- The row, whether a transaction holds its lock, and the audit rows in the order of their
ids. -/
structure Store where
  row : Option Dict
  locked : Bool
  audit : List AuditRow

/-- A JSON object: a dict has each key once, and JSON has no number that is not finite. -/
structure Payload where
  fields : Dict
  distinct : Json.distinctFields fields = true
  finite : (Json.floatLeavesFields fields).all PyFloat.isFinite = true

def Payload.json (p : Payload) : Json := .obj p.fields

def Store.organizationSettingsGet (store : Store) : Dict := store.row.getD []

inductive Call
  | ready (newSettings : Payload) (changedBy : Option String)
  | selected (newSettings : Payload) (changedBy : Option String) (current : Dict) (holds : Bool)
  | returned (settings : Dict) (changed : Bool)
  | failed

inductive Outcome
  | done
  | aborted
deriving DecidableEq

/-- `SELECT … FOR UPDATE` and the diff. There is nothing to lock where there is no row; a
payload without a change ends the transaction. -/
def Store.select (store : Store) (newSettings : Payload) (changedBy : Option String) :
    Call × Store :=
  let current := store.organizationSettingsGet
  if (diffSettings current newSettings.fields).isEmpty then (.returned current false, store)
  else (.selected newSettings changedBy current store.row.isSome,
    { store with locked := store.locked || store.row.isSome })

def Store.commit (floats : JsonbFloats) (store : Store) (newSettings : Payload)
    (changedBy : Option String) (current : Dict) : Call × Store :=
  let merged := mergeFields current newSettings.fields
  let diff := diffSettings current newSettings.fields
  (.returned merged true,
    { row := some (upsert store.row (Json.jsonbFields floats merged))
      locked := false
      audit := store.audit ++ [⟨changedBy, Json.jsonbFields floats diff⟩] })

/-- A turn of `organization_settings_update`; a call waits for a lock that another one
holds. -/
def organizationSettingsUpdate (floats : JsonbFloats) (outcome : Outcome) :
    Call → Store → Call × Store
  | .ready p changedBy, store =>
    match outcome with
    | .aborted => (.failed, store)
    | .done =>
      if store.row.isSome && store.locked then (.ready p changedBy, store)
      else store.select p changedBy
  | .selected p changedBy current holds, store =>
    match outcome with
    | .aborted => (.failed, { store with locked := store.locked && !holds })
    | .done =>
      if store.locked && !holds then (.selected p changedBy current holds, store)
      else store.commit floats p changedBy current
  | .returned settings changed, store => (.returned settings changed, store)
  | .failed, store => (.failed, store)

def Store.start {ι : Type} (row : Option Dict) (calls : ι → Payload × Option String) :
    Pool ι Store Call where
  shared := ⟨row, false, []⟩
  parties i := .ready (calls i).1 (calls i).2

end Memclaw.Settings
