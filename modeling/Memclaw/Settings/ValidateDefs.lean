import Memclaw.Settings.SchemaDefs
import Memclaw.Settings.StoreDefs

/-! The checks of `update_settings`, in their order, and the update that follows them. -/

namespace Memclaw.Settings

open Memclaw.Lib

inductive Raised
  | valueError (message : String)
  | typeError
  | attributeError
  | overflowError
  | httpStatusError
  | cron (kind : String)

/-- What the checks take from the interpreter and the `croniter` package:
`str.isprintable`, and what `croniter(expr)` raises. -/
structure SettingsEnv where
  printable : Char → Bool
  croniter : Json → Option Raised

def SettingsEnv.repr (env : SettingsEnv) (j : Json) : String :=
  String.ofList (j.pyRepr env.printable)

def SettingsEnv.names (env : SettingsEnv) (names : List String) : String :=
  env.repr (.arr (names.map .str))

def typeName : Json → String
  | .null => "NoneType"
  | .bool _ => "bool"
  | .int _ => "int"
  | .float _ => "float"
  | .str _ => "str"
  | .arr _ => "list"
  | .obj _ => "dict"

def insertText (s : String) : List String → List String
  | [] => [s]
  | t :: rest => if Json.textLt t.toList s.toList then t :: insertText s rest else s :: t :: rest

def sortTexts (names : List String) : List String := names.foldr insertText []

/-- `f"{path}.{k}" if path else k`. -/
def fullKey (path k : String) : String := if path = "" then k else path ++ "." ++ k

def unknownKeys (schema payload : Dict) : List String :=
  (payload.map Prod.fst).filter fun k => !Dict.has schema k

def checkUnknown (env : SettingsEnv) (schema : Dict) (path : String) (payload : Dict) :
    Except Raised Unit :=
  let unknown := unknownKeys schema payload
  if unknown.isEmpty then .ok ()
  else .error (.valueError ("Unknown settings key(s): " ++
    env.names (sortTexts (unknown.map (fullKey path)))))

mutual

def checkValue (env : SettingsEnv) (schema : Json) (path : String) : Json → Except Raised Unit
  | .obj fields =>
    match schema with
    | .obj (first :: rest) => do
      checkUnknown env (first :: rest) path fields
      checkItems env (first :: rest) path fields
    | _ => .ok ()
  | v =>
    match schema with
    | .obj _ => .error (.valueError ("Settings key " ++ env.repr (.str path) ++
        " must be an object, got " ++ typeName v))
    | _ => .ok ()

def checkItems (env : SettingsEnv) (schema : Dict) (path : String) : Dict → Except Raised Unit
  | [] => .ok ()
  | (k, v) :: payload => do
    checkValue env (Dict.get schema k) (fullKey path k) v
    checkItems env schema path payload

end

def checkKeys (env : SettingsEnv) (schema payload : Dict) : Except Raised Unit := do
  checkUnknown env schema "" payload
  checkItems env schema "" payload

/-- `lo <= v <= hi` for a leaf of a declared type; only ints have a range. -/
def inRange (range : ℤ × ℤ) : Json → Bool
  | .int i => range.1 ≤ i && i ≤ range.2
  | _ => true

def checkLeaf (env : SettingsEnv) (path : String) (v : Json) : Except Raised Unit :=
  match leafTypes.lookup path with
  | none => .ok ()
  | some expected =>
    if expected.accepts v then
      match leafRanges.lookup path with
      | none => .ok ()
      | some range =>
        if inRange range v then .ok ()
        else .error (.valueError ("Settings key " ++ env.repr (.str path) ++ " must be in [" ++
          env.repr (.int range.1) ++ ", " ++ env.repr (.int range.2) ++ "], got " ++ env.repr v))
    else .error (.valueError ("Settings key " ++ env.repr (.str path) ++ " must be " ++
      expected.name ++ ", got " ++ typeName v))

mutual

def validateLeafValue (env : SettingsEnv) (path : String) : Json → Except Raised Unit
  | .obj fields => validateLeafTypes env (path ++ ".") fields
  | .null => .ok ()
  | v => checkLeaf env path v

def validateLeafTypes (env : SettingsEnv) (start : String) : Dict → Except Raised Unit
  | [] => .ok ()
  | (k, v) :: payload => do
    validateLeafValue env (start ++ k) v
    validateLeafTypes env start payload

end

/-- `d.get(key, {})` where what follows calls `.get` on it. -/
def subDict (d : Dict) (key : String) : Except Raised Dict :=
  match Dict.find d key with
  | none => .ok []
  | some (.obj fields) => .ok fields
  | some _ => .error .attributeError

/-- `v is not None and v not in allowed`. -/
def checkEnum (env : SettingsEnv) (path : String) (allowed : List String) (v : Json) :
    Except Raised Unit :=
  if v.isNull then .ok ()
  else match v.inSet allowed with
    | none => .error .typeError
    | some true => .ok ()
    | some false => .error (.valueError
        (path ++ " must be one of " ++ env.names allowed ++ ", got " ++ env.repr v))

def numLe : Value → Value → Bool
  | .number p, .number q => p ≤ q
  | .infinite neg, .number _ => neg
  | .number _, .infinite neg => !neg
  | .infinite a, .infinite b => a || !b
  | _, _ => false

def numLt : Value → Value → Bool
  | .number p, .number q => p < q
  | .infinite neg, .number _ => neg
  | .number _, .infinite neg => !neg
  | .infinite a, .infinite b => a && !b
  | _, _ => false

def checkConfidence (env : SettingsEnv) (v : Json) : Except Raised Unit :=
  match v with
  | .null => .ok ()
  | .str _ => .error .typeError
  | .arr _ => .error .typeError
  | .obj _ => .error .typeError
  | v =>
    if numLe (.number 0) v.value && numLe v.value (.number 1) then .ok ()
    else .error (.valueError ("governance.non_business.pregate.min_confidence must be in " ++
      "[0.0, 1.0], got " ++ env.repr v))

def validateGovernance (env : SettingsEnv) (gov : Dict) : Except Raised Unit := do
  let pii ← subDict gov "pii"
  checkEnum env "governance.pii.action" piiActions (Dict.get pii "action")
  let nb ← subDict gov "non_business"
  checkEnum env "governance.non_business.disposition" nonBusinessDispositions
    (Dict.get nb "disposition")
  let pregate ← subDict nb "pregate"
  checkEnum env "governance.non_business.pregate.provider" pregateProviders
    (Dict.get pregate "provider")
  checkConfidence env (Dict.get pregate "min_confidence")

def validateGovernanceEnums (env : SettingsEnv) (payload : Dict) : Except Raised Unit :=
  match Dict.get payload "governance" with
  | .obj gov => validateGovernance env gov
  | _ => .ok ()

def asFloat (rule : SearchRule) (v : Json) : Except Raised Json :=
  match rule.isFloat, v with
  | true, .int i =>
    match Binary64.ofFrac (decide (i < 0)) i.natAbs 1 with
    | some x => .ok (.float (.finite x))
    | none => .error .overflowError
  | _, v => .ok v

def SearchRule.typed (rule : SearchRule) : Json → Bool
  | .int _ => !rule.isFloat
  | .float _ => rule.isFloat
  | _ => false

def SearchRule.within (rule : SearchRule) (v : Json) : Bool :=
  !numLt v.value rule.lo.value && !numLt rule.hi.value v.value

def checkBounds (env : SettingsEnv) (key : String) (rule : SearchRule) (v : Json) :
    Except Raised Unit :=
  if rule.typed v then
    if rule.within v then .ok ()
    else .error (.valueError ("search.default_profile." ++ key ++ " must be in [" ++
      env.repr rule.lo ++ ", " ++ env.repr rule.hi ++ "], got " ++ env.repr v))
  else .error (.valueError ("search.default_profile." ++ key ++ " must be " ++
    (if rule.isFloat then "float" else "int") ++ ", got " ++ typeName v))

def checkEntry (env : SettingsEnv) (key : String) (v : Json) : Except Raised Unit :=
  match searchProfileRules.lookup key with
  | none => .error (.valueError ("search.default_profile: unknown key " ++ env.repr (.str key) ++
      " (allowed: " ++ env.names (sortTexts (searchProfileRules.map Prod.fst)) ++ ")"))
  | some rule => do
    let v ← asFloat rule v
    checkBounds env key rule v

def checkEntries (env : SettingsEnv) : Dict → Except Raised Unit
  | [] => .ok ()
  | (key, v) :: profile => do
    checkEntry env key v
    checkEntries env profile

def validateDefaultSearchProfile (env : SettingsEnv) (payload : Dict) : Except Raised Unit := do
  let search ← subDict payload "search"
  match Dict.get search "default_profile" with
  | .null => .ok ()
  | .obj profile => checkEntries env profile
  | _ => .error (.valueError "search.default_profile must be an object")

/-- `_validate_cron`: a `ValueError` of the package is raised again with the expression. -/
def validateCron (env : SettingsEnv) (expr : Json) : Except Raised Unit :=
  match env.croniter expr with
  | none => .ok ()
  | some (.valueError message) => .error (.valueError
      ("Invalid cron expression " ++ env.repr expr ++ ": " ++ message))
  | some raised => .error raised

def checkCron (env : SettingsEnv) (payload : Dict) : Except Raised Unit := do
  let audit ← subDict payload "security_audit"
  let cron := Dict.get audit "schedule_cron"
  if cron.isNull then .ok () else validateCron env cron

def validateSettings (env : SettingsEnv) (newSettings : Dict) : Except Raised Unit := do
  checkKeys env defaultSettings newSettings
  validateLeafTypes env "" newSettings
  validateGovernanceEnums env newSettings
  validateDefaultSearchProfile env newSettings
  checkCron env newSettings

def hasNul (s : String) : Bool := s.toList.contains (Char.ofNat 0)

mutual

/-- A JSONB column takes no U+0000 and no number that is not finite. -/
def storable : Json → Bool
  | .str s => !hasNul s
  | .float (.finite _) => true
  | .float _ => false
  | .arr items => storableItems items
  | .obj fields => storableFields fields
  | .null => true
  | .bool _ => true
  | .int _ => true

def storableItems : List Json → Bool
  | [] => true
  | j :: js => storable j && storableItems js

def storableFields : Dict → Bool
  | [] => true
  | (k, v) :: d => !hasNul k && (storable v && storableFields d)

end

def displaySettings (settings : Dict) : Json := deepMerge (.obj defaultSettings) (.obj settings)

/-- `update_settings`, with the transaction of the store behind it. -/
def updateSettings (floats : JsonbFloats) (env : SettingsEnv) (store : Store)
    (newSettings : Payload) (changedBy : Option String) : Except Raised Json × Store :=
  match validateSettings env newSettings.fields with
  | .error raised => (.error raised, store)
  | .ok _ =>
    match (store.select newSettings changedBy).1 with
    | .selected p changedBy current _ =>
      if storableFields (mergeFields current p.fields) then
        (.ok (displaySettings (mergeFields current p.fields)),
          (store.commit floats p changedBy current).2)
      else (.error .httpStatusError, store)
    | _ => (.ok (displaySettings store.organizationSettingsGet), store)

end Memclaw.Settings
