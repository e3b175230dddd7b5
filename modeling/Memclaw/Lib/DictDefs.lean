import Memclaw.Lib.FixedWidthDefs
import Memclaw.Lib.JsonDefs

/-! Dicts of JSON values as Python handles them: access by key, `dict`, `==`, `repr` and
`int`, and what a JSONB column gives back for a value. -/

namespace Memclaw.Lib

abbrev Dict := List (String × Json)

namespace Dict

def find : Dict → String → Option Json
  | [], _ => none
  | (k, v) :: d, key => if k = key then some v else find d key

def get (d : Dict) (key : String) : Json := (find d key).getD .null

def has (d : Dict) (key : String) : Bool := (find d key).isSome

def set : Dict → String → Json → Dict
  | [], key, value => [(key, value)]
  | (k, v) :: d, key, value => if k = key then (k, value) :: d else (k, v) :: set d key value

def pop : Dict → String → Dict
  | [], _ => []
  | (k, v) :: d, key => if k = key then pop d key else (k, v) :: pop d key

def update (d patch : Dict) : Dict := patch.foldl (fun d field => set d field.1 field.2) d

end Dict

namespace Json

def isStr (j : Json) (s : String) : Bool :=
  match j with
  | str t => t = s
  | _ => false

/-- `j if isinstance(j, str) else None`. -/
def asStr : Json → Option String
  | str s => some s
  | _ => none

/-- What `if not j: …` leaves for code that needs a text: the text, `some none` for another
false value, and nothing where that code raises. -/
def textOrFalse : Json → Option (Option String)
  | str s => some (some s)
  | j => if j.truthy then none else some none

/-- `j if isinstance(j, dict) else None`. -/
def asDict : Json → Option Dict
  | obj fields => some fields
  | _ => none

/-- `j if isinstance(j, int) else None`; a bool is an int. -/
def asInt : Json → Option Int
  | int i => some i
  | bool b => some (if b then 1 else 0)
  | _ => none

def orEmpty (j : Json) : Option Dict := if j.truthy then j.asDict else some []

def isNull : Json → Bool
  | null => true
  | _ => false

def isNumber : Json → Bool
  | int _ => true
  | float _ => true
  | _ => false

def inSet (j : Json) (names : List String) : Option Bool :=
  match j with
  | str s => some (names.contains s)
  | arr _ => none
  | obj _ => none
  | _ => some false

def keyText : Json → Option String
  | str s => some s
  | null => some "null"
  | bool b => some (if b then "true" else "false")
  | int i => some (String.ofList (renderInt i))
  | float x => some (String.ofList (renderFloat x))
  | arr _ => none
  | obj _ => none

def asPair : Json → Option (String × Json)
  | arr [k, v] => k.keyText.map (·, v)
  | str s =>
    match s.toList with
    | [c, d] => some (String.singleton c, str (String.singleton d))
    | _ => none
  | obj [(k, _), (l, _)] => some (k, str l)
  | _ => none

def toDict : Json → Option Dict
  | obj fields => some fields
  | arr items => (items.mapM asPair).map (Dict.update [])
  | str s => if s = "" then some [] else none
  | _ => none

def intEqFloat (i : Int) (x : Binary64) : Bool :=
  (if x.neg then -(x.num : Int) else x.num) = i * x.den

def floatEq : PyFloat → PyFloat → Bool
  | .finite x, .finite y => x = y || (x.mant = 0 && y.mant = 0)
  | .infinite a, .infinite b => a = b
  | _, _ => false

mutual

def pyEq : Json → Json → Bool
  | null, b => match b with
    | null => true
    | _ => false
  | str s, b => b.isStr s
  | bool p, b => match b with
    | float (.finite x) => intEqFloat (if p then 1 else 0) x
    | _ => b.asInt = some (if p then 1 else 0)
  | int i, b => match b with
    | float (.finite x) => intEqFloat i x
    | _ => b.asInt = some i
  | float x, b => match x, b with
    | x, float y => floatEq x y
    | .finite x, b => b.asInt.any fun i => intEqFloat i x
    | _, _ => false
  | arr items, b => match b with
    | arr others => itemsEq items others
    | _ => false
  | obj fields, b => match b with
    | obj others => fields.length = others.length && fieldsEq fields others
    | _ => false

def itemsEq : List Json → List Json → Bool
  | [], [] => true
  | j :: js, k :: ks => j.pyEq k && itemsEq js ks
  | _, _ => false

def fieldsEq : Dict → Dict → Bool
  | [], _ => true
  | (k, j) :: fields, others =>
    (match Dict.find others k with
      | some other => j.pyEq other
      | none => false) && fieldsEq fields others

end

def reprChar (printable : Char → Bool) (quote c : Char) : List Char :=
  if c = '\\' || c = quote then ['\\', c]
  else if c = '\n' then ['\\', 'n']
  else if c = '\r' then ['\\', 'r']
  else if c = '\t' then ['\\', 't']
  else if printable c then [c]
  else if c.toNat < 0x100 then '\\' :: 'x' :: padDigits 16 2 c.toNat
  else if c.toNat < 0x10000 then '\\' :: 'u' :: padDigits 16 4 c.toNat
  else '\\' :: 'U' :: padDigits 16 8 c.toNat

def reprText (printable : Char → Bool) (cs : List Char) : List Char :=
  let quote := if cs.contains '\x27' && !cs.contains '"' then '"' else '\x27'
  quote :: (cs.flatMap (reprChar printable quote) ++ [quote])

def reprFloat : PyFloat → List Char
  | .finite x => x.repr
  | .infinite false => ['i', 'n', 'f']
  | .infinite true => ['-', 'i', 'n', 'f']
  | .nan => ['n', 'a', 'n']

mutual

def pyRepr (printable : Char → Bool) : Json → List Char
  | null => ['N', 'o', 'n', 'e']
  | bool true => ['T', 'r', 'u', 'e']
  | bool false => ['F', 'a', 'l', 's', 'e']
  | int i => renderInt i
  | float x => reprFloat x
  | str s => reprText printable s.toList
  | arr items => '[' :: reprItems printable items
  | obj fields => '\x7b' :: reprFields printable fields

def reprItems (printable : Char → Bool) : List Json → List Char
  | [] => [']']
  | [j] => j.pyRepr printable ++ [']']
  | j :: js => j.pyRepr printable ++ ',' :: ' ' :: reprItems printable js

def reprFields (printable : Char → Bool) : Dict → List Char
  | [] => ['\x7d']
  | [(k, j)] => reprText printable k.toList ++ ':' :: ' ' :: (j.pyRepr printable ++ ['\x7d'])
  | (k, j) :: fields =>
    reprText printable k.toList ++ ':' :: ' ' ::
      (j.pyRepr printable ++ ',' :: ' ' :: reprFields printable fields)

end

end Json

/-- What the `numeric` of a JSONB column gives back for a float: a number of the same
truth. -/
structure JsonbFloats where
  back : PyFloat → Json
  number : ∀ x, (back x).isNumber = true
  truthy : ∀ x, (back x).truthy = (Json.float x).truthy

def JsonbFloats.same : JsonbFloats := ⟨.float, fun _ => rfl, fun _ => rfl⟩

namespace Json

def jsonbKeyLt (a b : String) : Bool :=
  let m := (encodeUtf8 a.toList).length
  let n := (encodeUtf8 b.toList).length
  m < n || (m = n && textLt a.toList b.toList)

def insertJsonb (field : String × Json) : Dict → Dict
  | [] => [field]
  | other :: rest =>
    if jsonbKeyLt other.1 field.1 then other :: insertJsonb field rest else field :: other :: rest

mutual

def jsonb (floats : JsonbFloats) : Json → Json
  | arr items => arr (jsonbItems floats items)
  | obj fields => obj (jsonbFields floats fields)
  | float x => floats.back x
  | null => null
  | bool b => bool b
  | int i => int i
  | str s => str s

def jsonbItems (floats : JsonbFloats) : List Json → List Json
  | [] => []
  | j :: js => j.jsonb floats :: jsonbItems floats js

def jsonbFields (floats : JsonbFloats) : Dict → Dict
  | [] => []
  | (k, j) :: fields => insertJsonb (k, j.jsonb floats) (jsonbFields floats fields)

end

end Json

end Memclaw.Lib
