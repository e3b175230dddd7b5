import Memclaw.Lib.Binary64Defs
import Memclaw.Lib.Sha256

/-! JSON values as Python holds them, and the text of `json.dumps` with sorted
keys, compact separators and `ensure_ascii=False`. -/

namespace Memclaw.Lib

inductive PyFloat
  | finite (x : Binary64)
  | infinite (neg : Bool)
  | nan
deriving DecidableEq

inductive Json
  | null
  | bool (b : Bool)
  | int (i : Int)
  | float (x : PyFloat)
  | str (s : String)
  | arr (items : List Json)
  | obj (fields : List (String × Json))

namespace Json

def textLt : List Char → List Char → Bool
  | _, [] => false
  | [], _ :: _ => true
  | c :: cs, d :: ds => c.toNat < d.toNat || (c = d && textLt cs ds)

def insertByKey (field : String × Json) : List (String × Json) → List (String × Json)
  | [] => [field]
  | other :: rest =>
    if textLt other.1.toList field.1.toList then other :: insertByKey field rest else field :: other :: rest

mutual

def sortKeys : Json → Json
  | arr items => arr (sortItems items)
  | obj fields => obj (sortFields fields)
  | null => null
  | bool b => bool b
  | int i => int i
  | float x => float x
  | str s => str s

def sortItems : List Json → List Json
  | [] => []
  | j :: js => j.sortKeys :: sortItems js

def sortFields : List (String × Json) → List (String × Json)
  | [] => []
  | (k, j) :: fields => insertByKey (k, j.sortKeys) (sortFields fields)

end

def escapeChar (c : Char) : List Char :=
  if c = '"' then ['\\', '"']
  else if c = '\\' then ['\\', '\\']
  else if c = '\n' then ['\\', 'n']
  else if c = '\r' then ['\\', 'r']
  else if c = '\t' then ['\\', 't']
  else if c.toNat = 12 then ['\\', 'f']
  else if c.toNat = 8 then ['\\', 'b']
  else if c.toNat < 32 then
    ['\\', 'u', '0', '0', Nat.digitChar (c.toNat / 16), Nat.digitChar (c.toNat % 16)]
  else [c]

def escape (cs : List Char) : List Char := cs.flatMap escapeChar

def quote (s : String) : List Char := '"' :: (escape s.toList ++ ['"'])

def renderInt (i : Int) : List Char :=
  if i < 0 then '-' :: Nat.toDigits 10 i.natAbs else Nat.toDigits 10 i.natAbs

def renderFloat : PyFloat → List Char
  | .finite x => x.repr
  | .infinite false => ['I', 'n', 'f', 'i', 'n', 'i', 't', 'y']
  | .infinite true => ['-', 'I', 'n', 'f', 'i', 'n', 'i', 't', 'y']
  | .nan => ['N', 'a', 'N']

mutual

def render : Json → List Char
  | null => ['n', 'u', 'l', 'l']
  | bool true => ['t', 'r', 'u', 'e']
  | bool false => ['f', 'a', 'l', 's', 'e']
  | int i => renderInt i
  | float x => renderFloat x
  | str s => quote s
  | arr items => '[' :: renderItems items
  | obj fields => '\x7b' :: renderFields fields

def renderItems : List Json → List Char
  | [] => [']']
  | j :: js => j.render ++ renderMoreItems js

def renderMoreItems : List Json → List Char
  | [] => [']']
  | j :: js => ',' :: (j.render ++ renderMoreItems js)

def renderFields : List (String × Json) → List Char
  | [] => ['\x7d']
  | (k, j) :: fields => quote k ++ ':' :: (j.render ++ renderMoreFields fields)

def renderMoreFields : List (String × Json) → List Char
  | [] => ['\x7d']
  | (k, j) :: fields => ',' :: (quote k ++ ':' :: (j.render ++ renderMoreFields fields))

end

/-- `json.dumps(obj, sort_keys=True, separators=(",", ":"), ensure_ascii=False)`. -/
def dumps (j : Json) : List Char := j.sortKeys.render

mutual

def mapFloats (f : PyFloat → Json) : Json → Json
  | float x => f x
  | arr items => arr (mapFloatItems f items)
  | obj fields => obj (mapFloatFields f fields)
  | null => null
  | bool b => bool b
  | int i => int i
  | str s => str s

def mapFloatItems (f : PyFloat → Json) : List Json → List Json
  | [] => []
  | j :: js => j.mapFloats f :: mapFloatItems f js

def mapFloatFields (f : PyFloat → Json) : List (String × Json) → List (String × Json)
  | [] => []
  | (k, j) :: fields => (k, j.mapFloats f) :: mapFloatFields f fields

end

mutual

def floatLeaves : Json → List PyFloat
  | float x => [x]
  | arr items => floatLeavesItems items
  | obj fields => floatLeavesFields fields
  | null => []
  | bool _ => []
  | int _ => []
  | str _ => []

def floatLeavesItems : List Json → List PyFloat
  | [] => []
  | j :: js => j.floatLeaves ++ floatLeavesItems js

def floatLeavesFields : List (String × Json) → List PyFloat
  | [] => []
  | (_, j) :: fields => j.floatLeaves ++ floatLeavesFields fields

end

/-- What a JSONB column gives back for a finite float. The column keeps the decimal that
`repr` printed, as an exact `numeric` without a sign on zero, and prints it without an
exponent; a text without a fraction is read back as an int. -/
def jsonbFloat (x : Binary64) : Json :=
  let (digits, k) := x.printed
  let neg := x.neg && digits != 0
  if 0 ≤ k then
    int (if neg then -(digits * 10 ^ k.toNat : ℕ) else (digits * 10 ^ k.toNat : ℕ))
  else
    match Binary64.ofDecimal neg digits k with
    | some y => float (.finite y)
    | none => float (.finite x)

def jsonbNumbers : Json → Json := mapFloats fun
  | .finite x => jsonbFloat x
  | x => float x

def truthy : Json → Bool
  | null => false
  | bool b => b
  | int i => i != 0
  | float (.finite x) => x.mant != 0
  | float (.infinite _) => true
  | float .nan => true
  | str s => s != ""
  | arr items => !items.isEmpty
  | obj fields => !fields.isEmpty

end Json

def encodeUtf8 (cs : List Char) : Sha256.Bytes := cs.flatMap String.utf8EncodeChar

end Memclaw.Lib
