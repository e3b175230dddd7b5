import Memclaw.Lib.FixedWidthDefs
import Memclaw.Lib.JsonDefs
import Memclaw.Lib.Sha256

/-! The audit hash-chain primitives of `audit_chain.py`: the canonical bytes of an
event, its hash, and the guard against raw PII in its detail. -/

namespace Memclaw.Audit

open Memclaw.Lib Memclaw.Lib.Sha256

def genesisPrevHash : Bytes := List.replicate 32 0

inductive ResourceId
  | text (s : String)
  | uuid (u : Uuid)
deriving DecidableEq

def canonicalCreatedAt (createdAt : DateTime) : String :=
  String.ofList (createdAt.micros ++ ['Z'])

/-- Integral floats collapse to ints; infinities and NaN are not integral. -/
def normaliseFloat : PyFloat → Json
  | .finite x => if x.isInteger then .int x.toInt else .float (.finite x)
  | x => .float x

def normaliseNumbers (detail : Json) : Json := detail.mapFloats normaliseFloat

def canonicalResourceId (chars : CharData) : Option ResourceId → Option String
  | none => none
  | some (.text s) =>
    if s = "" then none
    else match Uuid.ofText chars s.toList with
      | some u => some (String.ofList u.text)
      | none => some s
  | some (.uuid u) => some (String.ofList u.text)

def optionalStr : Option String → Json
  | some s => .str s
  | none => .null

structure EventFields where
  tenantId : String
  seq : Int
  agentId : Option String
  action : String
  resourceType : String
  resourceId : Option ResourceId
  detail : Json
  createdAtIso : String

def eventObject (chars : CharData) (fields : EventFields) : Json := .obj [
  ("tenant_id", .str fields.tenantId),
  ("seq", .int fields.seq),
  ("agent_id", optionalStr fields.agentId),
  ("action", .str fields.action),
  ("resource_type", .str fields.resourceType),
  ("resource_id", optionalStr (canonicalResourceId chars fields.resourceId)),
  ("detail", normaliseNumbers fields.detail),
  ("created_at", .str fields.createdAtIso)]

def canonicalEvent (chars : CharData) (fields : EventFields) : Bytes :=
  encodeUtf8 (eventObject chars fields).dumps

def computeEventHash (canonical prevHash : Bytes) : Bytes := sha256 (canonical ++ prevHash)

inductive ShapeItem
  | digit
  | dash
  | spaceOrDash
deriving DecidableEq

def ShapeItem.accepts (chars : CharData) (c : Char) : ShapeItem → Bool
  | digit => (chars.decimal c).isSome
  | dash => c = '-'
  | spaceOrDash => c = ' ' || c = '-'

def cardShape : List ShapeItem :=
  let group := List.replicate 4 ShapeItem.digit
  group ++ .spaceOrDash :: (group ++ .spaceOrDash :: (group ++ .spaceOrDash :: group))

def ssnShape : List ShapeItem :=
  List.replicate 3 .digit ++ .dash :: (List.replicate 2 .digit ++ .dash :: List.replicate 4 .digit)

/-- `\b` between two neighbouring characters, the ends of the text being no word. -/
def wordBoundary (chars : CharData) (before after : Option Char) : Bool :=
  before.any chars.word != after.any chars.word

def matchShape (chars : CharData) : List ShapeItem → Option Char → List Char → Bool
  | [], before, cs => wordBoundary chars before cs.head?
  | _ :: _, _, [] => false
  | item :: items, _, c :: cs => item.accepts chars c && matchShape chars items (some c) cs

def searchShape (chars : CharData) (items : List ShapeItem) : Option Char → List Char → Bool
  | before, [] => wordBoundary chars before none && matchShape chars items before []
  | before, c :: cs =>
    (wordBoundary chars before (some c) && matchShape chars items before (c :: cs)) ||
      searchShape chars items (some c) cs

def lowerOrDigit (c : Char) : Bool := c.isLower || c.isDigit

def hexRun (cs : List Char) : Bool :=
  32 ≤ cs.length && cs.all fun c => (Uuid.hexDigit c).isSome

/-- `\A(?:[a-z0-9]+-[a-z0-9]+:)?[0-9a-fA-F]{32,}\Z`. -/
def hashToken (cs : List Char) : Bool :=
  hexRun cs ||
    match cs.dropWhile lowerOrDigit with
    | '-' :: rest =>
      match rest.dropWhile lowerOrDigit with
      | ':' :: hex =>
        cs.takeWhile lowerOrDigit != [] && rest.takeWhile lowerOrDigit != [] && hexRun hex
      | _ => false
    | _ => false

mutual

def strLeaves : Json → List String
  | .str s => [s]
  | .arr items => strLeavesItems items
  | .obj fields => strLeavesFields fields
  | .null => []
  | .bool _ => []
  | .int _ => []
  | .float _ => []

def strLeavesItems : List Json → List String
  | [] => []
  | j :: js => strLeaves j ++ strLeavesItems js

def strLeavesFields : List (String × Json) → List String
  | [] => []
  | (_, j) :: fields => strLeaves j ++ strLeavesFields fields

end

def leafLooksRaw (chars : CharData) (s : String) : Bool :=
  !hashToken s.toList &&
    (searchShape chars cardShape none s.toList || searchShape chars ssnShape none s.toList)

/-- Whether `assert_pii_safe` returns; it raises `PIIInAuditError` otherwise. -/
def assertPiiSafe (chars : CharData) (detail : Json) : Bool :=
  !detail.truthy || (strLeaves detail).all fun s => !leafLooksRaw chars s

end Memclaw.Audit
