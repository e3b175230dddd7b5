import Mathlib.Algebra.Ring.Nat

/-! Values whose text has a fixed width: UUIDs and UTC timestamps. Both are
printed from zero-padded numerals; `UUID(text)` is read as Python reads it. -/

namespace Memclaw.Lib

def padDigits (base : ℕ) : ℕ → ℕ → List Char
  | 0, _ => []
  | width + 1, n => padDigits base width (n / base) ++ [Nat.digitChar (n % base)]

/-- What Python's `str` methods and `re` classes know about a character. -/
structure CharData where
  decimal : Char → Option ℕ
  space : Char → Bool
  word : Char → Bool

def CharData.ascii : CharData where
  decimal c := if c.isDigit then some (c.toNat - 48) else none
  space c := c.toNat = 32 || (9 ≤ c.toNat && c.toNat ≤ 13) || (28 ≤ c.toNat && c.toNat ≤ 31)
  word c := c.isAlphanum || c = '_'

structure Uuid where
  value : ℕ
  bound : value < 2 ^ 128
deriving DecidableEq

namespace Uuid

def text (u : Uuid) : List Char :=
  let hex := padDigits 16 32 u.value
  hex.take 8 ++ '-' :: ((hex.drop 8).take 4 ++ '-' :: ((hex.drop 12).take 4 ++
    '-' :: ((hex.drop 16).take 4 ++ '-' :: hex.drop 20)))

def removeAll (pattern : List Char) : ℕ → List Char → List Char
  | _, [] => []
  | skip + 1, _ :: cs => removeAll pattern skip cs
  | 0, c :: cs =>
    if pattern.isPrefixOf (c :: cs) then removeAll pattern (pattern.length - 1) cs
    else c :: removeAll pattern 0 cs

def stripChars (chars : List Char) (cs : List Char) : List Char :=
  ((cs.dropWhile (· ∈ chars)).reverse.dropWhile (· ∈ chars)).reverse

def hexDigit (c : Char) : Option ℕ :=
  if c.isDigit then some (c.toNat - 48)
  else if 'a' ≤ c ∧ c ≤ 'f' then some (c.toNat - 87)
  else if 'A' ≤ c ∧ c ≤ 'F' then some (c.toNat - 55)
  else none

def scanHex : ℕ → Bool → List Char → Option (ℕ × List Char)
  | acc, afterDigit, [] => if afterDigit then some (acc, []) else none
  | acc, afterDigit, c :: cs =>
    if c = '_' then
      if afterDigit then scanHex acc false cs else none
    else
      match hexDigit c with
      | some d => scanHex (16 * acc + d) true cs
      | none => if afterDigit then some (acc, c :: cs) else none

def asciiSpace : List Char := [' ', '\t', '\n', '\r', Char.ofNat 11, Char.ofNat 12]

def intBase16 (chars : CharData) (cs : List Char) : Option ℕ :=
  let toAscii (c : Char) : Char :=
    if c.toNat < 127 then c
    else if chars.space c then ' '
    else match chars.decimal c with
      | some d => Nat.digitChar d
      | none => '?'
  let body := (cs.map toAscii).dropWhile (· ∈ asciiSpace)
  let unsigned := match body with
    | '+' :: rest => rest
    | rest => rest
  let digits := match unsigned with
    | '0' :: 'x' :: '_' :: rest => rest
    | '0' :: 'X' :: '_' :: rest => rest
    | '0' :: 'x' :: rest => rest
    | '0' :: 'X' :: rest => rest
    | rest => rest
  match scanHex 0 false digits with
  | some (n, trailing) => if trailing.all (· ∈ asciiSpace) then some n else none
  | none => none

def ofText (chars : CharData) (cs : List Char) : Option Uuid :=
  let bare := removeAll ['u', 'u', 'i', 'd', ':'] 0 (removeAll ['u', 'r', 'n', ':'] 0 cs)
  let hex := (stripChars ['\x7b', '\x7d'] bare).filter (· ≠ '-')
  if hex.length = 32 then
    match intBase16 chars hex with
    | some n => if h : n < 2 ^ 128 then some ⟨n, h⟩ else none
    | none => none
  else none

end Uuid

def daysInMonth (year month : ℕ) : ℕ :=
  if month = 2 then
    if year % 4 = 0 ∧ (year % 100 ≠ 0 ∨ year % 400 = 0) then 29 else 28
  else if month ∈ [4, 6, 9, 11] then 30
  else 31

/-- An aware `datetime`, by its fields in UTC. -/
structure DateTime where
  year : ℕ
  month : ℕ
  day : ℕ
  hour : ℕ
  minute : ℕ
  second : ℕ
  microsecond : ℕ
  valid : 1 ≤ year ∧ year ≤ 9999 ∧ 1 ≤ month ∧ month ≤ 12 ∧ 1 ≤ day ∧
    day ≤ daysInMonth year month ∧ hour < 24 ∧ minute < 60 ∧ second < 60 ∧ microsecond < 1000000
deriving DecidableEq

namespace DateTime

/-- `strftime("%Y-%m-%dT%H:%M:%S")`. -/
def seconds (t : DateTime) : List Char :=
  padDigits 10 4 t.year ++ '-' :: (padDigits 10 2 t.month ++ '-' :: (padDigits 10 2 t.day ++
    'T' :: (padDigits 10 2 t.hour ++ ':' :: (padDigits 10 2 t.minute ++
      ':' :: padDigits 10 2 t.second))))

/-- `strftime("%Y-%m-%dT%H:%M:%S.%f")`. -/
def micros (t : DateTime) : List Char := t.seconds ++ '.' :: padDigits 10 6 t.microsecond

def isoformat (t : DateTime) : List Char :=
  (if t.microsecond = 0 then t.seconds else t.micros) ++ ['+', '0', '0', ':', '0', '0']

end DateTime

end Memclaw.Lib
