import Mathlib.Algebra.Ring.Nat

/-! Finite IEEE-754 binary64 numbers, their decimal conversions in both
directions, and the text of Python's `repr(float)`. Everything here is exact
natural-number arithmetic, so a conversion of a concrete number reduces. -/

namespace Memclaw.Lib

/-- A finite binary64 number `± mant · 2 ^ exp`, in its one canonical form: the
significand is full, or the exponent is the subnormal one. -/
structure Binary64 where
  neg : Bool
  mant : Nat
  exp : Int
  canonical : mant < 2 ^ 53 ∧ -1074 ≤ exp ∧ exp ≤ 971 ∧ (2 ^ 52 ≤ mant ∨ exp = -1074)
deriving DecidableEq

namespace Binary64

def mk? (neg : Bool) (mant : Nat) (exp : Int) : Option Binary64 :=
  if h : mant < 2 ^ 53 ∧ -1074 ≤ exp ∧ exp ≤ 971 ∧ (2 ^ 52 ≤ mant ∨ exp = -1074) then
    some ⟨neg, mant, exp, h⟩
  else none

def num (x : Binary64) : Nat := x.mant * 2 ^ x.exp.toNat

def den (x : Binary64) : Nat := 2 ^ (-x.exp).toNat

def isInteger (x : Binary64) : Bool := x.num % x.den == 0

def natAbs (x : Binary64) : Nat := x.num / x.den

def toInt (x : Binary64) : Int := if x.neg then -(x.natAbs : Int) else x.natAbs

/-- The integer nearest to `p / q`, ties to even. -/
def roundQuot (p q : Nat) : Nat :=
  if 2 * (p % q) < q then p / q
  else if q < 2 * (p % q) then p / q + 1
  else p / q + (p / q) % 2

def floorLog2 (n d : Nat) : Int :=
  let k := (n.log2 : Int) - d.log2
  if d * 2 ^ k.toNat ≤ n * 2 ^ (-k).toNat then k else k - 1

/-- The nearest binary64 number to `n / d`, ties to even; nothing on overflow. -/
def ofFrac (neg : Bool) (n d : Nat) : Option Binary64 :=
  if n = 0 then mk? neg 0 (-1074)
  else
    let e := max (-1074) (floorLog2 n d - 52)
    let m := roundQuot (n * 2 ^ (-e).toNat) (d * 2 ^ e.toNat)
    if m = 2 ^ 53 then mk? neg (2 ^ 52) (e + 1) else mk? neg m e

def ofDecimal (neg : Bool) (digits : Nat) (k : Int) : Option Binary64 :=
  ofFrac neg (digits * 10 ^ k.toNat) (10 ^ (-k).toNat)

/-- The multiple of `10 ^ k` that rounds to `x`, if one of the two neighbours of `x`
does: the nearer one when both do, the even one when they are equally near. -/
def candidate (x : Binary64) (k : Int) : Option Nat :=
  let p := x.num * 10 ^ (-k).toNat
  let q := x.den * 10 ^ k.toNat
  let below := p / q
  let belowOk := ofDecimal x.neg below k = some x
  let aboveOk := ofDecimal x.neg (below + 1) k = some x
  if belowOk ∧ aboveOk then some (roundQuot p q)
  else if belowOk then some below
  else if aboveOk then some (below + 1)
  else none

/-- Walks down from the coarsest grid; a coarser grid means fewer digits. The exact
decimal expansion ends the walk, and rounds to `x` like every candidate does. -/
def searchShortest (x : Binary64) : Nat → Int → Nat × Int
  | 0, _ => (x.mant * 2 ^ x.exp.toNat * 5 ^ (-x.exp).toNat, -((-x.exp).toNat : Int))
  | fuel + 1, k =>
    match candidate x k with
    | some digits => (digits, k)
    | none => searchShortest x fuel (k - 1)

def shortest (x : Binary64) : Nat × Int :=
  if x.mant = 0 then (0, 0) else searchShortest x 1400 310

/-- The exponent has at least two digits. -/
def formatExponent (e : Int) : List Char :=
  let digits := Nat.toDigits 10 e.natAbs
  (if 0 ≤ e then '+' else '-') :: (if digits.length < 2 then '0' :: digits else digits)

def formatScientific (digits : List Char) (e : Int) : List Char :=
  digits.take 1 ++ (if digits.drop 1 = [] then [] else '.' :: digits.drop 1) ++
    'e' :: formatExponent e

def formatRepr (digits : List Char) (point : Int) : List Char :=
  if -4 < point ∧ point ≤ 16 then
    if point ≤ 0 then
      '0' :: '.' :: (List.replicate (-point).toNat '0' ++ digits)
    else if (digits.length : Int) ≤ point then
      digits ++ List.replicate (point.toNat - digits.length) '0' ++ ['.', '0']
    else
      digits.take point.toNat ++ '.' :: digits.drop point.toNat
  else formatScientific digits (point - 1)

def reprMagnitude (x : Binary64) : List Char :=
  let (d, k) := x.shortest
  let digits := Nat.toDigits 10 d
  formatRepr digits (digits.length + k)

def repr (x : Binary64) : List Char :=
  if x.neg then '-' :: x.reprMagnitude else x.reprMagnitude

def readExponent : List Char → Int
  | '-' :: ds => -(Nat.ofDigitChars 10 ds 0 : Int)
  | '+' :: ds => Nat.ofDigitChars 10 ds 0
  | ds => Nat.ofDigitChars 10 ds 0

/-- An unsigned decimal literal as `digits · 10 ^ k`; `k` is negative exactly when the
literal, written without an exponent, has digits after its point. -/
def readDecimal (cs : List Char) : Nat × Int :=
  let mantissa := cs.takeWhile (· ≠ 'e')
  let exponent := (cs.dropWhile (· ≠ 'e')).tail
  let whole := mantissa.takeWhile (· ≠ '.')
  let fraction := (mantissa.dropWhile (· ≠ '.')).tail
  (Nat.ofDigitChars 10 (whole ++ fraction) 0, readExponent exponent - fraction.length)

def printed (x : Binary64) : Nat × Int := readDecimal x.reprMagnitude

def ofText : List Char → Option Binary64
  | '-' :: cs => ofDecimal true (readDecimal cs).1 (readDecimal cs).2
  | cs => ofDecimal false (readDecimal cs).1 (readDecimal cs).2

end Binary64

end Memclaw.Lib
