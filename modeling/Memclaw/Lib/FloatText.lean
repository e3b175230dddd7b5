import Mathlib.Algebra.Order.Ring.Int
import Mathlib.Tactic.Common
import Memclaw.Lib.DictDefs

/-! Python's `float` of an int and of a text, the order of floats with `min` and `max` of two of
them, and `str` of a JSON value. -/

namespace Memclaw.Lib

namespace Binary64

def signed (x : Binary64) : ℤ := if x.neg then -(x.num : ℤ) else x.num

def zero : Binary64 := ⟨false, 0, -1074, by decide⟩

theorem canonical_one :
    2 ^ 52 < 2 ^ 53 ∧ (-1074 : ℤ) ≤ -52 ∧ (-52 : ℤ) ≤ 971 ∧ (2 ^ 52 ≤ 2 ^ 52 ∨ (-52 : ℤ) = -1074) := by
  decide

def one : Binary64 := ⟨false, 2 ^ 52, -52, canonical_one⟩

def ofInt (i : ℤ) : Option Binary64 := ofFrac (i < 0) i.natAbs 1

theorem signed_zero : zero.signed = 0 := by decide

theorem signed_one : one.signed = one.den := by decide

end Binary64

namespace PyFloat

def lt : PyFloat → PyFloat → Bool
  | .finite x, .finite y => x.signed * y.den < y.signed * x.den
  | .infinite true, .finite _ => true
  | .finite _, .infinite false => true
  | .infinite true, .infinite false => true
  | _, _ => false

def pyMin (a b : PyFloat) : PyFloat := if b.lt a then b else a

def pyMax (a b : PyFloat) : PyFloat := if a.lt b then b else a

def InUnit : PyFloat → Prop
  | .finite x => 0 ≤ x.signed ∧ x.signed ≤ x.den
  | .infinite _ => False
  | .nan => False

def clamp (w : PyFloat) : PyFloat := pyMax (.finite .zero) (pyMin (.finite .one) w)

theorem inUnit_zero : (finite .zero).InUnit := by
  rw [InUnit, Binary64.signed_zero]
  exact ⟨le_rfl, Int.natCast_nonneg _⟩

theorem inUnit_one : (finite .one).InUnit := by
  rw [InUnit, Binary64.signed_one]
  exact ⟨Int.natCast_nonneg _, le_rfl⟩

theorem inUnit_clamp (w : PyFloat) : (clamp w).InUnit := by
  unfold clamp pyMax
  split_ifs with hzero
  · unfold pyMin at hzero ⊢
    split_ifs at hzero ⊢ with hone
    · cases w with
      | finite x =>
        have hpos : Binary64.zero.signed * x.den < x.signed * Binary64.zero.den :=
          of_decide_eq_true hzero
        have hlt : x.signed * Binary64.one.den < Binary64.one.signed * x.den :=
          of_decide_eq_true hone
        rw [Binary64.signed_zero, Int.zero_mul] at hpos
        rw [Binary64.signed_one, mul_comm] at hlt
        constructor
        · exact (pos_of_mul_pos_left hpos (Int.natCast_nonneg _)).le
        · exact (lt_of_mul_lt_mul_left hlt (Int.natCast_nonneg _)).le
      | infinite neg =>
        cases neg with
        | false => cases hone
        | true => cases hzero
      | nan => cases hzero
    · exact inUnit_one
  · exact inUnit_zero

end PyFloat

section FloatText

variable (chars : CharData)

def numberChar (c : Char) : Char :=
  if c.toNat < 127 then c
  else if chars.space c then ' '
  else match chars.decimal c with
    | some d => Nat.digitChar d
    | none => '?'

def scanDigitPart : ℕ → ℕ → Bool → List Char → Option ((ℕ × ℕ) × List Char)
  | acc, count, afterDigit, [] => if afterDigit then some ((acc, count), []) else none
  | acc, count, afterDigit, c :: cs =>
    if c = '_' then
      if afterDigit then scanDigitPart acc count false cs else none
    else if c.isDigit then scanDigitPart (10 * acc + (c.toNat - 48)) (count + 1) true cs
    else if afterDigit then some ((acc, count), c :: cs)
    else none

def scanFractionPart (whole : Option (ℕ × ℕ)) (cs : List Char) :
    Option ((ℕ × ℕ) × List Char) :=
  match cs with
  | c :: _ =>
    if c.isDigit then scanDigitPart ((whole.map Prod.fst).getD 0) 0 false cs
    else whole.map fun n => ((n.1, 0), cs)
  | [] => whole.map fun n => ((n.1, 0), [])

def scanExponentPart : List Char → Option ℤ
  | [] => some 0
  | e :: cs =>
    if e = 'e' ∨ e = 'E' then
      match cs with
      | '-' :: ds => (scanDigitPart 0 0 false ds).bind fun n =>
          if n.2 = [] then some (-(n.1.1 : ℤ)) else none
      | '+' :: ds => (scanDigitPart 0 0 false ds).bind fun n => if n.2 = [] then some n.1.1 else none
      | ds => (scanDigitPart 0 0 false ds).bind fun n => if n.2 = [] then some n.1.1 else none
    else none

def scanFloat (cs : List Char) : Option (ℕ × ℤ) := do
  let (whole, rest) ← match cs with
    | '.' :: _ => some (none, cs)
    | _ => (scanDigitPart 0 0 false cs).map fun n => (some n.1, n.2)
  let ((digits, places), rest) ← match rest with
    | '.' :: rest => scanFractionPart whole rest
    | _ => whole.map fun n => ((n.1, 0), rest)
  let k ← scanExponentPart rest
  some (digits, k - places)

def floatOfText (text : List Char) : Option PyFloat :=
  let ascii := text.map (numberChar chars)
  let body := Uuid.stripChars Uuid.asciiSpace ascii
  let (neg, unsigned) := match body with
    | '-' :: cs => (true, cs)
    | '+' :: cs => (false, cs)
    | cs => (false, cs)
  let name := String.ofList (unsigned.map Char.toLower)
  if name = "inf" ∨ name = "infinity" then some (.infinite neg)
  else if name = "nan" then some .nan
  else (scanFloat unsigned).map fun (digits, k) =>
    match Binary64.ofDecimal neg digits k with
    | some x => .finite x
    | none => .infinite neg

example : floatOfText CharData.ascii " -.5e0_1\n".toList = floatOfText CharData.ascii "-5".toList := by
  decide

end FloatText

namespace Json

mutual

def hasLongInt : Json → Bool
  | int i => 10 ^ 4300 ≤ i.natAbs
  | arr items => hasLongIntItems items
  | obj fields => hasLongIntFields fields
  | null => false
  | bool _ => false
  | float _ => false
  | str _ => false

def hasLongIntItems : List Json → Bool
  | [] => false
  | j :: js => j.hasLongInt || hasLongIntItems js

def hasLongIntFields : List (String × Json) → Bool
  | [] => false
  | (_, j) :: fields => j.hasLongInt || hasLongIntFields fields

end

def pyStr (printable : Char → Bool) (j : Json) : Option (List Char) :=
  match j with
  | str s => some s.toList
  | j => if j.hasLongInt then none else some (j.pyRepr printable)

end Json

end Memclaw.Lib
