import Mathlib.Tactic.Common
import Memclaw.Lib.Json

/-! Base64 and UTF-8 as a cursor uses them: what `b64encode` writes `b64decode(validate=True)`
reads back, and so do `str.encode` and `bytes.decode`. -/

namespace Memclaw.Lib

namespace Base64

def alphabet : List Char :=
  "ABCDEFGHIJKLMNOPQRSTUVWXYZabcdefghijklmnopqrstuvwxyz0123456789+/".toList

def letter (sextet : Nat) : Char := alphabet.getD sextet '='

def sextet (c : Char) : Option Nat := alphabet.findIdx? (· = c)

def encode : Sha256.Bytes → List Char
  | [] => []
  | [a] => [letter (a.toNat / 4), letter (a.toNat % 4 * 16), '=', '=']
  | [a, b] => [letter (a.toNat / 4), letter (a.toNat % 4 * 16 + b.toNat / 16),
      letter (b.toNat % 16 * 4), '=']
  | a :: b :: c :: rest => letter (a.toNat / 4) :: letter (a.toNat % 4 * 16 + b.toNat / 16) ::
      letter (b.toNat % 16 * 4 + c.toNat / 64) :: letter (c.toNat % 64) :: encode rest

def group (p q r s : Char) (last : Bool) : Option Sha256.Bytes :=
  match sextet p, sextet q, sextet r, sextet s with
  | some w, some x, some y, some z =>
    some [UInt8.ofNat (w * 4 + x / 16), UInt8.ofNat (x % 16 * 16 + y / 4),
      UInt8.ofNat (y % 4 * 64 + z)]
  | some w, some x, some y, none =>
    if last ∧ s = '=' then
      some [UInt8.ofNat (w * 4 + x / 16), UInt8.ofNat (x % 16 * 16 + y / 4)]
    else none
  | some w, some x, none, none =>
    if last ∧ r = '=' ∧ s = '=' then some [UInt8.ofNat (w * 4 + x / 16)] else none
  | _, _, _, _ => none

/-- `base64.b64decode(text, validate=True)`; nothing where it raises. -/
def decode : List Char → Option Sha256.Bytes
  | [] => some []
  | p :: q :: r :: s :: rest => do
    let bytes ← group p q r s rest.isEmpty
    let more ← decode rest
    return bytes ++ more
  | _ => none

theorem sextet_letter : ∀ n < 64, sextet (letter n) = some n := by decide

theorem sextet_pad : sextet '=' = none := by decide

theorem first_byte (a : UInt8) {x : Nat} (hx : x < 16) :
    UInt8.ofNat (a.toNat / 4 * 4 + (a.toNat % 4 * 16 + x) / 16) = a := by
  have : a.toNat / 4 * 4 + (a.toNat % 4 * 16 + x) / 16 = a.toNat := by omega
  rw [this, UInt8.ofNat_toNat]

theorem second_byte {a : Nat} (b : UInt8) {y : Nat} (hy : y < 4) :
    UInt8.ofNat ((a * 16 + b.toNat / 16) % 16 * 16 + (b.toNat % 16 * 4 + y) / 4) = b := by
  have hb := b.toNat_lt
  have : (a * 16 + b.toNat / 16) % 16 * 16 + (b.toNat % 16 * 4 + y) / 4 = b.toNat := by omega
  rw [this, UInt8.ofNat_toNat]

theorem third_byte {b : Nat} (c : UInt8) :
    UInt8.ofNat ((b * 4 + c.toNat / 64) % 4 * 64 + c.toNat % 64) = c := by
  have hc := c.toNat_lt
  have : (b * 4 + c.toNat / 64) % 4 * 64 + c.toNat % 64 = c.toNat := by omega
  rw [this, UInt8.ofNat_toNat]

theorem decode_encode (bytes : Sha256.Bytes) : decode (encode bytes) = some bytes := by
  induction bytes using encode.induct with
  | case1 => rfl
  | case2 a =>
    have ha := a.toNat_lt
    have hfirst := first_byte a (x := 0) (by decide)
    rw [Nat.add_zero] at hfirst
    simp only [encode, decode, group, sextet_letter (a.toNat / 4) (by omega),
      sextet_letter (a.toNat % 4 * 16) (by omega), sextet_pad, List.isEmpty_nil, and_self, if_true,
      Option.bind_eq_bind, Option.bind_some, Option.pure_def, List.append_nil, hfirst]
  | case3 a b =>
    have ha := a.toNat_lt
    have hb := b.toNat_lt
    have hsecond := second_byte (a := a.toNat % 4) b (y := 0) (by decide)
    rw [Nat.add_zero] at hsecond
    simp only [encode, decode, group, sextet_letter (a.toNat / 4) (by omega),
      sextet_letter (a.toNat % 4 * 16 + b.toNat / 16) (by omega),
      sextet_letter (b.toNat % 16 * 4) (by omega), sextet_pad, List.isEmpty_nil, and_self, if_true,
      Option.bind_eq_bind, Option.bind_some, Option.pure_def, List.append_nil,
      first_byte a (show b.toNat / 16 < 16 by omega), hsecond]
  | case4 a b c rest ih =>
    have ha := a.toNat_lt
    have hb := b.toNat_lt
    have hc := c.toNat_lt
    simp only [encode, decode, group, sextet_letter (a.toNat / 4) (by omega),
      sextet_letter (a.toNat % 4 * 16 + b.toNat / 16) (by omega),
      sextet_letter (b.toNat % 16 * 4 + c.toNat / 64) (by omega),
      sextet_letter (c.toNat % 64) (by omega), ih, Option.bind_eq_bind, Option.bind_some,
      Option.pure_def, first_byte a (show b.toNat / 16 < 16 by omega),
      second_byte b (show c.toNat / 64 < 4 by omega), third_byte, List.cons_append, List.nil_append]

end Base64

def decodeUtf8 (bytes : Sha256.Bytes) : Option (List Char) :=
  (bytes.toByteArray.utf8Decode?).map Array.toList

theorem decodeUtf8_encodeUtf8 (cs : List Char) : decodeUtf8 (encodeUtf8 cs) = some cs := by
  have hbytes : (encodeUtf8 cs).toByteArray = cs.utf8Encode := rfl
  rw [decodeUtf8, hbytes, List.utf8Decode?_utf8Encode]
  rfl

end Memclaw.Lib
