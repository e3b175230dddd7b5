import Mathlib.Algebra.Ring.Nat

/-! SHA-256 as FIPS 180-4 defines it, on byte lists and by structural recursion
throughout, so that a digest of a concrete message reduces in the kernel. -/

namespace Memclaw.Lib.Sha256

abbrev Bytes := List UInt8

def roundConstants : List UInt32 := [
  0x428a2f98, 0x71374491, 0xb5c0fbcf, 0xe9b5dba5, 0x3956c25b, 0x59f111f1, 0x923f82a4, 0xab1c5ed5,
  0xd807aa98, 0x12835b01, 0x243185be, 0x550c7dc3, 0x72be5d74, 0x80deb1fe, 0x9bdc06a7, 0xc19bf174,
  0xe49b69c1, 0xefbe4786, 0x0fc19dc6, 0x240ca1cc, 0x2de92c6f, 0x4a7484aa, 0x5cb0a9dc, 0x76f988da,
  0x983e5152, 0xa831c66d, 0xb00327c8, 0xbf597fc7, 0xc6e00bf3, 0xd5a79147, 0x06ca6351, 0x14292967,
  0x27b70a85, 0x2e1b2138, 0x4d2c6dfc, 0x53380d13, 0x650a7354, 0x766a0abb, 0x81c2c92e, 0x92722c85,
  0xa2bfe8a1, 0xa81a664b, 0xc24b8b70, 0xc76c51a3, 0xd192e819, 0xd6990624, 0xf40e3585, 0x106aa070,
  0x19a4c116, 0x1e376c08, 0x2748774c, 0x34b0bcb5, 0x391c0cb3, 0x4ed8aa4a, 0x5b9cca4f, 0x682e6ff3,
  0x748f82ee, 0x78a5636f, 0x84c87814, 0x8cc70208, 0x90befffa, 0xa4506ceb, 0xbef9a3f7, 0xc67178f2]

structure State where
  (a b c d e f g h : UInt32)

def initial : State :=
  ⟨0x6a09e667, 0xbb67ae85, 0x3c6ef372, 0xa54ff53a, 0x510e527f, 0x9b05688c, 0x1f83d9ab, 0x5be0cd19⟩

def rotr (x n : UInt32) : UInt32 := (x >>> n) ||| (x <<< (32 - n))

def round (s : State) (kw : UInt32 × UInt32) : State :=
  let bigSigma1 := rotr s.e 6 ^^^ rotr s.e 11 ^^^ rotr s.e 25
  let choose := (s.e &&& s.f) ^^^ (~~~ s.e &&& s.g)
  let t1 := s.h + bigSigma1 + choose + kw.1 + kw.2
  let bigSigma0 := rotr s.a 2 ^^^ rotr s.a 13 ^^^ rotr s.a 22
  let majority := (s.a &&& s.b) ^^^ (s.a &&& s.c) ^^^ (s.b &&& s.c)
  ⟨t1 + (bigSigma0 + majority), s.a, s.b, s.c, s.d + t1, s.e, s.f, s.g⟩

def extend : Nat → List UInt32 → List UInt32
  | 0, _ => []
  | n + 1, window =>
    let w15 := window.getD 1 0
    let w2 := window.getD 14 0
    let sigma0 := rotr w15 7 ^^^ rotr w15 18 ^^^ (w15 >>> 3)
    let sigma1 := rotr w2 17 ^^^ rotr w2 19 ^^^ (w2 >>> 10)
    let w := window.getD 0 0 + sigma0 + window.getD 9 0 + sigma1
    w :: extend n (window.tail ++ [w])

def wordsOf : Bytes → List UInt32
  | a :: b :: c :: d :: rest =>
    (a.toUInt32 <<< 24 ||| b.toUInt32 <<< 16 ||| c.toUInt32 <<< 8 ||| d.toUInt32) :: wordsOf rest
  | _ => []

def compress (s : State) (block : List UInt32) : State :=
  let r := (roundConstants.zip (block ++ extend 48 block)).foldl round s
  ⟨s.a + r.a, s.b + r.b, s.c + r.c, s.d + r.d, s.e + r.e, s.f + r.f, s.g + r.g, s.h + r.h⟩

def compressBlocks : Nat → List UInt32 → State → State
  | 0, _, s => s
  | n + 1, words, s => compressBlocks n (words.drop 16) (compress s (words.take 16))

def bytesOfNat : Nat → Nat → Bytes
  | 0, _ => []
  | width + 1, x => UInt8.ofNat (x / 256 ^ width) :: bytesOfNat width x

def pad (message : Bytes) : Bytes :=
  message ++ 0x80 :: List.replicate ((119 - message.length % 64) % 64) 0 ++
    bytesOfNat 8 (8 * message.length)

def digest (s : State) : Bytes :=
  bytesOfNat 4 s.a.toNat ++ bytesOfNat 4 s.b.toNat ++ bytesOfNat 4 s.c.toNat ++
    bytesOfNat 4 s.d.toNat ++ bytesOfNat 4 s.e.toNat ++ bytesOfNat 4 s.f.toNat ++
    bytesOfNat 4 s.g.toNat ++ bytesOfNat 4 s.h.toNat

def sha256 (message : Bytes) : Bytes :=
  let padded := pad message
  digest (compressBlocks (padded.length / 64) (wordsOf padded) initial)

@[simp] theorem bytesOfNat_length (width x : Nat) : (bytesOfNat width x).length = width := by
  induction width with
  | zero => rfl
  | succ width ih => simp only [bytesOfNat, List.length_cons, ih]

@[simp] theorem sha256_length (message : Bytes) : (sha256 message).length = 32 := by
  simp only [sha256, digest, List.length_append, bytesOfNat_length]

example : (sha256 [0x61, 0x62, 0x63]).take 4 = [0xba, 0x78, 0x16, 0xbf] := by decide +kernel

def hexdigest (bytes : Bytes) : String :=
  String.ofList (bytes.flatMap fun b =>
    [Nat.digitChar (b.toNat / 16), Nat.digitChar (b.toNat % 16)])

end Memclaw.Lib.Sha256
