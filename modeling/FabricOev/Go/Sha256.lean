import FabricOev.Go.Text

/-!
# SHA-256

The digest of `crypto/sha256`, on words that are naturals below `2 ^ 32`, and the
lower-case form of `hex.EncodeToString`. The model takes the hash as a parameter; this is
the function the peers put there.
-/

namespace FabricOev.Go

namespace Sha256

def word (n : Nat) : Nat := n % 2 ^ 32

def rotr (x n : Nat) : Nat := x >>> n ||| word (x <<< (32 - n))

def bigSigma0 (x : Nat) : Nat := (rotr x 2).xor ((rotr x 13).xor (rotr x 22))
def bigSigma1 (x : Nat) : Nat := (rotr x 6).xor ((rotr x 11).xor (rotr x 25))
def sigma0 (x : Nat) : Nat := (rotr x 7).xor ((rotr x 18).xor (x >>> 3))
def sigma1 (x : Nat) : Nat := (rotr x 17).xor ((rotr x 19).xor (x >>> 10))

def ch (x y z : Nat) : Nat := (x &&& y).xor ((2 ^ 32 - 1 - x) &&& z)
def maj (x y z : Nat) : Nat := (x &&& y).xor ((x &&& z).xor (y &&& z))

def roundConstants : List Nat := [
  0x428a2f98, 0x71374491, 0xb5c0fbcf, 0xe9b5dba5, 0x3956c25b, 0x59f111f1, 0x923f82a4, 0xab1c5ed5,
  0xd807aa98, 0x12835b01, 0x243185be, 0x550c7dc3, 0x72be5d74, 0x80deb1fe, 0x9bdc06a7, 0xc19bf174,
  0xe49b69c1, 0xefbe4786, 0x0fc19dc6, 0x240ca1cc, 0x2de92c6f, 0x4a7484aa, 0x5cb0a9dc, 0x76f988da,
  0x983e5152, 0xa831c66d, 0xb00327c8, 0xbf597fc7, 0xc6e00bf3, 0xd5a79147, 0x06ca6351, 0x14292967,
  0x27b70a85, 0x2e1b2138, 0x4d2c6dfc, 0x53380d13, 0x650a7354, 0x766a0abb, 0x81c2c92e, 0x92722c85,
  0xa2bfe8a1, 0xa81a664b, 0xc24b8b70, 0xc76c51a3, 0xd192e819, 0xd6990624, 0xf40e3585, 0x106aa070,
  0x19a4c116, 0x1e376c08, 0x2748774c, 0x34b0bcb5, 0x391c0cb3, 0x4ed8aa4a, 0x5b9cca4f, 0x682e6ff3,
  0x748f82ee, 0x78a5636f, 0x84c87814, 0x8cc70208, 0x90befffa, 0xa4506ceb, 0xbef9a3f7, 0xc67178f2]

structure Working where
  a : Nat
  b : Nat
  c : Nat
  d : Nat
  e : Nat
  f : Nat
  g : Nat
  h : Nat
deriving DecidableEq, Repr

def initial : Working :=
  ⟨0x6a09e667, 0xbb67ae85, 0x3c6ef372, 0xa54ff53a, 0x510e527f, 0x9b05688c, 0x1f83d9ab, 0x5be0cd19⟩

def round (s : Working) (kw : Nat) : Working :=
  let t1 := s.h + bigSigma1 s.e + ch s.e s.f s.g + kw
  let t2 := bigSigma0 s.a + maj s.a s.b s.c
  ⟨word (t1 + t2), s.a, s.b, s.c, word (s.d + t1), s.e, s.f, s.g⟩

/-- The message schedule, the newest word first. -/
def extend : Nat → List Nat → List Nat
  | 0, ws => ws
  | n + 1, ws =>
    extend n (word (sigma1 (ws.getD 1 0) + ws.getD 6 0 + sigma0 (ws.getD 14 0) + ws.getD 15 0) :: ws)

def compress (s : Working) (block : List Nat) : Working :=
  let ws := (extend 48 block.reverse).reverse
  let t := (List.zipWith (· + ·) roundConstants ws).foldl round s
  ⟨word (s.a + t.a), word (s.b + t.b), word (s.c + t.c), word (s.d + t.d), word (s.e + t.e),
    word (s.f + t.f), word (s.g + t.g), word (s.h + t.h)⟩

def bigEndian (bytes n : Nat) : Bytes :=
  (List.range bytes).map fun i => UInt8.ofNat (n >>> (8 * (bytes - 1 - i)))

/-- The message with its one bit, its zeros and its length in bits. -/
def pad (b : Bytes) : Bytes :=
  b ++ [0x80] ++ List.replicate ((119 - b.length % 64) % 64) 0 ++ bigEndian 8 (b.length * 8)

def toWords : Bytes → List Nat
  | b₀ :: b₁ :: b₂ :: b₃ :: t =>
    (((b₀.toNat * 256 + b₁.toNat) * 256 + b₂.toNat) * 256 + b₃.toNat) :: toWords t
  | _ => []

def digestLoop : Nat → Working → List Nat → Working
  | 0, s, _ => s
  | n + 1, s, ws => digestLoop n (compress s (ws.take 16)) (ws.drop 16)

end Sha256

open Sha256 in
def sha256 (b : Bytes) : Bytes :=
  let p := pad b
  let s := digestLoop (p.length / 64) initial (toWords p)
  [s.a, s.b, s.c, s.d, s.e, s.f, s.g, s.h].flatMap (bigEndian 4)

def hexDigitByte (n : Nat) : UInt8 := UInt8.ofNat (if n < 10 then 48 + n else 87 + n)

def hexEncode (b : Bytes) : GoString :=
  b.flatMap fun c => [hexDigitByte (c.toNat / 16), hexDigitByte (c.toNat % 16)]

example : hexEncode (sha256 (str "abc")) =
    str "ba7816bf8f01cfea414140de5dae2223b00361a396177a9cb410ff61f20015ad" := by
  decide +kernel

end FabricOev.Go
