import Mathlib.Data.List.Basic

/-!
# SHA-256

`crypto/sha256` of the Go library, as FIPS 180-4 has it. A message is padded to blocks of sixteen
words, and every block goes through sixty-four rounds.
-/

namespace Prismalama.Lib.Sha256

abbrev Word := UInt32

def rotr (x n : Word) : Word := (x >>> n) ||| (x <<< (32 - n))

def ch (x y z : Word) : Word := (x &&& y) ^^^ (~~~x &&& z)

def maj (x y z : Word) : Word := (x &&& y) ^^^ (x &&& z) ^^^ (y &&& z)

def bigSigma0 (x : Word) : Word := rotr x 2 ^^^ rotr x 13 ^^^ rotr x 22

def bigSigma1 (x : Word) : Word := rotr x 6 ^^^ rotr x 11 ^^^ rotr x 25

def sigma0 (x : Word) : Word := rotr x 7 ^^^ rotr x 18 ^^^ (x >>> 3)

def sigma1 (x : Word) : Word := rotr x 17 ^^^ rotr x 19 ^^^ (x >>> 10)

/-- The constants of the rounds. -/
def roundConstants : List Word := [
  0x428a2f98, 0x71374491, 0xb5c0fbcf, 0xe9b5dba5, 0x3956c25b, 0x59f111f1, 0x923f82a4, 0xab1c5ed5,
  0xd807aa98, 0x12835b01, 0x243185be, 0x550c7dc3, 0x72be5d74, 0x80deb1fe, 0x9bdc06a7, 0xc19bf174,
  0xe49b69c1, 0xefbe4786, 0x0fc19dc6, 0x240ca1cc, 0x2de92c6f, 0x4a7484aa, 0x5cb0a9dc, 0x76f988da,
  0x983e5152, 0xa831c66d, 0xb00327c8, 0xbf597fc7, 0xc6e00bf3, 0xd5a79147, 0x06ca6351, 0x14292967,
  0x27b70a85, 0x2e1b2138, 0x4d2c6dfc, 0x53380d13, 0x650a7354, 0x766a0abb, 0x81c2c92e, 0x92722c85,
  0xa2bfe8a1, 0xa81a664b, 0xc24b8b70, 0xc76c51a3, 0xd192e819, 0xd6990624, 0xf40e3585, 0x106aa070,
  0x19a4c116, 0x1e376c08, 0x2748774c, 0x34b0bcb5, 0x391c0cb3, 0x4ed8aa4a, 0x5b9cca4f, 0x682e6ff3,
  0x748f82ee, 0x78a5636f, 0x84c87814, 0x8cc70208, 0x90befffa, 0xa4506ceb, 0xbef9a3f7, 0xc67178f2]

structure State where
  a : Word
  b : Word
  c : Word
  d : Word
  e : Word
  f : Word
  g : Word
  h : Word

def init : State :=
  ⟨0x6a09e667, 0xbb67ae85, 0x3c6ef372, 0xa54ff53a, 0x510e527f, 0x9b05688c, 0x1f83d9ab, 0x5be0cd19⟩

/-- One more word of the schedule, which is held newest first. -/
def extend (w : List Word) : List Word :=
  (sigma1 (w.getD 1 0) + w.getD 6 0 + sigma0 (w.getD 14 0) + w.getD 15 0) :: w

def schedule (block : List Word) : List Word :=
  ((List.range 48).foldl (fun w _ => extend w) block.reverse).reverse

def round (s : State) (kw : Word × Word) : State :=
  let t₁ := s.h + bigSigma1 s.e + ch s.e s.f s.g + kw.1 + kw.2
  let t₂ := bigSigma0 s.a + maj s.a s.b s.c
  ⟨t₁ + t₂, s.a, s.b, s.c, s.d + t₁, s.e, s.f, s.g⟩

def compress (s : State) (block : List Word) : State :=
  let t := (roundConstants.zip (schedule block)).foldl round s
  ⟨s.a + t.a, s.b + t.b, s.c + t.c, s.d + t.d, s.e + t.e, s.f + t.f, s.g + t.g, s.h + t.h⟩

/-- The big-endian word of four bytes. -/
def word (bytes : List UInt8) : Word :=
  bytes.foldl (fun w b => (w <<< 8) ||| b.toUInt32) 0

/-- `n` bytes, big-endian. -/
def bytesOf (n v : Nat) : List UInt8 :=
  (List.range n).map fun i => UInt8.ofNat (v >>> (8 * (n - 1 - i)))

def pad (message : List UInt8) : List UInt8 :=
  message ++ 0x80 :: List.replicate ((119 - message.length % 64) % 64) 0 ++
    bytesOf 8 (8 * message.length)

/-- The first `count` pieces of `n` bytes. -/
def pieces (n : Nat) : Nat → List UInt8 → List (List UInt8)
  | 0, _ => []
  | count + 1, bytes => bytes.take n :: pieces n count (bytes.drop n)

def blocks (message : List UInt8) : List (List Word) :=
  (pieces 64 ((pad message).length / 64) (pad message)).map fun b => (pieces 4 16 b).map word

def State.words (s : State) : List Word := [s.a, s.b, s.c, s.d, s.e, s.f, s.g, s.h]

def sum256 (message : List UInt8) : List UInt8 :=
  ((blocks message).foldl compress init).words.flatMap fun w => bytesOf 4 w.toNat

/-- A sum has thirty-two bytes. -/
theorem length_sum256 (message : List UInt8) : (sum256 message).length = 32 := by
  simp [sum256, State.words, bytesOf]

-- the sum of `abc`
example : (sum256 [0x61, 0x62, 0x63]).take 4 = [0xba, 0x78, 0x16, 0xbf] := by decide +kernel

end Prismalama.Lib.Sha256
