import Mathlib.Data.List.Basic

/-! # SHA-256

The hash function of FIPS 180-4 on byte strings. Words are natural numbers below
`2 ^ 32`; nothing here depends on what the function computes but the length of
its digest.
-/

namespace Sha256

abbrev Word := Nat

def modulus : Nat := 4294967296

def rotr (count : Nat) (x : Word) : Word :=
  (x >>> count) ||| ((x <<< (32 - count)) % modulus)

def sum (words : List Word) : Word := words.foldl (· + ·) 0 % modulus

def choose (x y z : Word) : Word := (x &&& y) ^^^ ((x ^^^ (modulus - 1)) &&& z)
def majority (x y z : Word) : Word := (x &&& y) ^^^ (x &&& z) ^^^ (y &&& z)
def upper0 (x : Word) : Word := rotr 2 x ^^^ rotr 13 x ^^^ rotr 22 x
def upper1 (x : Word) : Word := rotr 6 x ^^^ rotr 11 x ^^^ rotr 25 x
def lower0 (x : Word) : Word := rotr 7 x ^^^ rotr 18 x ^^^ (x >>> 3)
def lower1 (x : Word) : Word := rotr 17 x ^^^ rotr 19 x ^^^ (x >>> 10)

/-- The first 32 bits of the fractional parts of the cube roots of the first 64 primes. -/
def constants : List Word :=
  [0x428a2f98, 0x71374491, 0xb5c0fbcf, 0xe9b5dba5, 0x3956c25b, 0x59f111f1, 0x923f82a4, 0xab1c5ed5,
    0xd807aa98, 0x12835b01, 0x243185be, 0x550c7dc3, 0x72be5d74, 0x80deb1fe, 0x9bdc06a7, 0xc19bf174,
    0xe49b69c1, 0xefbe4786, 0x0fc19dc6, 0x240ca1cc, 0x2de92c6f, 0x4a7484aa, 0x5cb0a9dc, 0x76f988da,
    0x983e5152, 0xa831c66d, 0xb00327c8, 0xbf597fc7, 0xc6e00bf3, 0xd5a79147, 0x06ca6351, 0x14292967,
    0x27b70a85, 0x2e1b2138, 0x4d2c6dfc, 0x53380d13, 0x650a7354, 0x766a0abb, 0x81c2c92e, 0x92722c85,
    0xa2bfe8a1, 0xa81a664b, 0xc24b8b70, 0xc76c51a3, 0xd192e819, 0xd6990624, 0xf40e3585, 0x106aa070,
    0x19a4c116, 0x1e376c08, 0x2748774c, 0x34b0bcb5, 0x391c0cb3, 0x4ed8aa4a, 0x5b9cca4f, 0x682e6ff3,
    0x748f82ee, 0x78a5636f, 0x84c87814, 0x8cc70208, 0x90befffa, 0xa4506ceb, 0xbef9a3f7, 0xc67178f2]

/-- The working variables of the compression. -/
structure State where
  a : Word
  b : Word
  c : Word
  d : Word
  e : Word
  f : Word
  g : Word
  h : Word

/-- The first 32 bits of the fractional parts of the square roots of the first 8 primes. -/
def State.initial : State :=
  ⟨0x6a09e667, 0xbb67ae85, 0x3c6ef372, 0xa54ff53a, 0x510e527f, 0x9b05688c, 0x1f83d9ab, 0x5be0cd19⟩

def State.add (s t : State) : State :=
  ⟨sum [s.a, t.a], sum [s.b, t.b], sum [s.c, t.c], sum [s.d, t.d], sum [s.e, t.e], sum [s.f, t.f],
    sum [s.g, t.g], sum [s.h, t.h]⟩

def State.words (s : State) : List Word := [s.a, s.b, s.c, s.d, s.e, s.f, s.g, s.h]

/-- Extend the schedule, which is kept newest first, by `count` words. -/
def extend : Nat → List Word → List Word
  | 0, schedule => schedule
  | count + 1, schedule =>
      extend count (sum [lower1 (schedule.getD 1 0), schedule.getD 6 0,
        lower0 (schedule.getD 14 0), schedule.getD 15 0] :: schedule)

def round (s : State) (input : Word × Word) : State :=
  let first := sum [s.h, upper1 s.e, choose s.e s.f s.g, input.1, input.2]
  let second := sum [upper0 s.a, majority s.a s.b s.c]
  ⟨sum [first, second], s.a, s.b, s.c, sum [s.d, first], s.e, s.f, s.g⟩

def compress (state : State) (block : List Word) : State :=
  let schedule := (extend 48 block.reverse).reverse
  state.add ((constants.zip schedule).foldl round state)

/-- The bytes of a number, most significant first. -/
def bigEndian : Nat → Nat → List UInt8
  | 0, _ => []
  | count + 1, n => bigEndian count (n / 256) ++ [UInt8.ofNat (n % 256)]

def pad (message : List UInt8) : List UInt8 :=
  message ++ 0x80 :: List.replicate ((119 - message.length % 64) % 64) 0 ++
    bigEndian 8 (8 * message.length)

def wordsOf : List UInt8 → List Word
  | a :: b :: c :: d :: rest =>
      (((a.toNat * 256 + b.toNat) * 256 + c.toNat) * 256 + d.toNat) :: wordsOf rest
  | _ => []

def blocksOf : Nat → List Word → List (List Word)
  | 0, _ => []
  | count + 1, words => words.take 16 :: blocksOf count (words.drop 16)

/-- The digest of a message, 32 bytes. -/
def digest (message : List UInt8) : List UInt8 :=
  let words := wordsOf (pad message)
  ((blocksOf (words.length / 16) words).foldl compress State.initial).words.flatMap (bigEndian 4)

theorem bigEndian_length (count n : Nat) : (bigEndian count n).length = count := by
  induction count generalizing n with
  | zero => rfl
  | succ count ih => rw [bigEndian, List.length_append, ih, List.length_singleton]

theorem digest_length (message : List UInt8) : (digest message).length = 32 := by
  simp [digest, State.words, bigEndian_length]

example : digest [0x61, 0x62, 0x63] =
    [0xba, 0x78, 0x16, 0xbf, 0x8f, 0x01, 0xcf, 0xea, 0x41, 0x41, 0x40, 0xde, 0x5d, 0xae, 0x22, 0x23,
      0xb0, 0x03, 0x61, 0xa3, 0x96, 0x17, 0x7a, 0x9c, 0xb4, 0x10, 0xff, 0x61, 0xf2, 0x00, 0x15,
      0xad] := by
  decide +kernel

end Sha256
