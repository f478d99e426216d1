import Mathlib.Data.Nat.NthRoot.Defs
import Mathlib.Data.Nat.Prime.Defs
import Mathlib.Data.List.Basic
import Diana.Lib.BlockStream

/-!
# The secure hash standard: SHA-256

The definitions of the standard (FIPS 180-4) for a message of whole bytes: functions on words,
constants from the roots of primes, padding, the message schedule and the rounds.

* `pad`: the padded message;
* `sha256`: the digest.
-/

namespace Diana.Lib.Sha256

abbrev Word := BitVec 32

/-! ## Functions and constants -/

def Ch (x y z : Word) : Word := (x &&& y) ^^^ (~~~x &&& z)
def Maj (x y z : Word) : Word := (x &&& y) ^^^ (x &&& z) ^^^ (y &&& z)
def bigSigma0 (x : Word) : Word := x.rotateRight 2 ^^^ x.rotateRight 13 ^^^ x.rotateRight 22
def bigSigma1 (x : Word) : Word := x.rotateRight 6 ^^^ x.rotateRight 11 ^^^ x.rotateRight 25
def smallSigma0 (x : Word) : Word := x.rotateRight 7 ^^^ x.rotateRight 18 ^^^ x >>> 3
def smallSigma1 (x : Word) : Word := x.rotateRight 17 ^^^ x.rotateRight 19 ^^^ x >>> 10

def isPrime (n : Nat) : Bool := 2 ≤ n && (List.range n).all fun d => d < 2 || n % d != 0

/-- The first 64 primes. -/
def primes : List Nat := (List.range 312).filter isPrime

/-- The first 32 bits of the fractional part of the `k`-th root of a prime. -/
def rootBits (k p : Nat) : Word := BitVec.ofNat 32 (Nat.nthRoot k (p * 2 ^ (32 * k)))

/-- `K_t` -/
def constant (t : Nat) : Word := rootBits 3 (primes.getD t 0)

structure Hash where
  a : Word
  b : Word
  c : Word
  d : Word
  e : Word
  f : Word
  g : Word
  h : Word
  deriving DecidableEq, Repr

/-- `H^(0)` -/
def initial : Hash where
  a := rootBits 2 (primes.getD 0 0)
  b := rootBits 2 (primes.getD 1 0)
  c := rootBits 2 (primes.getD 2 0)
  d := rootBits 2 (primes.getD 3 0)
  e := rootBits 2 (primes.getD 4 0)
  f := rootBits 2 (primes.getD 5 0)
  g := rootBits 2 (primes.getD 6 0)
  h := rootBits 2 (primes.getD 7 0)

/-! ## Padding -/

/-- The number of zero bytes behind the byte that holds the one bit. -/
def zeros (n : Nat) : Nat := (55 + 64 - n % 64) % 64

/-- A number of bits in eight bytes, the high one first. -/
def lengthBytes (bits : Nat) :
    List (BitVec 8) := (List.range 8).map fun i => BitVec.ofNat 8 (bits / 256 ^ (7 - i))

def pad (m : List (BitVec 8)) : List (BitVec 8) :=
  m ++ 0x80 :: (List.replicate (zeros m.length) 0 ++ lengthBytes (8 * m.length))

/-! ## The digest -/

/-- `M_j`: four bytes of a block, the high one first. -/
def wordAt (block : List (BitVec 8)) (j : Nat) : Word :=
  BitVec.ofNat 32
    ((block.getD (4 * j) 0).toNat * 2 ^ 24 + (block.getD (4 * j + 1) 0).toNat * 2 ^ 16 +
      (block.getD (4 * j + 2) 0).toNat * 2 ^ 8 + (block.getD (4 * j + 3) 0).toNat)

/-- `W_t` -/
def schedule (block : List (BitVec 8)) (t : Nat) : Word :=
  if t < 16 then wordAt block t
  else
    smallSigma1 (schedule block (t - 2)) + schedule block (t - 7) + smallSigma0
      (schedule block (t - 15)) + schedule block (t - 16)

theorem schedule_of_lt (block : List (BitVec 8)) {t : Nat} (h : t < 16) :
    schedule block t = wordAt block t := by
  rw [schedule, if_pos h]

theorem schedule_of_le (block : List (BitVec 8)) {t : Nat} (h : 16 ≤ t) :
    schedule block t =
      smallSigma1 (schedule block (t - 2)) + schedule block (t - 7) + smallSigma0
      (schedule block (t - 15)) +
        schedule block (t - 16) := by
  rw [schedule, if_neg (by omega)]

def round (K W : Word) (v : Hash) : Hash :=
  let T1 := v.h + bigSigma1 v.e + Ch v.e v.f v.g + K + W
  let T2 := bigSigma0 v.a + Maj v.a v.b v.c
  ⟨T1 + T2, v.a, v.b, v.c, v.d + T1, v.e, v.f, v.g⟩

/-- The first rounds of a block. -/
def rounds (block : List (BitVec 8)) (H : Hash) : Nat → Hash
  | 0 => H
  | t + 1 => round (constant t) (schedule block t) (rounds block H t)

/-- `H^(i)` from `H^(i-1)` and the block. -/
def compress (H : Hash) (block : List (BitVec 8)) : Hash :=
  let v := rounds block H 64
  ⟨v.a + H.a, v.b + H.b, v.c + H.c, v.d + H.d, v.e + H.e, v.f + H.f, v.g + H.g, v.h + H.h⟩

def Hash.words (H : Hash) : List Word := [H.a, H.b, H.c, H.d, H.e, H.f, H.g, H.h]

/-- A word in four bytes, the high one first. -/
def wordBytes (w : Word) :
    List (BitVec 8) := (List.range 4).map fun i => BitVec.ofNat 8 (w.toNat / 256 ^ (3 - i))

def Hash.bytes (H : Hash) : List (BitVec 8) := H.words.flatMap wordBytes

/-- The hash of a message that the standard allows. -/
def sha256 (m : List (BitVec 8)) : List (BitVec 8) :=
  (chain compress 64 initial (pad m) ((pad m).length / 64)).bytes

/-- A digit as a text has it. -/
def hexDigit (d : Nat) : BitVec 8 := if d < 10 then BitVec.ofNat 8 (48 + d)
    else BitVec.ofNat 8 (87 + d)

/-- Two digits for each byte. -/
def hex (bytes : List (BitVec 8)) : List (BitVec 8) :=
  bytes.flatMap fun b => [hexDigit (b.toNat / 16), hexDigit (b.toNat % 16)]

end Diana.Lib.Sha256
