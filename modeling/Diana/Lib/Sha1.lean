import Diana.Lib.Sha256

/-!
# The secure hash standard: SHA-1

The definitions of the standard (FIPS 180-4) for a message of whole bytes. The padding and the words
of a block are those of SHA-256.

* `schedule`, `rounds`, `compress`: a block;
* `sha1`: the digest.
-/

namespace Diana.Lib.Sha1

open Diana.Lib.Sha256 (Word Ch Maj wordAt wordBytes pad)

def Parity (x y z : Word) : Word := x ^^^ y ^^^ z

/-- The function and the constant of the rounds from `20 * phase` on. -/
def phaseFunction : (phase : Nat) → Word → Word → Word → Word
  | 0 => Ch
  | 2 => Maj
  | _ => Parity

def phaseConstant : (phase : Nat) → Word
  | 0 => 0x5a827999
  | 1 => 0x6ed9eba1
  | 2 => 0x8f1bbcdc
  | _ => 0xca62c1d6

structure Hash where
  a : Word
  b : Word
  c : Word
  d : Word
  e : Word
  deriving DecidableEq, Repr

/-- `H^(0)` -/
def initial : Hash := ⟨0x67452301, 0xefcdab89, 0x98badcfe, 0x10325476, 0xc3d2e1f0⟩

/-- `W_t` -/
def schedule (block : List (BitVec 8)) (t : Nat) : Word :=
  if t < 16 then wordAt block t
  else (schedule block (t - 3) ^^^ schedule block (t - 8) ^^^ schedule block (t - 14) ^^^
    schedule block (t - 16)).rotateLeft 1

theorem schedule_of_lt (block : List (BitVec 8)) {t : Nat} (h : t < 16) :
    schedule block t = wordAt block t := by
  rw [schedule, if_pos h]

theorem schedule_of_le (block : List (BitVec 8)) {t : Nat} (h : 16 ≤ t) :
    schedule block t =
      (schedule block (t - 3) ^^^ schedule block (t - 8) ^^^ schedule block (t - 14) ^^^
        schedule block (t - 16)).rotateLeft 1 := by
  rw [schedule, if_neg (by omega)]

def round (phase : Nat) (W : Word) (v : Hash) : Hash :=
  ⟨v.a.rotateLeft 5 + phaseFunction phase v.b v.c v.d + v.e + phaseConstant phase + W, v.a,
    v.b.rotateLeft 30, v.c, v.d⟩

/-- The first rounds of a block. -/
def rounds (block : List (BitVec 8)) (H : Hash) : Nat → Hash
  | 0 => H
  | t + 1 => round (t / 20) (schedule block t) (rounds block H t)

/-- `H^(i)` from `H^(i-1)` and the block. -/
def compress (H : Hash) (block : List (BitVec 8)) : Hash :=
  let v := rounds block H 80
  ⟨v.a + H.a, v.b + H.b, v.c + H.c, v.d + H.d, v.e + H.e⟩

def Hash.words (H : Hash) : List Word := [H.a, H.b, H.c, H.d, H.e]

def Hash.bytes (H : Hash) : List (BitVec 8) := H.words.flatMap wordBytes

/-- The hash of a message that the standard allows. -/
def sha1 (m : List (BitVec 8)) :
    List (BitVec 8) := (chain compress 64 initial (pad m) ((pad m).length / 64)).bytes

end Diana.Lib.Sha1
