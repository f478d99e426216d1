import Mathlib.Algebra.Group.Int.Defs
import Mathlib.Algebra.Group.Nat.Defs
import Mathlib.Tactic.Common

/-!
# Little-endian numbers

* `leNat`: the number that bytes stand for; `leBytes n v`: the low `n` bytes of a number;
* `leNat_leBytes`, `leBytes_leNat`: the one undoes the other.
-/

namespace Diana.Lib

/-- The number of little-endian bytes. -/
def leNat : List (BitVec 8) → Nat
  | [] => 0
  | b :: bs => b.toNat + 256 * leNat bs

/-- The low `n` bytes of a number. -/
def leBytes : Nat → Nat → List (BitVec 8)
  | 0, _ => []
  | n + 1, v => BitVec.ofNat 8 v :: leBytes n (v / 256)

@[simp] theorem length_leBytes (n v : Nat) : (leBytes n v).length = n := by
  induction n generalizing v with
  | zero => rfl
  | succ n ih => rw [leBytes, List.length_cons, ih]

theorem leNat_lt (bs : List (BitVec 8)) : leNat bs < 256 ^ bs.length := by
  induction bs with
  | nil => exact Nat.one_pos
  | cons b bs ih =>
    have hb : b.toNat < 256 := b.isLt
    have hpow : 256 ^ (b :: bs).length = 256 ^ bs.length * 256 := Nat.pow_succ _ _
    rw [leNat, hpow]
    omega

theorem leNat_leBytes (n v : Nat) : leNat (leBytes n v) = v % 256 ^ n := by
  induction n generalizing v with
  | zero => rw [leBytes, leNat, Nat.pow_zero, Nat.mod_one]
  | succ n ih =>
    have hmod : v % (256 * 256 ^ n) = v % 256 + 256 * (v / 256 % 256 ^ n) := Nat.mod_mul
    have hpow : 256 ^ (n + 1) = 256 * 256 ^ n := by rw [Nat.pow_succ, Nat.mul_comm]
    rw [leBytes, leNat, ih, BitVec.toNat_ofNat, hpow, hmod]

theorem leBytes_leNat (bs : List (BitVec 8)) : leBytes bs.length (leNat bs) = bs := by
  induction bs with
  | nil => rfl
  | cons b bs ih =>
    have hb : b.toNat < 256 := b.isLt
    have hlow : BitVec.ofNat 8 (leNat (b :: bs)) = b := by
      apply BitVec.eq_of_toNat_eq
      rw [leNat, BitVec.toNat_ofNat]
      omega
    have hrest : leNat (b :: bs) / 256 = leNat bs := by
      rw [leNat]
      omega
    rw [List.length_cons, leBytes, hlow, hrest, ih]

/-- Bytes of a number below their range. -/
theorem leNat_leBytes_of_lt {n v : Nat} (h : v < 256 ^ n) : leNat (leBytes n v) = v := by
  rw [leNat_leBytes, Nat.mod_eq_of_lt h]

end Diana.Lib
