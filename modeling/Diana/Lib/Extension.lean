import Mathlib.Algebra.Group.Int.Defs
import Mathlib.Algebra.Group.Nat.Defs
import Mathlib.Tactic.Common

/-!
# Sign extension

* `getLsbD_signExtend_high`: the sign bit and those behind it;
* `setWidth_signExtend_of_le`: what a narrower extension has of a wider one;
* `or_allOnes_eq_signExtend`: the sign bits set by hand.
-/

namespace Diana.Lib

variable {w n N : Nat}

/-- From the sign bit on, the bits of a sign extension are the sign. -/
theorem getLsbD_signExtend_high (x : BitVec w) {i : Nat} (hi : i < n) (hw : w ≤ i + 1)
    (h0 : 0 < w) : (x.signExtend n).getLsbD i = x.msb := by
  rw [BitVec.getLsbD_signExtend, decide_eq_true hi, Bool.true_and]
  split
  · have hlast : i = w - 1 := by omega
    rw [hlast, BitVec.msb_eq_getLsbD_last]
  · rfl

/-- The low bits of a sign extension are a narrower one. -/
theorem setWidth_signExtend_of_le (x : BitVec w) {m : Nat} (h : m ≤ n) :
    (x.signExtend n).setWidth m = x.signExtend m := by
  apply BitVec.eq_of_getLsbD_eq
  intro i hi
  rw [BitVec.getLsbD_setWidth, BitVec.getLsbD_signExtend, BitVec.getLsbD_signExtend,
    decide_eq_true (Nat.lt_of_lt_of_le hi h), decide_eq_true hi, Bool.true_and]

/-- A small number whose bits above the sign bit are set by hand. -/
theorem or_allOnes_eq_signExtend {v : BitVec N} (h0 : 0 < n) (hv : v.toNat < 2 ^ n) :
    (if v.getLsbD (n - 1) = true then v ||| (BitVec.allOnes N <<< n) else v) =
    (v.setWidth n).signExtend N := by
  have hmsb : (v.setWidth n).msb = v.getLsbD (n - 1) := by
    rw [BitVec.msb_eq_getLsbD_last, BitVec.getLsbD_setWidth, decide_eq_true (by omega),
      Bool.true_and]
  have hhigh : ∀ i, n ≤ i → v.getLsbD i = false := fun i hi =>
    Nat.testBit_lt_two_pow (Nat.lt_of_lt_of_le hv (Nat.pow_le_pow_right (by decide) hi))
  apply BitVec.eq_of_getLsbD_eq
  intro i hi
  rw [BitVec.getLsbD_signExtend, decide_eq_true hi, Bool.true_and, hmsb]
  by_cases hin : i < n
  · rw [if_pos hin, BitVec.getLsbD_setWidth, decide_eq_true hin, Bool.true_and]
    split
    · rw [BitVec.getLsbD_or, BitVec.getLsbD_shiftLeft, decide_eq_true hin]
      simp
    · rfl
  · rw [if_neg hin]
    split
    · rename_i hbit
      rw [hbit, BitVec.getLsbD_or, BitVec.getLsbD_shiftLeft, decide_eq_false hin, decide_eq_true hi,
        BitVec.getLsbD_allOnes, decide_eq_true (by omega)]
      simp
    · rename_i hbit
      rw [hhigh i (by omega), Bool.not_eq_true _ |>.mp hbit]

end Diana.Lib
