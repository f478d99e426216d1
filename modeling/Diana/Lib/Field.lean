import Mathlib.Data.BitVec
import Mathlib.Tactic.IntervalCases

/-!
# Bit fields of fixed-width words

An encoder replaces a field of an instruction word by clearing it with a mask
and or-ing the new bits in; a decoder reads a field back and sign-extends it.
This file states both on `BitVec`:

* `setField w lo n f`: the `n` bits of `w` from bit `lo` on replaced by `f`.
  The field reads back as `f`, a disjoint field and a disjoint mask test read
  `w`;
* `signExtend_sdiv`: a value that fits `n` signed bits survives the division
  by the scale, the truncation to the field and the sign extension.
-/

namespace Diana.Lib

variable {N : Nat}

/-- The `n` bits of `w` from bit `lo` on, replaced by `f`. -/
def setField (w : BitVec N) (lo n : Nat) (f : BitVec n) : BitVec N :=
  (w &&& ~~~((BitVec.allOnes n).setWidth N <<< lo)) ||| (f.setWidth N <<< lo)

theorem getLsbD_setField (w : BitVec N) (lo n : Nat) (f : BitVec n) {i : Nat} (hi : i < N) :
    (setField w lo n f).getLsbD i =
      if lo ≤ i ∧ i < lo + n then f.getLsbD (i - lo) else w.getLsbD i := by
  simp only [setField, BitVec.getLsbD_or, BitVec.getLsbD_and, BitVec.getLsbD_not,
    BitVec.getLsbD_shiftLeft, BitVec.getLsbD_setWidth, BitVec.getLsbD_allOnes]
  split
  · next h =>
    have h1 : ¬ i < lo := by omega
    have h2 : i - lo < n := by omega
    have h3 : i - lo < N := by omega
    simp [hi, h1, h2, h3]
  · next h =>
    by_cases h1 : i < lo
    · simp [hi, h1]
    · have h2 : ¬ i - lo < n := by omega
      have h3 : f.getLsbD (i - lo) = false := BitVec.getLsbD_of_ge _ _ (by omega)
      simp [hi, h1, h2, h3]

/-- The replaced field reads back. -/
theorem extractLsb'_setField_same (w : BitVec N) {lo n : Nat} (f : BitVec n) (h : lo + n ≤ N) :
    (setField w lo n f).extractLsb' lo n = f := by
  apply BitVec.eq_of_getLsbD_eq
  intro i hi
  rw [BitVec.getLsbD_extractLsb', getLsbD_setField w lo n f (by omega)]
  have : lo ≤ lo + i ∧ lo + i < lo + n := by omega
  simp [hi]

/-- A disjoint field is left alone. -/
theorem extractLsb'_setField_other (w : BitVec N) {lo n lo' n' : Nat} (f : BitVec n)
    (h : lo' + n' ≤ lo ∨ lo + n ≤ lo') (hN : lo' + n' ≤ N) :
    (setField w lo n f).extractLsb' lo' n' = w.extractLsb' lo' n' := by
  apply BitVec.eq_of_getLsbD_eq
  intro i hi
  rw [BitVec.getLsbD_extractLsb', BitVec.getLsbD_extractLsb',
    getLsbD_setField w lo n f (by omega), if_neg (by omega)]

/-- The bits of an empty field are clear. -/
theorem getLsbD_of_field_zero {w : BitVec N} {lo n i : Nat} (hw : w.extractLsb' lo n = 0)
    (h : lo ≤ i ∧ i < lo + n) : w.getLsbD i = false := by
  have hbit := congrArg (fun b : BitVec n => b.getLsbD (i - lo)) hw
  simp only [BitVec.getLsbD_extractLsb'] at hbit
  have hlt : i - lo < n := by omega
  have he : lo + (i - lo) = i := by omega
  simpa [hlt, he] using hbit

/-- A mask that does not meet the field sees the old word. -/
theorem setField_and (w : BitVec N) {lo n : Nat} (f : BitVec n) {m : BitVec N}
    (hm : m.extractLsb' lo n = 0) : setField w lo n f &&& m = w &&& m := by
  apply BitVec.eq_of_getLsbD_eq
  intro i hi
  rw [BitVec.getLsbD_and, BitVec.getLsbD_and, getLsbD_setField w lo n f hi]
  split
  · next h =>
    rw [getLsbD_of_field_zero hm h, Bool.and_false, Bool.and_false]
  · rfl

/-- Writing a field with mask and shift, as C encoders do. -/
theorem or_shift_and_eq_setField {w m : BitVec N} (lo n : Nat) (x : BitVec N)
    (hm : m = (BitVec.allOnes n).setWidth N <<< lo) :
    (w &&& ~~~m) ||| ((x <<< lo) &&& m) = setField w lo n (x.setWidth n) := by
  apply BitVec.eq_of_getLsbD_eq
  intro i hi
  subst hm
  rw [getLsbD_setField w lo n _ hi]
  simp only [BitVec.getLsbD_or, BitVec.getLsbD_and, BitVec.getLsbD_not,
    BitVec.getLsbD_shiftLeft, BitVec.getLsbD_setWidth, BitVec.getLsbD_allOnes]
  by_cases h1 : i < lo
  · have : ¬ (lo ≤ i ∧ i < lo + n) := by omega
    simp [hi, h1, this]
  · by_cases h2 : i - lo < n
    · have h3 : lo ≤ i ∧ i < lo + n := by omega
      have h4 : i - lo < N := by omega
      simp [hi, h1, h2, h3, h4]
    · have h3 : ¬ (lo ≤ i ∧ i < lo + n) := by omega
      simp [hi, h1, h2, h3]

/-- Or-ing a value into an empty field sets the field. -/
theorem or_shift_eq_setField {w : BitVec N} (lo : Nat) {n : Nat} (f : BitVec n)
    (hw : w.extractLsb' lo n = 0) : w ||| (f.setWidth N <<< lo) = setField w lo n f := by
  apply BitVec.eq_of_getLsbD_eq
  intro i hi
  rw [getLsbD_setField w lo n f hi]
  simp only [BitVec.getLsbD_or, BitVec.getLsbD_shiftLeft, BitVec.getLsbD_setWidth]
  by_cases h1 : i < lo
  · have : ¬ (lo ≤ i ∧ i < lo + n) := by omega
    simp [h1, this]
  · by_cases h2 : i - lo < n
    · have h3 : lo ≤ i ∧ i < lo + n := by omega
      have h4 : i - lo < N := by omega
      rw [getLsbD_of_field_zero hw h3]
      simp [hi, h1, h3, h4]
    · have h3 : ¬ (lo ≤ i ∧ i < lo + n) := by omega
      have h4 : f.getLsbD (i - lo) = false := BitVec.getLsbD_of_ge _ _ (by omega)
      simp [h1, h3, h4]

/-- Reading a field with shift and mask. -/
theorem setWidth_shift_and {w m : BitVec N} (lo n : Nat) (hn : n ≤ N)
    (hm : m = (BitVec.allOnes n).setWidth N) :
    ((w >>> lo) &&& m).setWidth n = w.extractLsb' lo n := by
  apply BitVec.eq_of_getLsbD_eq
  intro i hi
  subst hm
  have hN : i < N := by omega
  simp [hi, hN]

/-- Reading a field with mask and shift. -/
theorem setWidth_and_shift {w m : BitVec N} {lo n : Nat} (hn : lo + n ≤ N)
    (hm : m = (BitVec.allOnes n).setWidth N <<< lo) :
    ((w &&& m) >>> lo).setWidth n = w.extractLsb' lo n := by
  apply BitVec.eq_of_getLsbD_eq
  intro i hi
  subst hm
  have h1 : lo + i < N := by omega
  have h2 : i < N := by omega
  simp [hi, h1, h2]

/-- Flipping bits outside a mask does not change the mask test. -/
theorem xor_and_of_disjoint {w x m : BitVec N} (h : x &&& m = 0) : (w ^^^ x) &&& m = w &&& m := by
  apply BitVec.eq_of_getLsbD_eq
  intro i hi
  have hbit : (x.getLsbD i && m.getLsbD i) = false := by
    rw [← BitVec.getLsbD_and, h]
    exact BitVec.getLsbD_zero
  rw [BitVec.getLsbD_and, BitVec.getLsbD_and, BitVec.getLsbD_xor]
  revert hbit
  cases w.getLsbD i <;> cases x.getLsbD i <;> cases m.getLsbD i <;> decide

/-- Two mask tests of one word agree where the masks meet. -/
theorem mask_meet {w m₁ m₂ v₁ v₂ : BitVec N} (h₁ : w &&& m₁ = v₁) (h₂ : w &&& m₂ = v₂) :
    v₁ &&& m₂ = v₂ &&& m₁ := by
  rw [← h₁, ← h₂, BitVec.and_assoc, BitVec.and_assoc, BitVec.and_comm m₁]

/-- Encoding classes given by masks exclude each other when their values differ where the masks
meet. -/
theorem mask_exclusive {w m₁ m₂ v₁ v₂ : BitVec N} (h : (w &&& m₁ == v₁) = true)
    (hne : v₁ &&& m₂ ≠ v₂ &&& m₁) : (w &&& m₂ == v₂) = false := by
  rw [beq_eq_false_iff_ne]
  intro h₂
  exact hne (mask_meet (eq_of_beq h) h₂)

/-- A mask test is that of the two parts of the mask. -/
theorem mask_or_iff {w m₁ m₂ v₁ v₂ : BitVec N} (h₁ : (v₁ ||| v₂) &&& m₁ = v₁)
    (h₂ : (v₁ ||| v₂) &&& m₂ = v₂) :
    w &&& (m₁ ||| m₂) = v₁ ||| v₂ ↔ w &&& m₁ = v₁ ∧ w &&& m₂ = v₂ := by
  have hpart : ∀ {m v : BitVec N}, (m₁ ||| m₂) &&& m = m → (v₁ ||| v₂) &&& m = v →
      w &&& (m₁ ||| m₂) = v₁ ||| v₂ → w &&& m = v := by
    intro m v hm hv h
    rw [← hv, ← h, BitVec.and_assoc, hm]
  constructor
  · intro h
    refine ⟨hpart ?_ h₁ h, hpart ?_ h₂ h⟩
    · ext i hi
      simp only [BitVec.getElem_and, BitVec.getElem_or]
      cases m₁[i] <;> simp
    · ext i hi
      simp only [BitVec.getElem_and, BitVec.getElem_or]
      cases m₂[i] <;> simp
  · rintro ⟨h1, h2⟩
    rw [BitVec.and_or_distrib_left, h1, h2]

/-! ## Signed values in a field -/

/-- A value that fits `n` signed bits is its own truncation, sign-extended. -/
theorem signExtend_setWidth_of_fits {v : BitVec N} {n : Nat} (h0 : 0 < n) (hn : n ≤ N)
    (h1 : -2 ^ (n - 1) ≤ v.toInt) (h2 : v.toInt < 2 ^ (n - 1)) :
    (v.setWidth n).signExtend N = v := by
  apply BitVec.eq_of_toInt_eq
  have hbmod : Int.bmod v.toNat (2 ^ n) = v.toInt.bmod (2 ^ n) := by
    rw [BitVec.toInt_eq_toNat_bmod v, Int.bmod_bmod_of_dvd (pow_dvd_pow 2 hn)]
  have hpow : (2 : Int) ^ n = 2 * 2 ^ (n - 1) := by
    rw [← pow_succ', Nat.sub_add_cancel h0]
  rw [BitVec.toInt_signExtend_of_le hn, BitVec.toInt_setWidth, hbmod]
  apply Int.bmod_eq_of_le_mul_two
  · push_cast; omega
  · push_cast; omega

/-- The quotient of an exact signed division times the divisor is the dividend. -/
theorem sdiv_mul_of_dvd {v k : BitVec N} (h : k.toInt ∣ v.toInt) :
    v.sdiv k * k = v := by
  apply BitVec.eq_of_toInt_eq
  rw [BitVec.toInt_mul, BitVec.toInt_sdiv, Int.bmod_mul_bmod, Int.tdiv_mul_cancel h,
    BitVec.toInt_bmod_cancel]

/-- Divided by its scale, truncated to the field and read back: the same signed value. -/
theorem signExtend_sdiv {v k : BitVec N} {n : Nat} (h0 : 0 < n) (hn : n ≤ N)
    (h : k.toInt ∣ v.toInt)
    (h1 : -2 ^ (n - 1) ≤ (v.sdiv k).toInt) (h2 : (v.sdiv k).toInt < 2 ^ (n - 1)) :
    ((v.sdiv k).setWidth n).signExtend N * k = v := by
  rw [signExtend_setWidth_of_fits h0 hn h1 h2, sdiv_mul_of_dvd h]

/-- Sign extension as `(x ^ sign) - sign`. -/
theorem xor_sub_twoPow {n : Nat} (y : BitVec n) (h0 : 0 < n) (hn : n ≤ N) :
    (y.setWidth N ^^^ BitVec.twoPow N (n - 1)) - BitVec.twoPow N (n - 1) = y.signExtend N := by
  have hmsb : y.msb = y.getLsbD (n - 1) := BitVec.msb_eq_getLsbD_last y
  cases hm : y.msb with
  | false =>
    -- the sign bit is clear: the xor adds it, the subtraction takes it off again
    have hz : y.setWidth N &&& BitVec.twoPow N (n - 1) = 0#N := by
      ext i hi
      by_cases h : i = n - 1
      · subst h; simp [← hmsb, hm]
      · simp [h]
    have hx : y.setWidth N ^^^ BitVec.twoPow N (n - 1) =
        y.setWidth N + BitVec.twoPow N (n - 1) := by
      rw [BitVec.add_eq_or_of_and_eq_zero _ _ hz]
      ext i hi
      by_cases h : i = n - 1
      · subst h; simp [← hmsb, hm]
      · simp [h]
    rw [hx, BitVec.add_sub_cancel, BitVec.signExtend_eq_setWidth_of_msb_false hm]
  | true =>
    -- the sign bit is set: the xor and the subtraction each take it off once
    have hb : (y.setWidth N ^^^ BitVec.twoPow N (n - 1)) + BitVec.twoPow N (n - 1) =
        y.setWidth N := by
      rw [BitVec.add_eq_or_of_and_eq_zero]
      · ext i hi
        by_cases h : i = n - 1
        · subst h; simp [← hmsb, hm]
        · simp [h]
      · ext i hi
        by_cases h : i = n - 1
        · subst h; simp [← hmsb, hm]
        · simp [h]
    have hs : y.signExtend N + BitVec.twoPow N (n - 1) + BitVec.twoPow N (n - 1) =
        y.setWidth N := by
      have hpow : 2 ^ n = 2 ^ (n - 1) + 2 ^ (n - 1) := by
        rw [← Nat.two_mul, ← pow_succ', Nat.sub_add_cancel h0]
      have hle : 2 ^ n ≤ 2 ^ N := Nat.pow_le_pow_right (by decide) hn
      have hlt : 2 ^ (n - 1) < 2 ^ N := Nat.pow_lt_pow_right (by decide) (by omega)
      have hy := y.isLt
      apply BitVec.eq_of_toNat_eq
      simp only [BitVec.toNat_add, BitVec.toNat_signExtend, hm, if_true, BitVec.toNat_setWidth,
        BitVec.toNat_twoPow, Nat.mod_eq_of_lt hlt, Nat.mod_add_mod]
      rw [Nat.mod_eq_of_lt (lt_of_lt_of_le hy hle),
        show y.toNat + (2 ^ N - 2 ^ n) + 2 ^ (n - 1) + 2 ^ (n - 1) = y.toNat + 2 ^ N by omega,
        Nat.add_mod_right, Nat.mod_eq_of_lt (lt_of_lt_of_le hy hle)]
    rw [BitVec.sub_eq_iff_eq_add, ← BitVec.add_right_inj (BitVec.twoPow N (n - 1)),
      BitVec.add_comm _ (_ ^^^ _), hb, ← hs, BitVec.add_comm]

/-! ## The lowest bits -/

/-- `& ~(2^k - 1)` clears the `k` lowest bits. -/
theorem toNat_clear_low (n : BitVec N) (k : Nat) :
    (n &&& ~~~BitVec.ofNat N (2 ^ k - 1)).toNat = n.toNat / 2 ^ k * 2 ^ k := by
  have h : n &&& ~~~BitVec.ofNat N (2 ^ k - 1) = (n >>> k) <<< k := by
    ext i hi
    rw [BitVec.getElem_and, BitVec.getElem_not, BitVec.getElem_shiftLeft,
      ← BitVec.getLsbD_eq_getElem (x := BitVec.ofNat N (2 ^ k - 1)), BitVec.getLsbD_ofNat,
      Nat.testBit_two_pow_sub_one]
    by_cases hlow : i < k
    · simp [hlow, hi]
    · have hi' : k + (i - k) = i := by omega
      simp [hlow, hi', BitVec.getLsbD_eq_getElem hi]
  rw [h, BitVec.toNat_shiftLeft, BitVec.toNat_ushiftRight, Nat.shiftRight_eq_div_pow,
    Nat.shiftLeft_eq]
  exact Nat.mod_eq_of_lt (Nat.lt_of_le_of_lt (Nat.div_mul_le_self _ _) n.isLt)

/-- `& ~3` clears the two lowest bits. -/
theorem toNat_clear_three (n : BitVec N) :
    (n &&& ~~~3#N).toNat = n.toNat / 4 * 4 := toNat_clear_low n 2

/-- `& (2^k - 1)` keeps them. -/
theorem toNat_and_low (n : BitVec N) (k : Nat) (h : k ≤ N) :
    (n &&& BitVec.ofNat N (2 ^ k - 1)).toNat = n.toNat % 2 ^ k := by
  have hle : 2 ^ k ≤ 2 ^ N := Nat.pow_le_pow_right (by decide) h
  have hpos : 0 < 2 ^ k := Nat.two_pow_pos k
  have hmask : (BitVec.ofNat N (2 ^ k - 1)).toNat = 2 ^ k - 1 := Nat.mod_eq_of_lt (by omega)
  rw [BitVec.toNat_and, hmask]
  exact Nat.and_two_pow_sub_one_eq_mod n.toNat k

theorem toNat_and_three (n : BitVec N) (h : 2 ≤ N) :
    (n &&& 3#N).toNat = n.toNat % 4 := toNat_and_low n 2 h

end Diana.Lib
