import Mathlib.Algebra.CharP.Two
import Mathlib.Algebra.Field.ZMod
import Mathlib.FieldTheory.Finite.Basic
import Mathlib.Data.ZMod.Basic
import Mathlib.RingTheory.AdjoinRoot

/-!
# Words as polynomials over the field of two elements

The bits of a word are the coefficients of a polynomial. Then `^^^` adds, and a shift by one
multiplies by `X`.

* `bitsPoly`: the polynomial of a word;
* `residue r a`: the polynomial of `a` modulo `X ^ n + r`, `residue_injective`: no two words have
  the same;
* `mulX`, `residue_mulX`: a shift with a reduction multiplies by `X`;
* `mulLoop`, `residue_mulLoop`: shift-and-add multiplication.
-/

namespace Diana.Lib

open Polynomial

variable {n m : Nat}

/-- The polynomial whose coefficients are the bits of a word. -/
noncomputable def bitsPoly (b : BitVec n) :
    (ZMod 2)[X] := ∑ i ∈ Finset.range n, if b.getLsbD i then X ^ i else 0

theorem coeff_bitsPoly (b : BitVec n) (i : Nat) :
    (bitsPoly b).coeff i = if b.getLsbD i then 1 else 0 := by
  have hterm : ∀ j, (if b.getLsbD j then X ^ j else 0 : (ZMod 2)[X]).coeff i = if i = j ∧
      b.getLsbD i then 1 else 0 := by
    intro j
    by_cases hj : i = j
    · subst hj
      cases b.getLsbD i <;> simp
    · cases b.getLsbD j <;> simp [hj, coeff_X_pow]
  rw [bitsPoly, finsetSum_coeff, Finset.sum_congr rfl fun j _ => hterm j]
  by_cases hi : i < n
  · rw [Finset.sum_eq_single i]
    · simp
    · intro j _ hj
      rw [if_neg fun h => hj h.1.symm]
    · intro h
      exact absurd (Finset.mem_range.2 hi) h
  · rw [BitVec.getLsbD_of_ge b i (Nat.le_of_not_lt hi)]
    simp

theorem bitsPoly_injective : Function.Injective (bitsPoly (n := n)) := by
  intro a b h
  apply BitVec.eq_of_getLsbD_eq
  intro i _
  have hi := congrArg (coeff · i) h
  simp only [coeff_bitsPoly] at hi
  revert hi
  cases a.getLsbD i <;> cases b.getLsbD i <;> simp

theorem degree_bitsPoly_lt (b : BitVec n) : (bitsPoly b).degree < n := by
  rw [degree_lt_iff_coeff_zero]
  intro i hi
  rw [coeff_bitsPoly, BitVec.getLsbD_of_ge b i hi]
  rfl

@[simp] theorem bitsPoly_zero : bitsPoly (0#n) = 0 := by
  ext i
  rw [coeff_bitsPoly]
  simp

@[simp] theorem bitsPoly_xor (a b : BitVec n) : bitsPoly (a ^^^ b) = bitsPoly a + bitsPoly b := by
  ext i
  rw [coeff_add, coeff_bitsPoly, coeff_bitsPoly, coeff_bitsPoly, BitVec.getLsbD_xor]
  cases a.getLsbD i <;> cases b.getLsbD i <;> decide

theorem bitsPoly_one (h : 0 < n) : bitsPoly (1#n) = 1 := by
  ext i
  rw [coeff_bitsPoly, coeff_one, BitVec.getLsbD_one]
  simp [h]

/-- A part behind another. -/
theorem bitsPoly_append (a : BitVec n) (b : BitVec m) :
    bitsPoly (a ++ b) = bitsPoly a * X ^ m + bitsPoly b := by
  ext i
  rw [coeff_add, coeff_mul_X_pow', coeff_bitsPoly, coeff_bitsPoly, coeff_bitsPoly,
    BitVec.getLsbD_append]
  by_cases hi : i < m
  · rw [if_pos hi, if_neg (Nat.not_le.2 hi), zero_add]
  · rw [if_neg hi, if_pos (Nat.le_of_not_lt hi), BitVec.getLsbD_of_ge b i (Nat.le_of_not_lt hi)]
    simp

/-- A shift that may push bits out. -/
theorem coeff_mul_X_pow_bitsPoly (a : BitVec n) (k i : Nat) :
    (bitsPoly a * X ^ k).coeff i = if k ≤ i ∧ a.getLsbD (i - k) then 1 else 0 := by
  rw [coeff_mul_X_pow', coeff_bitsPoly]
  by_cases hk : k ≤ i <;> simp [hk]

/-- The lowest bit, and those above it. -/
theorem bitsPoly_ushiftRight (b : BitVec n) :
    bitsPoly b = bitsPoly (b >>> 1) * X + if b.getLsbD 0 then 1 else 0 := by
  ext i
  rw [coeff_add, ← pow_one X, coeff_mul_X_pow_bitsPoly, coeff_bitsPoly, BitVec.getLsbD_ushiftRight]
  cases i with
  | zero => cases b.getLsbD 0 <;> simp
  | succ i =>
    rw [Nat.add_sub_cancel, Nat.add_comm 1 i]
    cases b.getLsbD 0 <;> simp [coeff_one]

/-! ## Modulo a polynomial -/

/-- `X ^ n + r` -/
noncomputable def modulus (r : BitVec n) : (ZMod 2)[X] := X ^ n + bitsPoly r

theorem modulus_monic (r : BitVec n) : (modulus r).Monic := monic_X_pow_add (degree_bitsPoly_lt r)

theorem degree_modulus (r : BitVec n) : (modulus r).degree = n := by
  rw [modulus, degree_add_eq_left_of_degree_lt]
  · exact degree_X_pow n
  · rw [degree_X_pow]
    exact degree_bitsPoly_lt r

/-- A word modulo `X ^ n + r`. -/
noncomputable def residue (r : BitVec n) (a : BitVec m) :
    AdjoinRoot (modulus r) := AdjoinRoot.mk _ (bitsPoly a)

variable {r : BitVec n}

@[simp] theorem residue_zero (r : BitVec n) : residue r (0#m) = 0 := by
  rw [residue, bitsPoly_zero, map_zero]

theorem residue_one (r : BitVec n) (h : 0 < m) : residue r (1#m) = 1 := by
  rw [residue, bitsPoly_one h, map_one]

@[simp] theorem residue_xor (r : BitVec n) (a b : BitVec m) :
    residue r (a ^^^ b) = residue r a + residue r b := by
  rw [residue, bitsPoly_xor, map_add]
  rfl

/-- Words as long as the modulus are the remainders. -/
theorem residue_injective (r : BitVec n) : Function.Injective (residue r : BitVec n → _) := by
  intro a b h
  have hdvd : modulus r ∣ bitsPoly (a ^^^ b) := by
    rw [bitsPoly_xor, ← CharTwo.sub_eq_add]
    exact AdjoinRoot.mk_eq_mk.1 h
  have hzero : bitsPoly (a ^^^ b) = 0 := by
    by_contra hne
    refine (modulus_monic r).not_dvd_of_degree_lt hne ?_ hdvd
    rw [degree_modulus]
    exact degree_bitsPoly_lt _
  exact BitVec.xor_eq_zero_iff.1 (bitsPoly_injective (hzero.trans bitsPoly_zero.symm))

/-- A word as long as the modulus is the remainder of each polynomial with its residue. -/
theorem bitsPoly_eq_mod {c : BitVec n} {f : (ZMod 2)[X]} (h : residue r c = AdjoinRoot.mk _ f) :
    bitsPoly c = f %ₘ modulus r := by
  have hlt : (bitsPoly c).degree < (modulus r).degree := by
    rw [degree_modulus]
    exact degree_bitsPoly_lt c
  calc
    bitsPoly c = bitsPoly c %ₘ modulus r := ((modByMonic_eq_self_iff (modulus_monic r)).2 hlt).symm
    _ = f %ₘ modulus r := modByMonic_eq_of_dvd_sub (modulus_monic r) (AdjoinRoot.mk_eq_mk.1 h)

/-- Squaring is additive: a power of 2 of a residue is a matter of that power of `X`. -/
theorem residue_pow_two_pow (r : BitVec n) (a : BitVec m) (k : Nat) :
    residue r a ^ 2 ^ k = aeval (AdjoinRoot.root (modulus r) ^ 2 ^ k) (bitsPoly a) := by
  have hexpand : bitsPoly a ^ 2 ^ k = expand (ZMod 2) (2 ^ k) (bitsPoly a) := by
    induction k with
    | zero => rw [pow_zero, pow_one, expand_one]
    | succ k ih => rw [pow_succ, pow_mul, ih, ← ZMod.expand_card, expand_expand, Nat.mul_comm]
  rw [residue, ← map_pow, hexpand, ← AdjoinRoot.aeval_eq, expand_aeval]

/-- If `X` is a power of itself, so is each word. -/
theorem residue_pow_of_root {r : BitVec n} {k : Nat}
    (h : AdjoinRoot.root (modulus r) ^ 2 ^ k = AdjoinRoot.root _)
    (a : BitVec m) : residue r a ^ 2 ^ k = residue r a := by
  rw [residue_pow_two_pow, h, AdjoinRoot.aeval_eq]
  rfl

/-- A shift by one, with the modulus taken off where a bit was pushed out. -/
def mulX (r a : BitVec n) : BitVec n := a <<< 1 ^^^ if a.msb then r else 0

theorem bitsPoly_mulX (r a : BitVec n) :
    bitsPoly (mulX r a) = bitsPoly a * X + if a.msb then modulus r else 0 := by
  have hshift : bitsPoly (a <<< 1) = bitsPoly a * X + if a.msb then X ^ n else 0 := by
    ext i
    rw [coeff_add, ← pow_one (X : (ZMod 2)[X]), coeff_mul_X_pow_bitsPoly, coeff_bitsPoly,
      BitVec.getLsbD_shiftLeft, pow_one]
    rcases Nat.lt_trichotomy i n with hi | rfl | hi
    · have hne : i ≠ n := by omega
      by_cases h1 : 1 ≤ i
      · have h0 : ¬ i < 1 := by omega
        cases a.msb <;> simp [hi, h0, h1, hne, coeff_X_pow]
      · obtain rfl : i = 0 := by omega
        cases a.msb <;> simp [hi, hne, coeff_X_pow]
    · rw [BitVec.msb_eq_getLsbD_last]
      by_cases h1 : 1 ≤ i
      · cases a.getLsbD (i - 1) <;> simp [h1, CharTwo.add_self_eq_zero]
      · obtain rfl : i = 0 := by omega
        simp
    · have hge : n ≤ i - 1 := by omega
      have hlt : ¬ i < n := by omega
      have hne : i ≠ n := by omega
      rw [BitVec.getLsbD_of_ge a _ hge]
      cases a.msb <;> simp [hlt, hne, coeff_X_pow]
  rw [mulX, bitsPoly_xor, hshift]
  cases a.msb with
  | false => simp
  | true => simp only [if_true, modulus, add_assoc]

theorem residue_mulX (r a : BitVec n) : residue r (mulX r a) = residue r a * AdjoinRoot.root _ := by
  rw [residue, bitsPoly_mulX, map_add, map_mul, AdjoinRoot.mk_X]
  cases a.msb with
  | false => simp [residue]
  | true => simp [residue]

/-- Shift-and-add multiplication, for the bits of `b` from the lowest on. -/
def mulLoop (r : BitVec n) :
    (turns : Nat) → (a : BitVec n) → (b : BitVec m) → (product : BitVec n) → BitVec n
  | 0, _, _, product => product
  | turns + 1, a, b, product =>
    mulLoop r turns (mulX r a) (b >>> 1) (if b.getLsbD 0 then product ^^^ a else product)

@[simp] theorem mulLoop_of_zero (r : BitVec n) (turns : Nat) (a product : BitVec n) :
    mulLoop r turns a (0#m) product = product := by
  induction turns generalizing a with
  | zero => rfl
  | succ turns ih =>
    rw [mulLoop, BitVec.zero_ushiftRight, if_neg (by simp), ih]

theorem residue_mulLoop (r : BitVec n) {turns : Nat} {a : BitVec n} {b : BitVec m}
    {product : BitVec n} (h : b.toNat < 2 ^ turns) :
    residue r (mulLoop r turns a b product) = residue r product + residue r a * residue r b := by
  induction turns generalizing a b product with
  | zero =>
    obtain rfl : b = 0#m := by
      rw [← BitVec.toNat_inj, BitVec.toNat_zero]
      omega
    rw [mulLoop, residue_zero, mul_zero, add_zero]
  | succ turns ih =>
    have hlt : (b >>> 1).toNat < 2 ^ turns := by
      rw [BitVec.toNat_ushiftRight, Nat.shiftRight_eq_div_pow]
      omega
    have hb : residue r b = residue r (b >>> 1) * AdjoinRoot.root _ + if b.getLsbD 0 then 1
        else 0 := by
      rw [residue, bitsPoly_ushiftRight, map_add, map_mul, AdjoinRoot.mk_X]
      cases b.getLsbD 0 <;> simp [residue]
    rw [mulLoop, ih hlt, residue_mulX, hb]
    cases b.getLsbD 0 with
    | false =>
      simp only [Bool.false_eq_true, if_false]
      ring
    | true =>
      simp only [if_true, residue_xor]
      ring

end Diana.Lib
