import Mathlib.Data.BitVec
import Mathlib.Order.Lattice
import Mathlib.Tactic.Common

/-!
# The set bits of a word

* `rank v i`: how many bits of `v` are set below `i`; it numbers the set bits, `exists_rank` and
  `rank_injective`;
* `exists_lowest`, `getLsbD_sub_one`: the lowest set bit, and what the word less one has in its
  bits;
* `rank_clear`: a word with one of its bits cleared;
* `reverse`: a reversed word, and its shifts;
* `toNat_lowMask`, `getLsbD_lowMask`: the mask of the low bits, as C writes it.
-/

namespace Diana.Lib

variable {n : Nat} {v w : BitVec n} {i j k : Nat}

/-! ## Numbering the set bits -/

/-- The number of set bits below `i`. -/
def rank (v : BitVec n) (i : Nat) : Nat := (List.range i).countP v.getLsbD

@[simp] theorem rank_zero (v : BitVec n) : rank v 0 = 0 := rfl

theorem rank_succ (v : BitVec n) (i : Nat) :
    rank v (i + 1) = rank v i + if v.getLsbD i then 1 else 0 := by
  simp [rank, List.range_succ, List.countP_singleton]

theorem rank_le (v : BitVec n) (i : Nat) : rank v i ≤ i :=
  List.countP_le_length.trans_eq List.length_range

theorem rank_mono (v : BitVec n) (h : i ≤ j) : rank v i ≤ rank v j := by
  induction h with
  | refl => exact Nat.le_refl _
  | step _ ih =>
    rw [rank_succ]
    exact Nat.le_add_right_of_le ih

theorem rank_lt (hi : v.getLsbD i = true) (h : i < j) : rank v i < rank v j := by
  have hnext : rank v i < rank v (i + 1) := by
    rw [rank_succ, if_pos hi]
    exact Nat.lt_succ_self _
  exact Nat.lt_of_lt_of_le hnext (rank_mono v h)

theorem rank_injective (hi : v.getLsbD i = true) (hj : v.getLsbD j = true)
    (h : rank v i = rank v j) : i = j := by
  rcases Nat.lt_trichotomy i j with hlt | heq | hgt
  · exact absurd h (Nat.ne_of_lt (rank_lt hi hlt))
  · exact heq
  · exact absurd h.symm (Nat.ne_of_lt (rank_lt hj hgt))

/-- Each number below the rank is that of a set bit. -/
theorem exists_rank (h : k < rank v i) : ∃ j < i, v.getLsbD j = true ∧ rank v j = k := by
  induction i with
  | zero => exact absurd h (Nat.not_lt_zero k)
  | succ i ih =>
    by_cases hk : k < rank v i
    · obtain ⟨j, hj, hset, hrank⟩ := ih hk
      exact ⟨j, Nat.lt_succ_of_lt hj, hset, hrank⟩
    · rw [rank_succ] at h
      by_cases hi : v.getLsbD i
      · rw [if_pos hi] at h
        exact ⟨i, Nat.lt_succ_self i, hi, by omega⟩
      · rw [if_neg hi] at h
        exact absurd h hk

theorem rank_eq_zero_iff : rank v i = 0 ↔ ∀ j < i, v.getLsbD j = false := by
  simp [rank, List.countP_eq_zero]

/-- Words that agree below `i`. -/
theorem rank_congr (h : ∀ j < i, v.getLsbD j = w.getLsbD j) : rank v i = rank w i :=
  List.countP_congr fun j hj => by rw [h j (List.mem_range.1 hj)]

/-- A word with one of its bits cleared. -/
theorem rank_clear (hk : v.getLsbD k = true)
    (hw : ∀ j < i, w.getLsbD j = (v.getLsbD j && decide (j ≠ k))) :
    rank w i + (if k < i then 1 else 0) = rank v i := by
  induction i with
  | zero => rfl
  | succ i ih =>
    rw [rank_succ, rank_succ, ← ih fun j hj => hw j (Nat.lt_succ_of_lt hj),
      hw i (Nat.lt_succ_self i)]
    rcases Nat.lt_trichotomy i k with hlt | rfl | hgt
    · simp [Nat.ne_of_lt hlt, Nat.not_lt.2 (Nat.le_of_lt hlt), Nat.not_lt.2 (Nat.succ_le_of_lt hlt)]
    · simp [hk]
    · simp only [hgt, Nat.lt_succ_of_lt hgt, Nat.ne_of_gt hgt, if_true, ne_eq, not_false_eq_true,
        decide_true, Bool.and_true]
      omega

/-! ## The lowest set bit -/

/-- Bit `k` is set and none below it. -/
def Lowest (v : BitVec n) (k : Nat) : Prop := v.getLsbD k = true ∧ ∀ j < k, v.getLsbD j = false

theorem exists_lowest (h : v ≠ 0#n) : ∃ k, Lowest v k := by
  have hset : ∃ k, v.getLsbD k = true := by
    by_contra hnone
    refine h (BitVec.eq_of_getLsbD_eq fun i _ => ?_)
    rw [BitVec.getLsbD_zero]
    exact Bool.eq_false_iff.2 fun hi => hnone ⟨i, hi⟩
  exact ⟨Nat.find hset, Nat.find_spec hset, fun j hj => Bool.eq_false_iff.2 (Nat.find_min hset hj)⟩

theorem Lowest.lt (h : Lowest v k) : k < n := BitVec.lt_of_getLsbD h.1

/-- Less one: the lowest set bit is cleared and those below it are set. -/
theorem Lowest.getLsbD_sub_one (h : Lowest v k) (j : Nat) :
    (v - 1#n).getLsbD j = if j < k then true else v.getLsbD j && decide (j ≠ k) := by
  have hlt := h.lt
  obtain ⟨q, hq⟩ : ∃ q, v.toNat = 2 ^ k * (2 * q + 1) := by
    have hmod : v.toNat % 2 ^ k = 0 := by
      apply Nat.eq_of_testBit_eq
      intro i
      rw [Nat.testBit_mod_two_pow, Nat.zero_testBit]
      by_cases hi : i < k
      · have := h.2 i hi
        rw [BitVec.getLsbD] at this
        rw [this, Bool.and_false]
      · simp [hi]
    have hodd : v.toNat / 2 ^ k % 2 = 1 := by
      have := h.1
      rw [BitVec.getLsbD, Nat.testBit_eq_decide_div_mod_eq, decide_eq_true_eq] at this
      exact this
    refine ⟨v.toNat / 2 ^ k / 2, ?_⟩
    have hdiv := Nat.div_add_mod v.toNat (2 ^ k)
    have hhalf := Nat.div_add_mod (v.toNat / 2 ^ k) 2
    rw [hodd] at hhalf
    rw [hhalf]
    omega
  have hpos : 0 < 2 ^ k := Nat.two_pow_pos k
  have hless : (v - 1#n).toNat = 2 ^ k * (2 * q) + (2 ^ k - 1) := by
    have hone : (1#n).toNat = 1 := Nat.mod_eq_of_lt (Nat.one_lt_two_pow (by omega))
    have hle : 1#n ≤ v := by
      rw [BitVec.le_def, hone, hq]
      exact Nat.mul_pos hpos (Nat.succ_pos _)
    rw [BitVec.toNat_sub_of_le hle, hone, hq, Nat.mul_add, Nat.mul_one]
    omega
  have hv : v.getLsbD j = (2 ^ k * (2 * q + 1) + 0).testBit j := congrArg (Nat.testBit · j) hq
  rw [BitVec.getLsbD, hless, Nat.testBit_two_pow_mul_add _ (Nat.sub_lt hpos Nat.one_pos), hv,
    Nat.testBit_two_pow_mul_add _ hpos]
  by_cases hj : j < k
  · simp [hj]
  · rw [if_neg hj, if_neg hj, if_neg hj]
    rcases Nat.eq_or_lt_of_le (Nat.le_of_not_lt hj) with rfl | hgt
    · simp
    · obtain ⟨d, hd⟩ : ∃ d, j - k = d + 1 := ⟨j - k - 1, by omega⟩
      rw [hd, Nat.testBit_succ, Nat.testBit_succ]
      simp [Nat.ne_of_gt hgt, Nat.mul_add_div]

/-! ## Reversed words -/

theorem reverse_xor (v w : BitVec n) : (v ^^^ w).reverse = v.reverse ^^^ w.reverse := by
  apply BitVec.eq_of_getLsbD_eq
  intro i hi
  simp [BitVec.getLsbD_reverse, BitVec.getMsbD_xor]

/-- A shift to the right of a word is one to the left of the reversed word. -/
theorem reverse_ushiftRight_one (v : BitVec n) : (v >>> 1).reverse = v.reverse <<< 1 := by
  apply BitVec.eq_of_getLsbD_eq
  intro i hi
  rw [BitVec.getLsbD_reverse, BitVec.getMsbD_ushiftRight, BitVec.getLsbD_shiftLeft,
    BitVec.getLsbD_reverse]
  simp [hi]

/-! ## Masks -/

theorem toNat_lowMask (h : k < n) : (((1 : BitVec n) <<< k) - 1).toNat = 2 ^ k - 1 := by
  have hpow : 2 ^ k < 2 ^ n := Nat.pow_lt_pow_right Nat.one_lt_two h
  have hunit : (1 : BitVec n).toNat = 1 :=
    Nat.mod_eq_of_lt (Nat.one_lt_two_pow (Nat.ne_zero_of_lt h))
  have hone : ((1 : BitVec n) <<< k).toNat = 2 ^ k := by
    rw [BitVec.toNat_shiftLeft, hunit, Nat.one_shiftLeft, Nat.mod_eq_of_lt hpow]
  have hle : (1 : BitVec n) ≤ (1 : BitVec n) <<< k := by
    rw [BitVec.le_def, hone, hunit]
    exact Nat.two_pow_pos k
  rw [BitVec.toNat_sub_of_le hle, hone, hunit]

theorem getLsbD_lowMask (h : k < n) (j : Nat) :
    (((1 : BitVec n) <<< k) - 1).getLsbD j = decide (j < k) := by
  rw [BitVec.getLsbD, toNat_lowMask h, Nat.testBit_two_pow_sub_one]

end Diana.Lib
