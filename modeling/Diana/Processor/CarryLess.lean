import Diana.Lib.BinaryPoly
import Diana.Processor.Extensions

/-!
# Carry-less products and checksums

`pclmulqdq` and `crc32`, as arithmetic of polynomials over the field of two elements.

* `bitsPoly_pclmulValue`: the two words of `pclmulqdq` are the product;
* `bitsPoly_crc32`: a run of `crc32` instructions, however it cuts the data into operands, leaves
  the remainder of the data by the polynomial of CRC-32C.
-/

namespace Diana.Processor

open Diana.Lib Polynomial

/-! ## Products -/

/-- `u64[k]` of `DianaRegisterXMM_type` -/
def u64 (value : BitVec 128) (k : Nat) : Value := value.extractLsb' (64 * k) 64

/-- A turn of the loop of `Diana_PclmulValue`. -/
def pclmulTurn (a b : Value) (i : Nat) (low high : Value) : Value × Value :=
  if (b >>> i) &&& 1 = 0 then (low, high)
  else (low ^^^ a <<< i, if i ≠ 0 then high ^^^ a >>> (64 - i) else high)

def pclmulLoop (a b : Value) : (turns : Nat) → Value × Value
  | 0 => (0, 0)
  | i + 1 => pclmulTurn a b i (pclmulLoop a b i).1 (pclmulLoop a b i).2

/-- `Diana_PclmulValue` -/
def pclmulValue (a b : BitVec 128) (imm : Value) : BitVec 128 :=
  let r := pclmulLoop (u64 a (imm &&& 1).toNat) (u64 b ((imm >>> 4) &&& 1).toNat) 64
  r.2 ++ r.1

/-- A turn adds the first factor, moved up. -/
theorem bitsPoly_shifted (a : Value) {i : Nat} (hi : i < 64) :
    bitsPoly ((if i ≠ 0 then a >>> (64 - i) else 0) ++ a <<< i) = bitsPoly a * X ^ i := by
  ext j
  rw [coeff_bitsPoly, coeff_mul_X_pow_bitsPoly, BitVec.getLsbD_append, BitVec.getLsbD_shiftLeft]
  by_cases hj : j < 64
  · by_cases hle : i ≤ j
    · simp [hj, hle, Nat.not_lt.2 hle]
    · simp [hj, hle, Nat.lt_of_not_le hle]
  · have hle : i ≤ j := by omega
    rw [if_neg hj]
    split
    · rw [BitVec.getLsbD_ushiftRight]
      have : 64 - i + (j - 64) = j - i := by omega
      simp [this, hle]
    · next h0 =>
      obtain rfl : i = 0 := by omega
      simp [BitVec.getLsbD_of_ge a j (by omega)]

theorem bitsPoly_pclmulLoop (a b : Value) {n : Nat} (hn : n ≤ 64) :
    bitsPoly ((pclmulLoop a b n).2 ++ (pclmulLoop a b n).1) =
      bitsPoly a * ∑ i ∈ Finset.range n, if b.getLsbD i then X ^ i else 0 := by
  induction n with
  | zero =>
    change bitsPoly (0#64 ++ 0#64) = _
    rw [Finset.sum_range_zero, mul_zero, bitsPoly_append, bitsPoly_zero, zero_mul, add_zero]
  | succ n ih =>
    have hbit := and_twoPow_eq_zero_iff (b >>> n) (Nat.succ_pos 63)
    rw [BitVec.getLsbD_ushiftRight, Nat.add_zero] at hbit
    rw [Finset.sum_range_succ, mul_add, ← ih (by omega), pclmulLoop, pclmulTurn]
    by_cases hb : b.getLsbD n = true
    · have hturn : ¬ (b >>> n) &&& 1 = 0 := fun h => absurd (hbit.1 h) (by simp [hb])
      rw [if_neg hturn, if_pos hb, ← bitsPoly_shifted a (by omega), ← bitsPoly_xor]
      congr 1
      dsimp only
      split
      · exact BitVec.xor_append.symm
      · next h0 =>
        rw [BitVec.xor_append]
        simp
    · have hturn : (b >>> n) &&& 1 = 0 := hbit.2 (Bool.eq_false_iff.2 hb)
      rw [if_pos hturn, if_neg hb, mul_zero, add_zero]

theorem bitsPoly_pclmulValue (a b : BitVec 128) (imm : Value) :
    bitsPoly (pclmulValue a b imm) =
      bitsPoly (u64 a (imm &&& 1).toNat) * bitsPoly (u64 b ((imm >>> 4) &&& 1).toNat) :=
  bitsPoly_pclmulLoop _ _ (Nat.le_refl 64)

/-! ## Checksums -/

/-- `x^32 + x^28 + …`, the polynomial of CRC-32C. -/
noncomputable def castagnoli : (ZMod 2)[X] :=
  X ^ 32 + X ^ 28 + X ^ 27 + X ^ 26 + X ^ 25 + X ^ 23 + X ^ 22 + X ^ 20 + X ^ 19 + X ^ 18 + X ^ 14 +
    X ^ 13 + X ^ 11 + X ^ 10 + X ^ 9 + X ^ 8 + X ^ 6 + 1

theorem modulus_castagnoli : modulus 0x1EDC6F41#32 = castagnoli := by
  simp [modulus, bitsPoly, castagnoli, Finset.sum_range_succ]
  ring

/-- The bytes as a polynomial, the lowest bit of the first byte highest. -/
noncomputable def messagePoly (bytes : List Byte) : (ZMod 2)[X] :=
  bytes.foldl (fun f b => f * X ^ 8 + bitsPoly b.reverse) 0

/-- In the reversed register a bit is a shift to the left. -/
theorem reverse_crc32Bit (crc : BitVec 32) :
    (crc32Bit crc).reverse = mulX 0x1EDC6F41#32 crc.reverse := by
  have hone : crc &&& 1#32 = if crc.getLsbD 0 then 1#32 else 0#32 := BitVec.and_twoPow crc 0
  have hmsb : crc.reverse.msb = crc.getLsbD 0 := BitVec.getMsbD_reverse
  rw [crc32Bit, mulX, reverse_xor, reverse_ushiftRight_one, hone, hmsb]
  congr 1
  cases crc.getLsbD 0 <;> decide +kernel

/-- A byte is put to the lowest bits, which are the highest of the reversed register. -/
theorem bitsPoly_reverse_byte (b : Byte) :
    bitsPoly (b.setWidth 32).reverse = bitsPoly b.reverse * X ^ 24 := by
  ext i
  rw [coeff_bitsPoly, coeff_mul_X_pow_bitsPoly, BitVec.getLsbD_reverse, BitVec.getLsbD_reverse]
  congr 1
  rw [BitVec.getMsbD_eq_getLsbD, BitVec.getMsbD_eq_getLsbD, BitVec.getLsbD_setWidth]
  by_cases hi : i < 32
  · by_cases hle : 24 ≤ i
    · have h8 : i - 24 < 8 := by omega
      have hsub : 8 - 1 - (i - 24) = 32 - 1 - i := by omega
      have hlt : 32 - 1 - i < 32 := by omega
      simp [hi, hle, h8, hsub, hlt]
    · rw [BitVec.getLsbD_of_ge b _ (by omega)]
      simp [hle]
  · have h8 : ¬ i - 24 < 8 := by omega
    simp [hi, h8]

theorem residue_crc32Byte (crc : BitVec 32) (b : Byte) :
    residue 0x1EDC6F41#32 (crc32Byte crc b).reverse =
      (residue 0x1EDC6F41#32 crc.reverse + AdjoinRoot.mk _ (bitsPoly b.reverse * X ^ 24)) *
      AdjoinRoot.root _ ^ 8 := by
  have hiterate : ∀ (n : Nat) (c : BitVec 32), residue 0x1EDC6F41#32 (crc32Bit^[n] c).reverse =
      residue 0x1EDC6F41#32 c.reverse * AdjoinRoot.root _ ^ n := by
    intro n
    induction n with
    | zero =>
      intro c
      rw [Function.iterate_zero_apply, pow_zero, mul_one]
    | succ n ih =>
      intro c
      rw [Function.iterate_succ_apply, ih, reverse_crc32Bit, residue_mulX, mul_assoc, ← pow_succ']
  rw [crc32Byte, hiterate, reverse_xor, residue_xor, ← bitsPoly_reverse_byte]
  rfl

theorem residue_crc32Bytes (crc : BitVec 32) (bytes : List Byte) :
    residue 0x1EDC6F41#32 (bytes.foldl crc32Byte crc).reverse =
      AdjoinRoot.mk _
      (bitsPoly crc.reverse * X ^ (8 * bytes.length) + messagePoly bytes * X ^ 32) := by
  induction bytes using List.reverseRecOn with
  | nil => simp [messagePoly, residue]
  | append_singleton bytes b ih =>
    have hmessage : messagePoly (bytes ++ [b]) =
        messagePoly bytes * X ^ 8 + bitsPoly b.reverse := by
      rw [messagePoly, List.foldl_append]
      rfl
    rw [List.foldl_append, List.foldl_cons, List.foldl_nil, residue_crc32Byte, ih, hmessage,
      ← AdjoinRoot.mk_X, ← map_pow, ← map_add, ← map_mul, List.length_append, List.length_singleton]
    congr 1
    ring

/-- The data of a run of `crc32` instructions. -/
def crc32Data (sources : List (Value × Size)) :
    List Byte := sources.flatMap fun p => leBytes p.2.bytes p.1

theorem crc32_run (crc : BitVec 32) (sources : List (Value × Size)) :
    sources.foldl (fun crc p => crc32Value crc p.1 p.2) crc =
    (crc32Data sources).foldl crc32Byte crc := by
  induction sources generalizing crc with
  | nil => rfl
  | cons p sources ih =>
    have hdata : crc32Data (p :: sources) = leBytes p.2.bytes p.1 ++ crc32Data sources :=
      List.flatMap_cons
    rw [List.foldl_cons, ih, hdata, List.foldl_append]
    rfl

/-- The register after the run, read the other way round. -/
theorem bitsPoly_crc32 (crc : BitVec 32) (sources : List (Value × Size)) :
    bitsPoly (sources.foldl (fun crc p => crc32Value crc p.1 p.2) crc).reverse =
      (bitsPoly crc.reverse * X ^ (8 * (crc32Data sources).length) + messagePoly
        (crc32Data sources) * X ^ 32) %ₘ castagnoli := by
  rw [crc32_run, ← modulus_castagnoli]
  exact bitsPoly_eq_mod (residue_crc32Bytes _ _)

end Diana.Processor
