import Diana.Patcher.EmitA64

/-!
# Near forms

The target is in reach from the new place: the moved instruction is one word whose offset field was
rewritten. `near_target` says that the rewritten field leads from `dst` to the old target; the
theorems `near_b`, `near_imm19`, `near_tb` and `near_adr` are the classes.
-/

namespace Diana.Patcher

open Diana.A64 Diana.Lib

/-! ## Fields of the moved word -/

/-- `SignExtend` is the sign extension of the low bits. -/
theorem signExtend_eq (value : BitVec 32) {bits : Nat} (h0 : 0 < bits) (h1 : bits ≤ 32) :
    signExtend value bits = (value.setWidth bits).signExtend 64 := by
  have hsign : 1#64 <<< (bits - 1) = BitVec.twoPow 64 (bits - 1) := (BitVec.twoPow_eq 64 _).symm
  have hwide : value.setWidth 64 &&& ((BitVec.twoPow 64 (bits - 1) <<< 1) - 1) =
      (value.setWidth bits).setWidth 64 := by
    have hlt : 2 ^ bits < 2 ^ 64 := Nat.pow_lt_pow_right (by decide) (by omega)
    have hv := value.isLt
    have hmask : ((BitVec.twoPow 64 (bits - 1) <<< 1) - 1).toNat = 2 ^ bits - 1 := by
      rw [← hsign, ← BitVec.shiftLeft_add, show bits - 1 + 1 = bits by omega]
      have hp : 0 < 2 ^ bits := Nat.two_pow_pos bits
      have hone : (1 : BitVec 64).toNat = 1 := rfl
      rw [BitVec.toNat_sub, BitVec.toNat_shiftLeft, hone, Nat.shiftLeft_eq,
        show (1#64).toNat = 1 from rfl, Nat.one_mul, Nat.mod_eq_of_lt hlt,
        show 2 ^ 64 - 1 + 2 ^ bits = 2 ^ bits - 1 + 2 ^ 64 by omega,
        Nat.add_mod_right, Nat.mod_eq_of_lt (by omega)]
    apply BitVec.eq_of_toNat_eq
    rw [BitVec.toNat_and, hmask, Nat.and_two_pow_sub_one_eq_mod]
    simp only [BitVec.toNat_setWidth]
    have := Nat.mod_lt value.toNat (Nat.two_pow_pos bits)
    rw [Nat.mod_eq_of_lt (show value.toNat < 2 ^ 64 by omega),
      Nat.mod_eq_of_lt (show value.toNat % 2 ^ bits < 2 ^ 64 by omega)]
  unfold signExtend
  simp only [hsign, hwide]
  exact xor_sub_twoPow _ h0 (by omega)

theorem fitsSigned_iff {value : BitVec 64} {bits : Nat} (h1 : bits ≤ 32) :
    fitsSigned value bits = true ↔
      -2 ^ (bits - 1) ≤ value.toInt ∧ value.toInt < 2 ^ (bits - 1) := by
  have hlt : 2 ^ (bits - 1) ≤ 2 ^ 31 := Nat.pow_le_pow_right (by decide) (by omega)
  have hlim : (1#64 <<< (bits - 1)).toNat = 2 ^ (bits - 1) := by
    rw [BitVec.toNat_shiftLeft]
    simp only [BitVec.toNat_ofNat, Nat.shiftLeft_eq]
    omega
  have hpos : 0 < 2 ^ (bits - 1) := Nat.two_pow_pos _
  have hl : (1#64 <<< (bits - 1)).toInt = 2 ^ (bits - 1) := by
    rw [BitVec.toInt_eq_toNat_cond, hlim, if_pos (by omega)]
    push_cast
    rfl
  have hn : (-(1#64 <<< (bits - 1))).toInt = -2 ^ (bits - 1) := by
    have hneg : (-(1#64 <<< (bits - 1))).toNat = 2 ^ 64 - 2 ^ (bits - 1) := by
      rw [BitVec.toNat_neg, hlim, Nat.mod_eq_of_lt (by omega)]
    rw [BitVec.toInt_eq_toNat_cond, hneg, if_neg (by omega), Nat.cast_sub (by omega)]
    push_cast
    omega
  simp only [fitsSigned, Bool.and_eq_true, BitVec.sle_iff_toInt_le, BitVec.slt_iff_toInt_lt, hl, hn]

/-- The distance of two multiples of a power of two is a multiple of it. -/
theorem dvd_distance {k : Nat} {a b : Addr} (hk : k ∣ 2 ^ 64) (ha : k ∣ a.toNat)
    (hb : k ∣ b.toNat) : (k : Int) ∣ (distance a b).toInt := by
  have hn : k ∣ (distance a b).toNat := by
    rw [distance, BitVec.toNat_sub, Nat.dvd_mod_iff hk]
    exact Nat.dvd_add (Nat.dvd_sub hk ha) hb
  rw [BitVec.toInt_eq_toNat_cond]
  split
  · exact Int.natCast_dvd_natCast.mpr hn
  · exact Int.dvd_sub (Int.natCast_dvd_natCast.mpr hn) (Int.natCast_dvd_natCast.mpr hk)

/-- A base and a scaled offset, both multiples of the scale. -/
theorem dvd_add_mul {k : Nat} {a x : Addr} {c : BitVec 64} (hk : k ∣ 2 ^ 64) (ha : k ∣ a.toNat)
    (hc : c.toNat = k) : k ∣ (a + x * c).toNat := by
  rw [BitVec.toNat_add, BitVec.toNat_mul, Nat.dvd_mod_iff hk, hc]
  refine Nat.dvd_add ha ?_
  rw [Nat.dvd_mod_iff hk]
  exact Nat.dvd_mul_left k _

/-- A branch target stays a multiple of four away from an aligned address. -/
theorem four_dvd_distance {src dst x : Addr} (hs : 4 ∣ src.toNat) (hd : 4 ∣ dst.toNat) :
    (4 : Int) ∣ (distance dst (src + x * 4)).toInt :=
  dvd_distance (by decide) hd (dvd_add_mul (by decide) hs rfl)

/-- The near form: the rewritten field leads from `dst` to the old target. -/
theorem near_target {dst target : Addr} {bits : Nat} (h0 : 0 < bits) (h1 : bits ≤ 32)
    (hdvd : (4 : Int) ∣ (distance dst target).toInt)
    (hfit : fitsSigned ((distance dst target).sdiv 4) bits = true) :
    dst + ((((distance dst target).sdiv 4).setWidth 32).setWidth bits).signExtend 64 * 4 =
      target := by
  obtain ⟨hlo, hhi⟩ := (fitsSigned_iff h1).mp hfit
  rw [BitVec.setWidth_setWidth_of_le _ h1, signExtend_sdiv h0 (by omega) hdvd hlo hhi, distance,
    BitVec.add_comm, BitVec.sub_add_cancel]

/-! ## Near forms -/

section Near

variable {ρ : Type} {A : Arch ρ} {word : Word} {src dst : Addr}

theorem imm26_eq (word : Word) : signExtend (word &&& 0x3FFFFFF) 26 * 4 = imm26 word := by
  have h := setWidth_shift_and (w := word) (m := 0x3FFFFFF) 0 26 (by decide) (by decide)
  rw [signExtend_eq _ (by decide) (by decide), imm26, ← h, BitVec.ushiftRight_zero]

theorem imm19_eq (word : Word) :
    signExtend ((word >>> 5) &&& 0x7FFFF) 19 * 4 = imm19 word := by
  rw [signExtend_eq _ (by decide) (by decide), imm19,
    setWidth_shift_and _ _ (by decide) (by decide)]

/-- `moveConditional` masks the field before it shifts. -/
theorem offset19_eq (word : Word) :
    signExtend ((word &&& (((1#32 <<< 19) - 1) <<< 5)) >>> 5) 19 * 4 = imm19 word := by
  rw [signExtend_eq _ (by decide) (by decide), imm19, setWidth_and_shift (by decide) (by decide)]

theorem offset14_eq (word : Word) :
    signExtend ((word &&& (((1#32 <<< 14) - 1) <<< 5)) >>> 5) 14 * 4 = imm14 word := by
  rw [signExtend_eq _ (by decide) (by decide), imm14, setWidth_and_shift (by decide) (by decide)]

/-- The new word of a near form with a 19-bit field. -/
theorem word19_eq (word : Word) (q : BitVec 32) :
    (word &&& ~~~(0x7FFFF#32 <<< 5)) ||| ((q &&& 0x7FFFF) <<< 5) =
      setField word 5 19 (q.setWidth 19) := by
  rw [BitVec.shiftLeft_and_distrib]
  exact or_shift_and_eq_setField _ _ q (by decide)

theorem imm19_setField (word : Word) (f : BitVec 19) :
    imm19 (setField word 5 19 f) = f.signExtend 64 * 4 := by
  rw [imm19, extractLsb'_setField_same _ _ (by decide)]

theorem imm14_setField (word : Word) (f : BitVec 14) :
    imm14 (setField word 5 14 f) = f.signExtend 64 * 4 := by
  rw [imm14, extractLsb'_setField_same _ _ (by decide)]

theorem near_b (hb : isB word = true) (hs : 4 ∣ src.toNat) (hd : 4 ∣ dst.toNat)
    (hfit : fitsSigned ((distance dst (src + imm26 word)).sdiv 4) 26 = true) :
    SameEffect A word src dst (putWord ((word &&& 0xFC000000) |||
      (((distance dst (src + imm26 word)).sdiv 4).setWidth 32 &&& 0x3FFFFFF))) := by
  set q := ((distance dst (src + imm26 word)).sdiv 4).setWidth 32 with hq
  have hw : (word &&& 0xFC000000) ||| (q &&& 0x3FFFFFF) = setField word 0 26 (q.setWidth 26) := by
    have h := or_shift_and_eq_setField (w := word) (m := 0x3FFFFFF) 0 26 q (by decide)
    rw [BitVec.shiftLeft_zero] at h
    exact h
  rw [hw]
  have hb' : isB (setField word 0 26 (q.setWidth 26)) = true := by
    rw [isB, setField_and _ _ (by decide)]
    exact hb
  have himm : dst + imm26 (setField word 0 26 (q.setWidth 26)) = src + imm26 word := by
    rw [show imm26 (setField word 0 26 (q.setWidth 26)) = (q.setWidth 26).signExtend 64 * 4 by
      rw [imm26, extractLsb'_setField_same _ _ (by decide)]]
    exact near_target (by decide) (by decide) (four_dvd_distance hs hd) hfit
  have h31 : (setField word 0 26 (q.setWidth 26)).getLsbD 31 = word.getLsbD 31 := by
    rw [getLsbD_setField _ _ _ _ (by decide), if_neg (by decide)]
  refine sameEffect_single fun s => ?_
  rw [effect_b hb', effect_b hb, himm, h31]

/-- A rewritten 19-bit offset, in the classes that have one. -/
theorem near_imm19 (hc : isBCond word = true ∨ isCb word = true ∨ isLiteral word = true)
    (hs : 4 ∣ src.toNat) (hd : 4 ∣ dst.toNat)
    (hfit : fitsSigned ((distance dst (src + imm19 word)).sdiv 4) 19 = true) :
    SameEffect A word src dst (putWord (setField word 5 19
      ((((distance dst (src + imm19 word)).sdiv 4).setWidth 32).setWidth 19))) := by
  set q := ((distance dst (src + imm19 word)).sdiv 4).setWidth 32 with hq
  set word' := setField word 5 19 (q.setWidth 19) with hword'
  have himm : dst + imm19 word' = src + imm19 word := by
    rw [imm19_setField]
    exact near_target (by decide) (by decide) (four_dvd_distance hs hd) hfit
  have hrt : rt word' = rt word := extractLsb'_setField_other _ _ (by decide) (by decide)
  have hbit : ∀ i, 24 ≤ i → i < 32 → word'.getLsbD i = word.getLsbD i := by
    intro i h1 h2
    rw [getLsbD_setField _ _ _ _ h2, if_neg (by omega)]
  refine sameEffect_single fun s => ?_
  rcases hc with hc | hc | hc
  · have hc' : isBCond word' = true := by
      rw [isBCond, setField_and _ _ (by decide)]
      exact hc
    have hcond : word'.extractLsb' 0 4 = word.extractLsb' 0 4 :=
      extractLsb'_setField_other _ _ (by decide) (by decide)
    rw [effect_bCond hc', effect_bCond hc, himm, hcond]
  · have hc' : isCb word' = true := by
      rw [isCb, setField_and _ _ (by decide)]
      exact hc
    have htaken : cbTaken word' s = cbTaken word s := by
      simp only [cbTaken, cbValue, hrt, hbit 24 (by decide) (by decide),
        hbit 31 (by decide) (by decide)]
    rw [effect_cb hc', effect_cb hc, himm, htaken]
  · have hc' : isLiteral word' = true := by
      rw [isLiteral, setField_and _ _ (by decide)]
      exact hc
    have hopc : word'.extractLsb' 30 2 = word.extractLsb' 30 2 :=
      extractLsb'_setField_other _ _ (by decide) (by decide)
    rw [effect_literal hc', effect_literal hc, himm, hopc, hrt, hbit 26 (by decide) (by decide)]

theorem near_tb (hc : isTb word = true) (hs : 4 ∣ src.toNat) (hd : 4 ∣ dst.toNat)
    (hfit : fitsSigned ((distance dst (src + imm14 word)).sdiv 4) 14 = true) :
    SameEffect A word src dst (putWord (setField word 5 14
      ((((distance dst (src + imm14 word)).sdiv 4).setWidth 32).setWidth 14))) := by
  set q := ((distance dst (src + imm14 word)).sdiv 4).setWidth 32 with hq
  set word' := setField word 5 14 (q.setWidth 14) with hword'
  have himm : dst + imm14 word' = src + imm14 word := by
    rw [imm14_setField]
    exact near_target (by decide) (by decide) (four_dvd_distance hs hd) hfit
  have hrt : rt word' = rt word := extractLsb'_setField_other _ _ (by decide) (by decide)
  have htb : tbBit word' = tbBit word := by
    rw [tbBit, tbBit, extractLsb'_setField_other _ _ (by decide) (by decide),
      extractLsb'_setField_other _ _ (by decide) (by decide)]
  have h24 : word'.getLsbD 24 = word.getLsbD 24 := by
    rw [getLsbD_setField _ _ _ _ (by decide), if_neg (by decide)]
  have hc' : isTb word' = true := by
    rw [isTb, setField_and _ _ (by decide)]
    exact hc
  refine sameEffect_single fun s => ?_
  have htaken : tbTaken word' s = tbTaken word s := by
    simp only [tbTaken, hrt, htb, h24]
  rw [effect_tb hc', effect_tb hc, himm, htaken]

/-! ### Address formation -/

theorem immAdr_eq (word : Word) :
    signExtend ((((word >>> 5) &&& 0x7FFFF) <<< 2) ||| ((word >>> 29) &&& 3)) 21 = immAdr word := by
  rw [signExtend_eq _ (by decide) (by decide), immAdr]
  congr 1
  apply BitVec.eq_of_getLsbD_eq
  intro i hi
  rw [show (0x7FFFF : BitVec 32) = (BitVec.allOnes 19).setWidth 32 by decide,
    show (3 : BitVec 32) = (BitVec.allOnes 2).setWidth 32 by decide]
  simp only [BitVec.getLsbD_setWidth, BitVec.getLsbD_or, BitVec.getLsbD_and,
    BitVec.getLsbD_shiftLeft, BitVec.getLsbD_ushiftRight, BitVec.getLsbD_allOnes,
    BitVec.getLsbD_append, BitVec.getLsbD_extractLsb']
  have h32 : i < 32 := by omega
  by_cases hlt : i < 2
  · simp [hi, h32, hlt]
  · simp [hi, h32, hlt, show i - 2 < 19 by omega, show i - 2 < 32 by omega]

/-- The new word of a near `adr` or `adrp`. -/
theorem wordAdr_eq (word : Word) (d : BitVec 32) :
    (word &&& 0x9F00001F) ||| ((d &&& 3) <<< 29) ||| (((d >>> 2) &&& 0x7FFFF) <<< 5) =
      setField (setField word 29 2 (d.setWidth 2)) 5 19 ((d >>> 2).setWidth 19) := by
  have hm : (word &&& 0x9F00001F) =
      (word &&& ~~~((BitVec.allOnes 2).setWidth 32 <<< 29)) &&&
        ~~~((BitVec.allOnes 19).setWidth 32 <<< 5) := by
    rw [BitVec.and_assoc]
    rfl
  apply BitVec.eq_of_getLsbD_eq
  intro i hi
  rw [getLsbD_setField _ _ _ _ hi, getLsbD_setField _ _ _ _ hi, hm,
    show (0x7FFFF : BitVec 32) = (BitVec.allOnes 19).setWidth 32 by decide,
    show (3 : BitVec 32) = (BitVec.allOnes 2).setWidth 32 by decide]
  simp only [BitVec.getLsbD_or, BitVec.getLsbD_and, BitVec.getLsbD_not, BitVec.getLsbD_shiftLeft,
    BitVec.getLsbD_setWidth, BitVec.getLsbD_allOnes, BitVec.getLsbD_ushiftRight]
  interval_cases i <;> simp

theorem immAdr_setField (word : Word) (d : BitVec 32) :
    immAdr (setField (setField word 29 2 (d.setWidth 2)) 5 19 ((d >>> 2).setWidth 19)) =
      (d.setWidth 21).signExtend 64 := by
  rw [immAdr, extractLsb'_setField_same _ _ (by decide),
    extractLsb'_setField_other _ _ (by decide) (by decide),
    extractLsb'_setField_same _ _ (by decide)]
  congr 1
  apply BitVec.eq_of_getLsbD_eq
  intro i hi
  rw [BitVec.getLsbD_append]
  by_cases hlt : i < 2
  · simp [hi, hlt]
  · simp [hi, hlt, show i - 2 < 19 by omega, show 2 + (i - 2) = i by omega]

theorem dvd_page (a : Addr) : 4096 ∣ (page a).toNat := by
  have h : page a = (a >>> 12) <<< 12 := by
    apply BitVec.eq_of_getLsbD_eq
    intro i hi
    rw [page, show (0xFFF : BitVec 64) = (BitVec.allOnes 12).setWidth 64 by decide]
    simp only [BitVec.getLsbD_and, BitVec.getLsbD_not, BitVec.getLsbD_setWidth,
      BitVec.getLsbD_allOnes, BitVec.getLsbD_shiftLeft, BitVec.getLsbD_ushiftRight]
    by_cases hlt : i < 12
    · simp [hi, hlt]
    · simp [hi, hlt, show 12 + (i - 12) = i by omega]
  rw [h, BitVec.toNat_shiftLeft, Nat.shiftLeft_eq, Nat.dvd_mod_iff (by decide)]
  exact Nat.dvd_mul_left _ _

/-- The distance `adr` and `adrp` encode, in bytes or in pages. -/
def adrDelta (word : Word) (src dst : Addr) : BitVec 64 :=
  if word.getLsbD 31 then (distance (page dst) (adrValue word src)).sdiv 4096
  else distance dst (adrValue word src)

theorem near_adr (hc : isAdr word = true) (hfit : fitsSigned (adrDelta word src dst) 21 = true) :
    SameEffect A word src dst (putWord (setField
      (setField word 29 2 (((adrDelta word src dst).setWidth 32).setWidth 2)) 5 19
      (((adrDelta word src dst).setWidth 32 >>> 2).setWidth 19))) := by
  set delta := adrDelta word src dst with hdelta
  set word' := setField (setField word 29 2 ((delta.setWidth 32).setWidth 2)) 5 19
    ((delta.setWidth 32 >>> 2).setWidth 19) with hword'
  have hc' : isAdr word' = true := by
    rw [isAdr, setField_and _ _ (by decide), setField_and _ _ (by decide)]
    exact hc
  have hrt : rt word' = rt word := by
    rw [rt, extractLsb'_setField_other _ _ (by decide) (by decide),
      extractLsb'_setField_other _ _ (by decide) (by decide)]
    rfl
  have h31 : word'.getLsbD 31 = word.getLsbD 31 := by
    rw [getLsbD_setField _ _ _ _ (by decide), if_neg (by decide),
      getLsbD_setField _ _ _ _ (by decide), if_neg (by decide)]
  obtain ⟨hlo, hhi⟩ := (fitsSigned_iff (by decide)).mp hfit
  have himm : immAdr word' = delta := by
    rw [immAdr_setField, BitVec.setWidth_setWidth_of_le _ (by decide)]
    exact signExtend_setWidth_of_fits (by decide) (by decide) hlo hhi
  have hvalue : adrValue word' dst = adrValue word src := by
    rw [adrValue, h31, himm, hdelta, adrDelta]
    split
    · next h =>
      have hdvd : (4096 : Int) ∣ (distance (page dst) (adrValue word src)).toInt := by
        refine dvd_distance (by decide) (dvd_page dst) ?_
        rw [adrValue, if_pos h]
        exact dvd_add_mul (by decide) (dvd_page src) rfl
      rw [sdiv_mul_of_dvd hdvd, distance, BitVec.add_comm, BitVec.sub_add_cancel]
    · rw [distance, BitVec.add_comm, BitVec.sub_add_cancel]
  refine sameEffect_single fun s => ?_
  rw [effect_adr hc', effect_adr hc, hrt, hvalue]

end Near

end Diana.Patcher
