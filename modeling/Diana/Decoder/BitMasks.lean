import Diana.Lib.Bits
import Diana.Lib.CyclicRun
import Mathlib.Data.BitVec

/-!
# Immediates of the logical instructions

`DianaA64_DecodeBitMasks` of `diana_arm64.c`: the fields `N`, `imms` and `immr` of `and`, `orr`,
`eor` and `tst` give a run of ones, rotated in an element of 2 to 64 bits, that fills the register.

* `Element`: a run, a rotation and a size;
* `decodeBitMasks_iff`: the values that have fields are those of an element;
* `decodeBitMasks_eq_iff`: a value has one `N` and `imms`, and one `immr` but for the bits that the
  element leaves out.
-/

namespace Diana.BitMasks

open Diana.Lib

abbrev Value := BitVec 64

/-- `Ones` -/
def ones (count : Nat) : Value := if 64 ≤ count then ~~~0 else ((1 : Value) <<< count) - 1

/-- The first loop: the highest bit below `i`. -/
def highest (combined : BitVec 7) : (i : Nat) → Option Nat
  | 0 => none
  | i + 1 => if combined.getLsbD i then some i else highest combined i

/-- The second loop. -/
def fill (element : Value) (esize regSize : Nat) : (turns i : Nat) → Value → Value
  | 0, _, result => result
  | turns + 1, i, result =>
    if i < regSize then fill element esize regSize turns (i + esize) (result ||| (element <<< i))
      else result

/-- `welem`, rotated to the right inside `esize` bits. -/
def elementOf (esize s r : Nat) : Value :=
  let welem := ones (s + 1)
  if r ≠ 0 then ((welem >>> r) ||| (welem <<< (esize - r))) &&& ones esize else welem

/-- `DianaA64_DecodeBitMasks` -/
def decodeBitMasks (n : BitVec 1) (imms immr : BitVec 6) (regSize : Nat) : Option Value :=
  match highest (n ++ ~~~imms) 7 with
  | none => none
  | some len =>
    if len < 1 then none
    else
      let esize := 1 <<< len
      if regSize < esize then none
      else
        let levels := (ones len).toNat
        if imms.toNat &&& levels = levels then none
        else
          let s := imms.toNat &&& levels
          let r := immr.toNat &&& levels
          some (fill (elementOf esize s r) esize regSize regSize 0 0 &&& ones regSize)

/-! ## Fields -/

/-- The logarithm of the element's size and the place where the run ends. -/
def shape (n : BitVec 1) (imms : BitVec 6) : Option (Nat × Nat) :=
  match highest (n ++ ~~~imms) 7 with
  | none => none
  | some len =>
    if len < 1 then none
    else if imms.toNat % 2 ^ len = 2 ^ len - 1 then none
    else some (len, imms.toNat % 2 ^ len)

/-- The fields of a shape. -/
def fieldsOf (len s : Nat) : BitVec 1 × BitVec 6 :=
  (BitVec.ofBool (len == 6), (BitVec.allOnes 6 <<< (len + 1)) ||| BitVec.ofNat 6 s)

theorem shape_bounds : ∀ n imms, ∀ p ∈ shape n imms, 1 ≤ p.1 ∧ p.1 ≤ 6 ∧ p.2 + 1 < 2 ^ p.1 ∧
    fieldsOf p.1 p.2 = (n, imms) := by
  decide +kernel

theorem shape_fieldsOf_fin : ∀ (len : Fin 7) (s : Fin 64), 1 ≤ len.1 → s.1 + 1 < 2 ^ len.1 →
    shape (fieldsOf len s).1 (fieldsOf len s).2 = some (len.1, s.1) := by
  decide +kernel

theorem shape_fieldsOf {len s : Nat} (h : 1 ≤ len) (hlen : len ≤ 6) (hs : s + 1 < 2 ^ len) :
    shape (fieldsOf len s).1 (fieldsOf len s).2 = some (len, s) := by
  have hpow : 2 ^ len ≤ 2 ^ 6 := Nat.pow_le_pow_right Nat.two_pos hlen
  exact shape_fieldsOf_fin ⟨len, by omega⟩ ⟨s, by omega⟩ h hs

theorem highest_lt (combined : BitVec 7) (i : Nat) {len : Nat} (h : highest combined i = some len) :
    len < i := by
  induction i with
  | zero => cases h
  | succ i ih =>
    unfold highest at h
    split at h
    · cases h
      exact Nat.lt_succ_self _
    · exact Nat.lt_succ_of_lt (ih h)

theorem toNat_ones {count : Nat} (h : count < 64) : (ones count).toNat = 2 ^ count - 1 := by
  unfold ones
  rw [if_neg (Nat.not_le_of_lt h)]
  exact toNat_lowMask h

@[simp] theorem getLsbD_ones (count i : Nat) :
    (ones count).getLsbD i = decide (i < 64 ∧ i < count) := by
  by_cases h : count < 64
  · rw [BitVec.getLsbD, toNat_ones h, Nat.testBit_two_pow_sub_one]
    exact decide_eq_decide.2 (by omega)
  · unfold ones
    rw [if_pos (Nat.le_of_not_lt h), BitVec.getLsbD_not]
    have hiff : i < 64 ∧ i < count ↔ i < 64 := by omega
    simp [hiff]

/-- The code in terms of the shape. -/
theorem decodeBitMasks_eq (n : BitVec 1) (imms immr : BitVec 6) (regSize : Nat) :
    decodeBitMasks n imms immr regSize = (shape n imms).bind fun p =>
      if regSize < 2 ^ p.1 then none
      else
        some (fill (elementOf (2 ^ p.1) p.2 (immr.toNat % 2 ^ p.1)) (2 ^ p.1) regSize regSize 0
          0 &&& ones regSize) := by
  unfold decodeBitMasks shape
  cases hlen : highest (n ++ ~~~imms) 7 with
  | none => rfl
  | some len =>
    have hlt := highest_lt _ 7 hlen
    have hand : ∀ x, x &&& 2 ^ len - 1 = x % 2 ^ len :=
      fun x => Nat.and_two_pow_sub_one_eq_mod x len
    dsimp only
    rw [toNat_ones (by omega), Nat.one_shiftLeft, hand, hand]
    by_cases hzero : len < 1
    · rw [if_pos hzero, if_pos hzero]
      rfl
    · rw [if_neg hzero, if_neg hzero]
      by_cases hall : imms.toNat % 2 ^ len = 2 ^ len - 1
      · rw [if_pos hall, if_pos hall]
        exact ite_self none
      · rw [if_neg hall, if_neg hall]
        rfl

/-! ## Bits -/

theorem getLsbD_elementOf {e s r : Nat} (he : e ≤ 64) (hs : s + 1 < e) (hr : r < e) (i : Nat) :
    (elementOf e s r).getLsbD i = decide (i < e ∧ CyclicRun e s r i) := by
  unfold elementOf
  rw [Bool.eq_iff_iff, decide_eq_true_iff]
  by_cases hi : i < e
  · rw [cyclicRun_iff (Nat.lt_of_succ_lt hs) hr hi]
    by_cases h0 : r = 0
    · subst h0
      rw [if_neg (not_not_intro rfl), getLsbD_ones, decide_eq_true_iff]
      omega
    · rw [if_pos h0]
      simp only [BitVec.getLsbD_and, BitVec.getLsbD_or, BitVec.getLsbD_ushiftRight,
        BitVec.getLsbD_shiftLeft, getLsbD_ones, Bool.and_eq_true, Bool.or_eq_true,
        decide_eq_true_eq, Bool.not_eq_true', decide_eq_false_iff_not]
      omega
  · refine iff_of_false ?_ fun h => hi h.1
    by_cases h0 : r = 0
    · rw [if_neg (not_not_intro h0), getLsbD_ones, decide_eq_true_iff]
      omega
    · rw [if_pos h0, BitVec.getLsbD_and, getLsbD_ones, decide_eq_false (by omega), Bool.and_false]
      exact Bool.false_ne_true

theorem getLsbD_fill {e s r N : Nat} (hdvd : e ∣ N) (hN : N ≤ 64) (hs : s + 1 < e) {element : Value}
    (helement : ∀ i, element.getLsbD i = decide (i < e ∧ CyclicRun e s r i)) {turns i : Nat}
    {result : Value} (hi : e ∣ i) (hle : i ≤ N) (hturns : N ≤ i + turns)
    (hresult : ∀ j, result.getLsbD j = decide (j < i ∧ CyclicRun e s r j)) (j : Nat) :
    (fill element e N turns i result).getLsbD j = decide (j < N ∧ CyclicRun e s r j) := by
  induction turns generalizing i result with
  | zero =>
    obtain rfl : i = N := Nat.le_antisymm hle hturns
    exact hresult j
  | succ turns ih =>
    unfold fill
    split
    · next hlt =>
      have hstep : i + e ≤ N := by
        obtain ⟨k, rfl⟩ := hi
        obtain ⟨m, rfl⟩ := hdvd
        have hkm : k < m := Nat.lt_of_mul_lt_mul_left hlt
        exact Nat.mul_le_mul_left e hkm
      refine ih (Nat.dvd_add hi (Nat.dvd_refl e)) hstep (by omega) fun l => ?_
      rw [BitVec.getLsbD_or, hresult, BitVec.getLsbD_shiftLeft, helement]
      by_cases hl : l < i
      · have hl' : l < i + e := by omega
        simp [hl, hl']
      · obtain ⟨d, rfl⟩ := Nat.exists_eq_add_of_le (Nat.le_of_not_lt hl)
        have hrun : CyclicRun e s r (i + d) ↔ CyclicRun e s r d := by
          unfold CyclicRun
          obtain ⟨k, rfl⟩ := hi
          rw [Nat.add_assoc, Nat.mul_add_mod]
        by_cases hd : d < e
        · have hd64 : i + d < 64 := by omega
          simp [hl, hd, hd64, hrun]
        · have hd' : ¬i + d < i + e := by omega
          simp [hl, hd, hd']
    · next hge =>
      obtain rfl : i = N := Nat.le_antisymm hle (Nat.le_of_not_lt hge)
      exact hresult j

/-! ## Elements -/

/-- An element of `2 ^ len` bits with `s + 1` ones, rotated to the right by `r`. -/
@[ext]
structure Element (regSize : Nat) where
  len : Nat
  s : Nat
  r : Nat
  pos : 1 ≤ len
  fits : 2 ^ len ≤ regSize
  gap : s + 1 < 2 ^ len
  turn : r < 2 ^ len

variable {regSize : Nat} {n n' : BitVec 1} {imms imms' immr immr' : BitVec 6} {v : Value}

/-- The register is full of copies of the element. -/
def Element.Shows (E : Element regSize) (v : Value) : Prop :=
  ∀ i, v.getLsbD i = decide (i < regSize ∧ CyclicRun (2 ^ E.len) E.s E.r i)

theorem Element.len_le (hreg : regSize = 32 ∨ regSize = 64) (E : Element regSize) : E.len ≤ 6 := by
  refine Nat.le_of_not_lt fun hlt => ?_
  have hpow : 2 ^ 7 ≤ 2 ^ E.len := Nat.pow_le_pow_right Nat.two_pos hlt
  have hfits := E.fits
  omega

theorem Element.dvd (hreg : regSize = 32 ∨ regSize = 64) (E : Element regSize) :
    2 ^ E.len ∣ regSize := by
  have hfits := E.fits
  rcases hreg with rfl | rfl
  · exact Nat.pow_dvd_pow 2
      ((Nat.pow_le_pow_iff_right Nat.one_lt_two).1 (show 2 ^ E.len ≤ 2 ^ 5 from hfits))
  · exact Nat.pow_dvd_pow 2
      ((Nat.pow_le_pow_iff_right Nat.one_lt_two).1 (show 2 ^ E.len ≤ 2 ^ 6 from hfits))

/-- A value has one element. -/
theorem Element.Shows.unique (hreg : regSize = 32 ∨ regSize = 64) {E E' : Element regSize}
    (h : E.Shows v) (h' : E'.Shows v) : E = E' := by
  have hpos : 0 < regSize := by omega
  have hrun : ∀ i, CyclicRun (2 ^ E.len) E.s E.r i ↔ CyclicRun (2 ^ E'.len) E'.s E'.r i := by
    intro i
    have hlt := Nat.mod_lt i hpos
    have hbit := (h (i % regSize)).symm.trans (h' (i % regSize))
    rw [decide_eq_decide, cyclicRun_mod (E.dvd hreg), cyclicRun_mod (E'.dvd hreg)] at hbit
    exact (and_iff_right_of_imp fun _ => hlt).symm.trans
      (hbit.trans (and_iff_right_of_imp fun _ => hlt))
  obtain ⟨hpow, hs, hr⟩ := cyclicRun_injective E.gap E'.gap E.turn E'.turn hrun
  exact Element.ext (Nat.pow_right_injective (Nat.le_refl 2) hpow) hs hr

/-- What the loops leave for an element. -/
def Element.value (E : Element regSize) : Value :=
  fill (elementOf (2 ^ E.len) E.s E.r) (2 ^ E.len) regSize regSize 0 0 &&& ones regSize

theorem Element.shows_value (hreg : regSize = 32 ∨ regSize = 64) (E : Element regSize) :
    E.Shows E.value := by
  intro i
  have hle : regSize ≤ 64 := by omega
  have hbits : (fill (elementOf (2 ^ E.len) E.s E.r) (2 ^ E.len) regSize regSize 0 0).getLsbD i =
      decide (i < regSize ∧ CyclicRun (2 ^ E.len) E.s E.r i) :=
    getLsbD_fill (E.dvd hreg) hle E.gap (getLsbD_elementOf (Nat.le_trans E.fits hle) E.gap E.turn)
      (Nat.dvd_zero _) (Nat.zero_le _) (by omega) (by simp) i
  unfold Element.value
  rw [BitVec.getLsbD_and, hbits, getLsbD_ones, ← Bool.decide_and]
  exact decide_eq_decide.2 ⟨fun h => h.1, fun h => ⟨h, by omega, h.1⟩⟩

theorem Element.Shows.eq_value (hreg : regSize = 32 ∨ regSize = 64) {E : Element regSize}
    (h : E.Shows v) : v = E.value :=
  BitVec.eq_of_getLsbD_eq fun i _ => (h i).trans (E.shows_value hreg i).symm

/-- The code goes by the element of the fields. -/
theorem decodeBitMasks_some_iff (hreg : regSize = 32 ∨ regSize = 64) :
    decodeBitMasks n imms immr regSize = some v ↔
      ∃ E : Element regSize, fieldsOf E.len E.s = (n, imms) ∧ E.r = immr.toNat % 2 ^ E.len ∧
      E.value = v := by
  rw [decodeBitMasks_eq, Option.bind_eq_some_iff]
  constructor
  · rintro ⟨p, hshape, hv⟩
    obtain ⟨hpos, -, hgap, hfields⟩ := shape_bounds n imms p hshape
    split at hv
    · cases hv
    · next hfits =>
      have hturn : immr.toNat % 2 ^ p.1 < 2 ^ p.1 := Nat.mod_lt _ (Nat.two_pow_pos p.1)
      exact ⟨⟨p.1, p.2, _, hpos, Nat.le_of_not_lt hfits, hgap, hturn⟩, hfields, rfl,
        Option.some_inj.1 hv⟩
  · rintro ⟨E, hfields, hr, hv⟩
    have hshape := shape_fieldsOf E.pos (E.len_le hreg) E.gap
    rw [hfields] at hshape
    refine ⟨(E.len, E.s), hshape, ?_⟩
    rw [if_neg (Nat.not_lt_of_le E.fits), ← hr]
    exact congrArg some hv

/-- What can be encoded: the values that an element shows. -/
theorem decodeBitMasks_iff (hreg : regSize = 32 ∨ regSize = 64) :
    (∃ n imms immr, decodeBitMasks n imms immr regSize = some v) ↔ ∃ E : Element regSize,
    E.Shows v := by
  constructor
  · rintro ⟨n, imms, immr, h⟩
    obtain ⟨E, -, -, rfl⟩ := (decodeBitMasks_some_iff hreg).1 h
    exact ⟨E, E.shows_value hreg⟩
  · rintro ⟨E, h⟩
    have hpow : 2 ^ E.len ≤ 2 ^ 6 := Nat.pow_le_pow_right Nat.two_pos (E.len_le hreg)
    have hturn := E.turn
    have hr : E.r = (BitVec.ofNat 6 E.r).toNat % 2 ^ E.len := by
      rw [BitVec.toNat_ofNat, Nat.mod_eq_of_lt (Nat.lt_of_lt_of_le hturn hpow),
        Nat.mod_eq_of_lt hturn]
    exact ⟨_, _, BitVec.ofNat 6 E.r,
      (decodeBitMasks_some_iff hreg).2 ⟨E, rfl, hr, (h.eq_value hreg).symm⟩⟩

/-- The fields of a value: `N` and `imms` are its own, and of `immr` the bits that count
inside the element. -/
theorem decodeBitMasks_eq_iff (hreg : regSize = 32 ∨ regSize = 64)
    (h : decodeBitMasks n imms immr regSize = some v) :
    decodeBitMasks n' imms' immr' regSize = some v ↔
      n' = n ∧ imms' = imms ∧ ∃ p ∈ shape n imms, immr'.toNat % 2 ^ p.1 = immr.toNat % 2 ^ p.1 := by
  obtain ⟨E, hfields, hr, rfl⟩ := (decodeBitMasks_some_iff hreg).1 h
  have hshape := shape_fieldsOf E.pos (E.len_le hreg) E.gap
  rw [hfields] at hshape
  rw [decodeBitMasks_some_iff hreg]
  constructor
  · rintro ⟨E', hfields', hr', hv⟩
    have hshows : E'.Shows E.value := hv ▸ E'.shows_value hreg
    obtain rfl := hshows.unique hreg (E.shows_value hreg)
    obtain ⟨rfl, rfl⟩ := Prod.mk.inj (hfields'.symm.trans hfields)
    exact ⟨rfl, rfl, _, hshape, hr'.symm.trans hr⟩
  · rintro ⟨rfl, rfl, p, hp, himmr⟩
    obtain rfl := Option.some_inj.1 (hshape.symm.trans hp)
    exact ⟨E, hfields, hr.trans himmr.symm, rfl⟩

/-- `0x0003fffc0003fffc`: sixteen ones in an element of 32 bits; the top bit of `immr` does not
count. -/
theorem decodeBitMasks_eq_iff_sixteen :
    decodeBitMasks 0 0b001111 0b111110 64 = decodeBitMasks 0 0b001111 0b011110 64 := by
  have h : decodeBitMasks 0 0b001111 0b011110 64 = some 0x0003fffc0003fffc := by decide +kernel
  exact ((decodeBitMasks_eq_iff (.inr rfl) h).2 ⟨rfl, rfl, (5, 15), by decide +kernel,
    rfl⟩).trans h.symm

theorem decodeBitMasks_iff_sixteen : ∃ E : Element 64, E.Shows 0x0003fffc0003fffc :=
  (decodeBitMasks_iff (.inr rfl)).1 ⟨0, 0b001111, 0b011110, by decide +kernel⟩

end Diana.BitMasks
