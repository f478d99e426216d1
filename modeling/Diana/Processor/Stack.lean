import Diana.Processor.Memory

/-!
# Registers around the stack

What the commands that push, pop and jump rely on: a register write leaves the registers of the
other cells and, between two commands, the flags; addresses are added within the size of an address.
-/

namespace Diana.Processor

open Diana.Lib

variable {μ : Type} (s : Proc μ)

/-! ## Register writes -/

theorem getValueEx_setCell_of_ne {r r' : Register} (h : r'.cell ≠ r.cell) (size size' : Size)
    (v : Value) : (s.setCell r size v).getValueEx r' size' = s.getValueEx r' size' := by
  unfold Proc.getValueEx Proc.setCell
  rw [Cells.get_set_cell _ _ _ _ h]

/-- A write leaves the registers of the other cells. -/
theorem getValueEx_setValueEx_of_ne {r r' : Register} (h : r'.cell ≠ r.cell)
    (regId : Option Register) (v : Value) (size size' : Size) :
    (s.setValueEx regId r v size).getValueEx r' size' = s.getValueEx r' size' := by
  unfold Proc.setValueEx
  dsimp only
  unfold Proc.getValueEx
  rw [Proc.updatePsz_regs]
  split_ifs <;> exact getValueEx_setCell_of_ne _ h _ _ _

theorem getValue_setValue_of_ne {r r' : Register} (h : r'.cell ≠ r.cell) (v : Value) :
    (s.setValue r v).getValue r' = s.getValue r' :=
  getValueEx_setValueEx_of_ne s h (some r) v r.size r'.size

theorem Proc.Idle.setValueEx {s : Proc μ} (h : s.Idle) (regId : Option Register)
    (r : Register) (v : Value) (size : Size) :
    (s.setValueEx regId r v size).Idle ∧ (s.setValueEx regId r v size).flags = s.flags := by
  unfold Proc.Idle at h ⊢
  unfold Proc.setValueEx Proc.updatePsz Proc.setCell
  dsimp only
  constructor <;> split_ifs <;> simp_all

/-- The register of a cell as wide as itself, cut to a size. -/
theorem getValueEx_r64 (i : Fin 16) (size : Size) :
    s.getValueEx (.r64 i) size = cutValue (s.getValue (.r64 i)) size := by
  have hle := size.bits_le
  apply BitVec.eq_of_getLsbD_eq
  intro k hk
  unfold Proc.getValue Proc.getValueEx Cells.get
  rw [cutValue_eq, Size.low, BitVec.getLsbD_setWidth, BitVec.getLsbD_setWidth,
    BitVec.getLsbD_setWidth, BitVec.getLsbD_setWidth, BitVec.getLsbD_extractLsb',
    BitVec.getLsbD_extractLsb']
  have hbits : size.bits = 8 * size.bytes := rfl
  have h64 : 8 * (Register.r64 i).size.bytes = 64 := rfl
  rw [hbits, h64]
  simp [hk]

theorem getValue_setValue_r64 (i : Fin 16) (v : Value) :
    (s.setValue (.r64 i) v).getValue (.r64 i) = v :=
  (getValue_setValue s (.r64 i) v).trans (cutValue_of_lt v.isLt)

/-! ## Single bits -/

theorem getLsbD_setFlag (f : Value) {j : Nat} (hj : j < 64) (i : Nat) :
    (setFlag f (BitVec.twoPow 64 j)).getLsbD i = (f.getLsbD i || decide (i = j)) := by
  rw [setFlag, BitVec.getLsbD_or, BitVec.getLsbD_twoPow]
  simp [hj, eq_comm]

theorem getLsbD_clearFlag (f : Value) {j : Nat} (hj : j < 64) (i : Nat) :
    (clearFlag f (BitVec.twoPow 64 j)).getLsbD i = (f.getLsbD i && !decide (i = j)) := by
  rw [clearFlag, BitVec.getLsbD_and, BitVec.getLsbD_not, BitVec.getLsbD_twoPow]
  by_cases hi : i < 64
  · simp [hi, hj, eq_comm]
  · rw [BitVec.getLsbD_of_ge f i (by omega)]
    rfl

/-! ## Values cut to a size -/

section

variable {size : Size}

theorem cutValue_add_inj {x y : Value} (e : Value) :
    cutValue (x + e) size = cutValue (y + e) size ↔ cutValue x size = cutValue y size := by
  have hlow : ∀ v w : Value, cutValue v size = cutValue w size ↔ size.low v = size.low w := by
    intro v w
    rw [cutValue_eq, cutValue_eq]
    refine ⟨fun h => ?_, fun h => by rw [h]⟩
    have h' := congrArg size.low h
    rwa [← cutValue_eq, ← cutValue_eq, low_cutValue, low_cutValue] at h'
  have hadd : ∀ v : Value, size.low (v + e) = size.low v + size.low e := fun v =>
    BitVec.setWidth_add v e size.bits_le
  rw [hlow, hlow, hadd, hadd]
  exact BitVec.add_left_inj _

theorem getLsbD_cutValue (v : Value) (i : Nat) :
    (cutValue v size).getLsbD i = (decide (i < size.bits) && v.getLsbD i) := by
  have hle := size.bits_le
  rw [cutValue_eq, BitVec.getLsbD_setWidth, getLsbD_low]
  by_cases h : i < size.bits
  · have h64 : i < 64 := by omega
    simp [h, h64]
  · simp [h]

theorem cutValue_qword (v : Value) : cutValue v .qword = v := cutValue_of_lt v.isLt

/-- The mask of a 32-bit address. -/
theorem and_mask_dword (v : Value) : v &&& 0xFFFFFFFF = cutValue v .dword := by
  have hmask : (0xFFFFFFFF : Value).toNat = 2 ^ 32 - 1 := rfl
  apply BitVec.eq_of_toNat_eq
  rw [BitVec.toNat_and, hmask, Nat.and_two_pow_sub_one_eq_mod, toNat_cutValue, Size.low,
    BitVec.toNat_setWidth]
  rfl

end

end Diana.Processor
