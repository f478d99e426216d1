import Diana.Processor.WriteAddress

/-!
# Status flags and results

What a command leaves behind, in the terms of the architecture: the six status flags as Booleans,
and the destination operand with its value.

* `StatusFlags`, `statusOf`: the flags of the register, `statusOf_pszOf` those of a written value;
* `hasBit_signMask`, `cutValue_eq`: the masks of the code as the top bit and the low bits of an
  operand;
* `Stores`, `Refused`: a destination that was written, a write that the memory did not take;
* `updateFlagsPsz_stores`, `setOperand_stores`: how a command ends.
-/

namespace Diana.Processor

open Diana.Lib

/-! ## The flags register -/

/-- The status flags. -/
structure StatusFlags where
  cf : Bool
  pf : Bool
  af : Bool
  zf : Bool
  sf : Bool
  of : Bool
  deriving DecidableEq, Repr

def statusOf (flags : Value) : StatusFlags where
  cf := queryFlag flags flagCF
  pf := queryFlag flags flagPF
  af := queryFlag flags flagAF
  zf := queryFlag flags flagZF
  sf := queryFlag flags flagSF
  of := queryFlag flags flagOF

section Query

variable (f : Value)

theorem queryFlag_twoPow {k : Nat} (hk : k < 64) :
    queryFlag f (BitVec.twoPow 64 k) = f.getLsbD k := by
  unfold queryFlag
  rw [BitVec.and_twoPow]
  split
  · next h =>
    rw [h, bne_iff_ne]
    intro h0
    have := congrArg (fun v : Value => v.getLsbD k) h0
    simp [hk] at this
  · next h => rw [Bool.not_eq_true] at h; rw [h]; rfl

theorem queryFlag_setFlag {j k : Nat} (hj : j < 64) (hk : k < 64) :
    queryFlag (setFlag f (BitVec.twoPow 64 j)) (BitVec.twoPow 64 k) =
      if j = k then true else queryFlag f (BitVec.twoPow 64 k) := by
  rw [queryFlag_twoPow _ hk, queryFlag_twoPow _ hk, setFlag, BitVec.getLsbD_or,
    BitVec.getLsbD_twoPow]
  by_cases h : j = k <;> simp [h, hj, hk]

theorem queryFlag_clearFlag {j k : Nat} (hj : j < 64) (hk : k < 64) :
    queryFlag (clearFlag f (BitVec.twoPow 64 j)) (BitVec.twoPow 64 k) =
      if j = k then false else queryFlag f (BitVec.twoPow 64 k) := by
  rw [queryFlag_twoPow _ hk, queryFlag_twoPow _ hk, clearFlag, BitVec.getLsbD_and,
    BitVec.getLsbD_not, BitVec.getLsbD_twoPow]
  by_cases h : j = k <;> simp [h, hj, hk]

theorem queryFlag_setIf {j k : Nat} (hj : j < 64) (hk : k < 64) (c : Bool) :
    queryFlag (setIf f (BitVec.twoPow 64 j) c) (BitVec.twoPow 64 k) =
      ((decide (j = k) && c) || queryFlag f (BitVec.twoPow 64 k)) := by
  cases c
  · simp [setIf]
  · rw [setIf, if_pos rfl, queryFlag_setFlag f hj hk]
    by_cases h : j = k <;> simp [h]

/-- The flags are single bits. -/
theorem flags_twoPow : flagCF = BitVec.twoPow 64 0 ∧ flagPF = BitVec.twoPow 64 2 ∧
    flagAF = BitVec.twoPow 64 4 ∧ flagZF = BitVec.twoPow 64 6 ∧ flagSF = BitVec.twoPow 64 7 ∧
    flagOF = BitVec.twoPow 64 11 := by
  decide

end Query

section Status

variable (f : Value)

/-- The flags that `UPDATE_PSZ` sets. -/
theorem statusOf_pszOf (x mask : Value) :
    statusOf (pszOf f x mask) =
      { statusOf f with pf := isParity (x.setWidth 8), zf := x == 0, sf := hasBit x mask } := by
  obtain ⟨h0, h2, h4, h6, h7, h11⟩ := flags_twoPow
  by_cases hx : x = 0#64
  · subst hx
    have hb : hasBit 0#64 mask = false := by simp [hasBit]
    have hp : isParity 0#8 = true := by decide
    simp [pszOf, statusOf, hb, hp, h0, h2, h4, h6, h7, h11, queryFlag_setFlag, queryFlag_clearFlag]
  · by_cases hm : x &&& mask = 0#64 <;> by_cases hp : isParity (x.setWidth 8) = true <;>
      simp [pszOf, statusOf, hasBit, hx, hm, hp, h0, h2, h4, h6, h7, h11, queryFlag_setFlag,
        queryFlag_clearFlag]

/-- A command that clears the carry and sets it again. -/
theorem statusOf_withCF (c : Bool) : statusOf (withCF f c) = { statusOf f with cf := c } := by
  obtain ⟨h0, h2, h4, h6, h7, h11⟩ := flags_twoPow
  simp [withCF, statusOf, h0, h2, h4, h6, h7, h11, queryFlag_setIf, queryFlag_clearFlag]

/-- CF, AF and OF are clear. -/
structure Cleared (f : Value) : Prop where
  cf : (statusOf f).cf = false
  af : (statusOf f).af = false
  of : (statusOf f).of = false

theorem cleared_clearCOA : Cleared (clearCOA f) := by
  obtain ⟨h0, h2, h4, h6, h7, h11⟩ := flags_twoPow
  constructor <;> simp [clearCOA, statusOf, h0, h4, h11, queryFlag_clearFlag]

/-- The flags of an addition or a subtraction: `o`, `a` and `c` are the tests the code makes. -/
theorem statusOf_coa {f : Value} (hf : Cleared f) (o a c : Bool) :
    statusOf (setIf (setIf (setIf f flagOF o) flagAF a) flagCF c) =
      { statusOf f with cf := c, af := a, of := o } := by
  obtain ⟨h0, h2, h4, h6, h7, h11⟩ := flags_twoPow
  obtain ⟨hcf, haf, hof⟩ := hf
  simp only [statusOf, h0, h4, h11] at hcf haf hof
  simp [statusOf, h0, h2, h4, h6, h7, h11, queryFlag_setIf, hcf, haf, hof]

/-- The same without the carry. -/
theorem statusOf_oa (o a : Bool) :
    statusOf (setIf (setIf (clearOA f) flagOF o) flagAF a) =
    { statusOf f with af := a, of := o } := by
  obtain ⟨h0, h2, h4, h6, h7, h11⟩ := flags_twoPow
  simp [clearOA, statusOf, h0, h2, h4, h6, h7, h11, queryFlag_setIf, queryFlag_clearFlag]

end Status

/-! ## Operands as bit vectors -/

/-- The bits of an operand. -/
def Size.bits (size : Size) : Nat := 8 * size.bytes

theorem Size.bits_pos (size : Size) : 0 < size.bits := by cases size <;> decide

theorem Size.bits_le (size : Size) : size.bits ≤ 64 := by cases size <;> decide

/-- The operand of a size in a 64-bit variable. -/
def Size.low (size : Size) (v : Value) : BitVec size.bits := v.setWidth size.bits

theorem cutValue_eq (v : Value) (size : Size) : cutValue v size = (size.low v).setWidth 64 := rfl

theorem toNat_cutValue (v : Value) (size : Size) :
    (cutValue v size).toNat = (size.low v).toNat := by
  rw [cutValue_eq, BitVec.toNat_setWidth]
  refine Nat.mod_eq_of_lt (lt_of_lt_of_le (size.low v).isLt ?_)
  exact Nat.pow_le_pow_right (by decide) size.bits_le

theorem signMask_eq (size : Size) : signMask size = BitVec.twoPow 64 (size.bits - 1) := by
  cases size <;> decide

theorem hasBit_twoPow (v : Value) {k : Nat} (hk : k < 64) :
    hasBit v (BitVec.twoPow 64 k) = v.getLsbD k :=
  queryFlag_twoPow v hk

theorem hasBit_signMask (v : Value) (size : Size) :
    hasBit v (signMask size) = (size.low v).msb := by
  have hp := size.bits_pos
  have hl := size.bits_le
  rw [signMask_eq, hasBit_twoPow v (by omega), BitVec.msb_eq_getLsbD_last, Size.low,
    BitVec.getLsbD_setWidth]
  simp [hp]

theorem signMask_ne_zero (size : Size) : signMask size ≠ 0#64 := by cases size <;> decide

theorem and_signMask (v : Value) (size : Size) :
    v &&& signMask size = if (size.low v).msb then signMask size else 0#64 := by
  rw [← hasBit_signMask, hasBit]
  have hand := BitVec.and_twoPow v (size.bits - 1)
  rw [← signMask_eq] at hand
  rw [hand]
  split
  · exact (if_pos (bne_iff_ne.2 (signMask_ne_zero size))).symm
  · rfl

/-- Masked with the top bit, two values are compared by their signs. -/
theorem signMask_beq (v w : Value) (size : Size) :
    (v &&& signMask size == w &&& signMask size) = ((size.low v).msb == (size.low w).msb) := by
  have h0 := signMask_ne_zero size
  rw [and_signMask, and_signMask]
  cases (size.low v).msb <;> cases (size.low w).msb <;> simp [h0, Ne.symm h0]

theorem signMask_bne (v w : Value) (size : Size) :
    (v &&& signMask size != w &&& signMask size) = ((size.low v).msb != (size.low w).msb) := by
  rw [bne, signMask_beq, bne]

/-- Bytes that are stored depend on no higher bits. -/
theorem leBytes_congr {n : Nat} {v w : Value} (h : ∀ i, i < 8 * n → v.getLsbD i = w.getLsbD i) :
    leBytes n v = leBytes n w := by
  induction n generalizing v w with
  | zero => rfl
  | succ n ih =>
    rw [leBytes, leBytes]
    congr 1
    · apply BitVec.eq_of_getLsbD_eq
      intro i hi
      rw [BitVec.getLsbD_setWidth, BitVec.getLsbD_setWidth, h i (by omega)]
    · refine ih fun i hi => ?_
      rw [BitVec.getLsbD_ushiftRight, BitVec.getLsbD_ushiftRight, h (8 + i) (by omega)]

theorem leBytes_cutValue (v : Value) (size : Size) :
    leBytes size.bytes (cutValue v size) = leBytes size.bytes v := by
  refine leBytes_congr fun i hi => ?_
  have hl : size.bits ≤ 64 := size.bits_le
  have hi' : i < size.bits := hi
  rw [cutValue_eq, Size.low, BitVec.getLsbD_setWidth, BitVec.getLsbD_setWidth]
  simp [hi', lt_of_lt_of_le hi' hl]

theorem low_cutValue (v : Value) (size : Size) : size.low (cutValue v size) = size.low v := by
  apply BitVec.eq_of_toNat_eq
  rw [Size.low, BitVec.toNat_setWidth, toNat_cutValue]
  exact Nat.mod_eq_of_lt (size.low v).isLt

/-- The flags of a result, from its low bits. -/
theorem statusOf_pszOf_cutValue (f v : Value) (size : Size) :
    statusOf (pszOf f (cutValue v size) (signMask size)) =
      { statusOf f with
        pf := isParity ((size.low v).setWidth 8), zf := size.low v == 0,
          sf := (size.low v).msb } := by
  have hzero : (cutValue v size == 0) = (size.low v == 0) := by
    refine Bool.eq_iff_iff.2 ?_
    rw [beq_iff_eq, beq_iff_eq, ← BitVec.toNat_inj, ← BitVec.toNat_inj, toNat_cutValue]
    rfl
  have hbyte : (cutValue v size).setWidth 8 = (size.low v).setWidth 8 := by
    rw [cutValue_eq, BitVec.setWidth_setWidth_of_le _ (by decide)]
  rw [statusOf_pszOf, hasBit_signMask, low_cutValue, hzero, hbyte]

/-! ## Registers read back -/

section Registers

variable {μ : Type} (s : Proc μ) (r : Register) (v : Value)

theorem getValue_of_regs {t : Proc μ}
    (h : t.regs = s.regs.set r.cell (8 * r.offset) (8 * r.size.bytes) (v.setWidth _)) :
    t.getValue r = cutValue v r.size := by
  unfold Proc.getValue Proc.getValueEx
  rw [h, Cells.get_set_same _ _ r.window_le]
  rfl

/-- A 32-bit register in 64-bit mode is written as a whole. -/
theorem setValue_regs32 (i : Fin 16) (h : s.mode.amd64 = true) :
    (s.setValue (.r32 i) v).regs = s.regs.set (.gp i) 0 64 (cutValue v .dword) := by
  have hrip : ¬ (some (Register.r32 i) = some .rip ∨ some (Register.r32 i) = some .ip) := by simp
  unfold Proc.setValue Proc.setValueEx
  dsimp only
  rw [Proc.updatePsz_regs, if_neg hrip, if_pos ⟨rfl, h, rfl⟩]
  exact congrArg (s.regs.set (.gp i) 0 64) (BitVec.setWidth_eq _)

/-- The low half of a register that was written as a whole. -/
theorem getValue_set_r64 {t : Proc μ} (i : Fin 16) (h : t.regs = s.regs.set (.gp i) 0 64 v) :
    t.getValue (.r32 i) = cutValue v .dword := by
  change (t.regs.get (.gp i) 0 32).setWidth 64 = _
  rw [h, Cells.get, Cells.set_all s.regs v rfl]
  rfl

theorem cutValue_cutValue (v : Value) (size : Size) :
    cutValue (cutValue v size) size = cutValue v size := by
  apply BitVec.eq_of_toNat_eq
  rw [toNat_cutValue, toNat_cutValue, Size.low, BitVec.toNat_setWidth, toNat_cutValue]
  exact Nat.mod_eq_of_lt (size.low v).isLt

theorem getValue_setValue : (s.setValue r v).getValue r = cutValue v r.size := by
  by_cases h : r.size = .dword ∧ s.mode.amd64 = true ∧ Proc.isGeneral32 (some r) = true
  · obtain ⟨-, hm, hr⟩ := h
    cases r with
    | r32 i =>
      exact (getValue_set_r64 s _ i (setValue_regs32 s v i hm)).trans (cutValue_cutValue v .dword)
    | _ => cases hr
  · exact getValue_of_regs s r v (Proc.setValueEx_regs s (some r) r v r.size h)

/-- A register operand that was written. -/
theorem getValue_setRegisterOperand :
    (s.setRegisterOperand r v).getValue r = cutValue v r.size := by
  have h := getValue_setValue s r v
  unfold Proc.setRegisterOperand
  cases r with
  | r32 i =>
    dsimp only
    split
    · change (((s.setValue (.r32 i) v).regs.set (.gp i) 32 32 0).get (.gp i) 0 32).setWidth 64 = _
      rw [Cells.get_set_window _ _ (.inl (Nat.le_refl 32)) (Nat.le_of_ble_eq_true rfl)]
      exact h
    · exact h
  | _ => exact h

/-- The flags after a register write: of the written value, where they are asked for. -/
theorem setValue_flags : (s.setValue r v).flags =
    if s.stateFlags.updateFlagsPsz then pszOf s.flags (cutValue v r.size) (signMask r.size)
    else s.flags := by
  unfold Proc.setValue Proc.setValueEx Proc.updatePsz Proc.setCell
  dsimp only
  split_ifs <;> rfl

/-- A register write leaves CF, AF and OF. -/
theorem cleared_setValue (h : Cleared s.flags) : Cleared (s.setValue r v).flags := by
  rw [setValue_flags]
  split
  · constructor <;> rw [statusOf_pszOf]
    · exact h.cf
    · exact h.af
    · exact h.of
  · exact h

theorem setRegisterOperand_flags : (s.setRegisterOperand r v).flags = (s.setValue r v).flags := by
  unfold Proc.setRegisterOperand
  cases r with
  | r32 i =>
    dsimp only
    split <;> rfl
  | _ => rfl

end Registers

/-! ## The destination -/

/-- What the decoder gives the commands with a destination: it is a register or in memory, the size
of a register operand is that of the register, and only `mov` and `push` have results that are
sign-extended. -/
structure Insn.HasDest (I : Insn) : Prop where
  dest : (I.registerOperand 0).isSome ∨ (I.memoryAt 0).isSome
  sized : ∀ r, I.registerOperand 0 = some r → I.firstSize = r.size
  plain : I.signExtends = false

theorem firstSize_of_memoryAt {I : Insn} {x : RmIndex} {size : Size}
    (h : I.memoryAt 0 = some (x, size)) : I.firstSize = size := by
  unfold Insn.memoryAt at h
  unfold Insn.firstSize
  split at h
  · rename_i hop
    cases h
    rw [hop]
    rfl
  · rename_i hop
    cases h
    rw [hop]
    rfl
  · cases h

/-! ### What was read -/

theorem toNat_leValue_lt (bs : List Byte) : (leValue bs).toNat < 2 ^ (8 * bs.length) := by
  induction bs with
  | nil => exact Nat.zero_lt_one
  | cons b bs ih =>
    have hpow : 2 ^ (8 * (b :: bs).length) = 2 ^ (8 * bs.length) * 256 := by
      rw [List.length_cons, Nat.mul_add, Nat.pow_add]
    have hb : (b.setWidth 64).toNat < 2 ^ (8 * (b :: bs).length) := by
      have := b.isLt
      have := Nat.one_le_two_pow (n := 8 * bs.length)
      rw [BitVec.toNat_setWidth, hpow]
      omega
    have hs : (leValue bs <<< 8).toNat < 2 ^ (8 * (b :: bs).length) := by
      rw [BitVec.toNat_shiftLeft, Nat.shiftLeft_eq, hpow]
      refine lt_of_le_of_lt (Nat.mod_le _ _) ?_
      omega
    rw [leValue, BitVec.toNat_or]
    exact Nat.or_lt_two_pow hb hs

theorem cutValue_of_lt {v : Value} {size : Size} (h : v.toNat < 2 ^ size.bits) :
    cutValue v size = v := by
  apply BitVec.eq_of_toNat_eq
  rw [toNat_cutValue, Size.low, BitVec.toNat_setWidth, Nat.mod_eq_of_lt h]

theorem cutValue_getValueEx {μ : Type} (s : Proc μ) (r : Register) (size : Size) :
    cutValue (s.getValueEx r size) size = s.getValueEx r size := by
  refine cutValue_of_lt ?_
  unfold Proc.getValueEx
  rw [BitVec.toNat_setWidth]
  exact lt_of_le_of_lt (Nat.mod_le _ _) (BitVec.isLt _)

theorem getMemValue_ok {μ : Type} {S : MemoryStream μ} {s t : Proc μ} {selector offset v : Value}
    {size : Size} {seg : SegReg} (h : getMemValue S selector offset size seg s = .ok v t) :
    cutValue v size = v := by
  unfold getMemValue Proc.readMem at h
  rw [get_bind] at h
  cases hr : S.read s.mem selector offset size.bytes seg with
  | error e =>
    rw [hr] at h
    cases h
  | ok bs =>
    rw [hr] at h
    dsimp only at h
    by_cases hl : bs.length = size.bytes
    · rw [if_pos hl] at h
      cases h
      refine cutValue_of_lt ?_
      rw [Size.bits, ← hl]
      exact toNat_leValue_lt bs
    · rw [if_neg hl] at h
      cases h

/-- A destination holds no bits above its size, which is that of the operand. -/
theorem getOperand_dest {μ : Type} {S : MemoryStream μ} {I : Insn} {s t : Proc μ} {v : Value}
    {size : Size} (hI : I.HasDest) (h : getOperand S I 0 s = .ok (v, size) t) :
    size = I.firstSize ∧ cutValue v size = v := by
  rcases hI.dest with hr | hm
  · obtain ⟨r, hr⟩ := Option.isSome_iff_exists.1 hr
    have hsize := hI.sized r hr
    unfold Insn.registerOperand at hr
    unfold Insn.firstSize at hsize ⊢
    unfold getOperand at h
    split at hr
    · rename_i hop
      cases hr
      rw [hop] at h hsize ⊢
      cases h
      simp only [Option.map_some, Option.getD_some] at hsize
      refine ⟨rfl, ?_⟩
      rw [hsize]
      exact cutValue_getValueEx _ r r.size
    · cases hr
  · obtain ⟨⟨x, size'⟩, hx⟩ := Option.isSome_iff_exists.1 hm
    rw [firstSize_of_memoryAt hx]
    rw [getOperand_of_memoryAt S hx, getIndex] at h
    cases hc : s.calcIndex I x with
    | error e =>
      rw [bind_of_error (bind_of_error (calcIndexM_of_error I hc))] at h
      cases h
    | ok a =>
      have hrun := bind_of_ok (f := fun a => getMemValue S a.1 a.2 size' x.segReg)
          (calcIndexM_of_ok I hc)
      cases hv : getMemValue S a.1 a.2 size' x.segReg s with
      | error e u =>
        rw [bind_of_error (hrun.trans hv)] at h
        cases h
      | ok w u =>
        rw [bind_of_ok (hrun.trans hv)] at h
        cases h
        exact ⟨rfl, getMemValue_ok hv⟩

section Destination

variable {μ : Type} (S : MemoryStream μ) (I : Insn)

/-- The destination holds `v`: its register does, or the memory took the bytes at the
address it had in `s`. -/
def Stores (s t : Proc μ) (v : Value) : Prop :=
  (∀ r, I.registerOperand 0 = some r → t.getValue r = v ∧ t.mem = s.mem) ∧
  ∀ x size, I.memoryAt 0 = some (x, size) → ∃ selector offset,
    s.calcIndex I x = .ok (selector, offset) ∧
    t.mem = (S.write s.mem selector offset (leBytes size.bytes v) x.segReg).2

/-- The memory did not take `v` at the address the destination had in `s`. -/
def Refused (s t : Proc μ) (v : Value) : Prop :=
  ∃ x size selector offset,
    I.memoryAt 0 = some (x, size) ∧ s.calcIndex I x = .ok (selector, offset) ∧
    t.mem = (S.write s.mem selector offset (leBytes size.bytes v) x.segReg).2 ∧
    (S.write s.mem selector offset (leBytes size.bytes v) x.segReg).1 ≠ .ok size.bytes

/-- The flags of a written value, where they are asked for. -/
def Proc.writtenFlags (s : Proc μ) (v : Value) (size : Size) : Value :=
  if s.stateFlags.updateFlagsPsz then pszOf s.flags (cutValue v size) (signMask size) else s.flags

theorem setMemValue_post (selector offset : Value) (size : Size) (v : Value) (seg : SegReg)
    (u : Proc μ) : Post (setMemValue S selector offset size v seg) u
      (fun _ t => t =
        { u with mem := (S.write u.mem selector offset (leBytes size.bytes v) seg).2 })
      (fun _ t => t =
        { u with mem := (S.write u.mem selector offset (leBytes size.bytes v) seg).2 } ∧
        (S.write u.mem selector offset (leBytes size.bytes v) seg).1 ≠ .ok size.bytes) := by
  unfold setMemValue
  rw [post_bind, post_get]
  cases hw : S.write u.mem selector offset (leBytes size.bytes v) seg with
  | mk r mem =>
    dsimp only
    rw [post_bind, post_set]
    cases r with
    | error e => exact ⟨rfl, nofun⟩
    | ok wrote =>
      dsimp only
      by_cases h : wrote = size.bytes
      · rw [if_neg (not_not.2 h)]
        exact rfl
      · rw [if_pos h]
        exact ⟨rfl, fun he => h (Except.ok.inj he)⟩

/-- How a command ends that writes its destination, the address of which is still the one of `s`. -/
theorem setOperand_stores {I : Insn} {s u : Proc μ} {d : Value × Size} (hI : I.HasDest)
    (hread : getOperand S I 0 s = .ok d s) (hmem : u.mem = s.mem)
    (haddr : ∀ p, I.memoryAt 0 = some p → u.calcIndex I p.1 = s.calcIndex I p.1) (v : Value) :
    Post (setOperand S I 0 v) u
      (fun _ t => Stores S I s t (cutValue v I.firstSize) ∧ t.flags = u.writtenFlags v I.firstSize)
      (fun _ t => Refused S I s t (cutValue v I.firstSize)) := by
  rcases hI.dest with hr | hm
  · obtain ⟨r, hr⟩ := Option.isSome_iff_exists.1 hr
    have hsize := hI.sized r hr
    rw [setOperand_of_register S hr, post_modify, hsize]
    refine ⟨⟨?_, ?_⟩, (setRegisterOperand_flags u r v).trans (setValue_flags u r v)⟩
    · intro r' hr'
      rw [hr] at hr'
      cases hr'
      exact ⟨getValue_setRegisterOperand u r v, (setRegisterOperand_mem u r v).trans hmem⟩
    · intro x size hx
      rw [registerOperand_of_memoryAt hx] at hr
      cases hr
  · obtain ⟨⟨x, size⟩, hx⟩ := Option.isSome_iff_exists.1 hm
    have hsize := firstSize_of_memoryAt hx
    have hnr := registerOperand_of_memoryAt hx
    rw [setOperand_of_memoryAt S hx, hsize]
    -- the address was good when the destination was read
    obtain ⟨selector, offset, ha⟩ : ∃ selector offset,
        s.calcIndex I x = .ok (selector, offset) := by
      cases ha : s.calcIndex I x with
      | ok a => exact ⟨a.1, a.2, rfl⟩
      | error e =>
        rw [getOperand_of_memoryAt S hx, getIndex,
          bind_of_error (bind_of_error (calcIndexM_of_error I ha))] at hread
        cases hread
    have ha' : u.calcIndex I x = .ok (selector, offset) := (haddr _ hx).trans ha
    unfold setIndex
    rw [post_bind, post_of_ok (calcIndexM_of_ok I ha'), post_bind, post_modify]
    dsimp only
    set w := if u.stateFlags.updateFlagsPsz = true then u.updatePSZ v size else u with hw
    have hwmem : w.mem = s.mem := by
      rw [hw]
      split <;> exact hmem
    have hwflags : w.flags = u.writtenFlags v size := by
      rw [hw]
      unfold Proc.writtenFlags
      split <;> rfl
    refine (setMemValue_post S selector offset size v x.segReg w).mono ?_ ?_
    · rintro _ t rfl
      refine ⟨⟨fun r hr => ?_, ?_⟩, hwflags⟩
      · rw [hnr] at hr
        cases hr
      · intro x' size' hx'
        rw [hx] at hx'
        cases hx'
        exact ⟨selector, offset, ha, by rw [leBytes_cutValue, hwmem]⟩
    · rintro _ t ⟨rfl, hne⟩
      rw [hwmem] at hne
      exact ⟨x, size, selector, offset, hx,
        ha, by rw [leBytes_cutValue, hwmem], by rwa [leBytes_cutValue]⟩

/-- The same with the flags of the written value. -/
theorem updateFlagsPsz_stores {I : Insn} {s u : Proc μ} {d : Value × Size} (hI : I.HasDest)
    (hread : getOperand S I 0 s = .ok d s) (hmem : u.mem = s.mem)
    (haddr : ∀ p, I.memoryAt 0 = some p → u.calcIndex I p.1 = s.calcIndex I p.1) (v : Value) :
    Post (updateFlagsPsz (setOperand S I 0 v)) u
      (fun _ t => Stores S I s t (cutValue v I.firstSize) ∧
        t.flags = pszOf u.flags (cutValue v I.firstSize) (signMask I.firstSize))
      (fun _ t => Refused S I s t (cutValue v I.firstSize)) := by
  unfold updateFlagsPsz
  rw [post_bind, post_modify, post_bind]
  refine (setOperand_stores S hI hread ?_ ?_ v).mono ?_ fun _ _ h => h
  · exact hmem
  · exact haddr
  · rintro _ t ⟨hstores, hflags⟩
    rw [post_modify]
    exact ⟨hstores, hflags⟩

end Destination

end Diana.Processor
