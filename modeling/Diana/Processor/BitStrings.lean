import Diana.Processor.Stack

/-!
# Bit strings in memory

`bt`, `bts`, `btr` and `btc` with a memory operand and a register offset. The offset is signed; the
bit is reached through an operand-sized part of the string, whose number is rounded down in a signed
64-bit variable.

* `store_bit`: an operand with one bit replaced, stored where it was loaded from;
* `BitCommand.call_flat`: the byte and the bit a command works on;
* `partByte_eq_iff`: when that byte is the one of the offset;
* `bitCommands_iff`: the commands on every memory.
-/

namespace Diana.Processor

open Diana.Lib

/-! ## One bit of an operand in memory -/

section

variable {m : Value → Byte} {a : Value} {n : Nat}

theorem getLsbD_leValue_load {j i : Nat} (hj : j < n) (hn : n ≤ 8) (hi : i < 8) :
    (leValue (load m a n)).getLsbD (8 * j + i) = (m (a + BitVec.ofNat 64 j)).getLsbD i := by
  have hd : (8 * j + i) / 8 = j := by omega
  have hm : (8 * j + i) % 8 = i := by omega
  rw [getLsbD_leValue _ (by omega), hd, hm, List.getElem?_eq_getElem (by rwa [length_load]),
    Option.getD_some, getElem_load]

/-- An operand with one bit replaced, stored where it was loaded from. -/
theorem store_bit {b : Nat} {new : Value} {bit : Bool} (hb : b < 8 * n) (hn : n ≤ 8)
    (hnew : ∀ i < 64, new.getLsbD i = if i = b then bit else (leValue (load m a n)).getLsbD i) :
    store m a (leBytes n new) = Function.update m (a + BitVec.ofNat 64 (b / 8))
      (setField (m (a + BitVec.ofNat 64 (b / 8))) (b % 8) 1 (BitVec.ofBool bit)) := by
  funext y
  have hy : a + BitVec.ofNat 64 (y - a).toNat = y := by
    rw [BitVec.ofNat_toNat, BitVec.setWidth_eq, BitVec.add_comm, BitVec.sub_add_cancel]
  have hself : (a + BitVec.ofNat 64 (b / 8) - a).toNat = b / 8 := toNat_add_sub a (by omega)
  by_cases hin : (y - a).toNat < n
  · rw [store_inside (by rwa [length_leBytes]), getElem_leBytes]
    set j := (y - a).toNat with hj
    apply BitVec.eq_of_getLsbD_eq
    intro i hi
    have hbit : ((new >>> (8 * j)).setWidth 8).getLsbD i =
        if 8 * j + i = b then bit else (m y).getLsbD i := by
      rw [BitVec.getLsbD_setWidth, decide_eq_true hi, Bool.true_and, BitVec.getLsbD_ushiftRight,
        hnew _ (by omega), getLsbD_leValue_load hin hn hi, hy]
    rw [hbit]
    by_cases hjb : j = b / 8
    · have hyb : y = a + BitVec.ofNat 64 (b / 8) := by rw [← hjb, hy]
      rw [hyb, Function.update_self, getLsbD_setField _ _ _ _ hi]
      by_cases hib : i = b % 8
      · rw [if_pos (by omega), if_pos (by omega), hib, Nat.sub_self]
        cases bit <;> rfl
      · rw [if_neg (by omega), if_neg (by omega)]
    · have hyb : y ≠ a + BitVec.ofNat 64 (b / 8) := by
        rintro rfl
        exact hjb (hj.trans hself)
      rw [Function.update_of_ne hyb, if_neg (by omega)]
  · have hyb : y ≠ a + BitVec.ofNat 64 (b / 8) := by
      rintro rfl
      rw [hself] at hin
      omega
    rw [Function.update_of_ne hyb]
    exact store_of_outside (by rw [length_leBytes]; omega)

end

/-! ## Commands -/

inductive BitCommand where
  | bt | bts | btr | btc
  deriving DecidableEq, Repr

namespace BitCommand

variable {μ : Type} (S : MemoryStream μ) (I : Insn)

def call : BitCommand → Exec μ Unit
  | bt => callBt S I
  | bts => callBts S I
  | btr => callBtr S I
  | btc => callBtc S I

/-- The bit a command leaves. -/
def newBit : BitCommand → Bool → Bool
  | bt, old => old
  | bts, _ => true
  | btr, _ => false
  | btc, old => !old

end BitCommand

/-- The mask table holds one bit of each number. -/
theorem signMaskSpecifyBit_eq {k : Nat} (hk : k < 64) :
    signMaskSpecifyBit (BitVec.ofNat 64 k) = BitVec.twoPow 64 k := by
  have hall : ∀ k : Fin 64, signMaskSpecifyBit (BitVec.ofNat 64 k) = BitVec.twoPow 64 k := by decide
  exact hall ⟨k, hk⟩

/-- The number of the bit in its operand. -/
theorem bitIndex_eq {size : Size} (h : size ≠ .byte) (src : Value) :
    bitIndex size src = some (BitVec.ofNat 64 (src.toNat % size.bits)) := by
  have hmod : ∀ n : Nat, n < 2 ^ 64 →
      src % BitVec.ofNat 64 n = BitVec.ofNat 64 (src.toNat % n) := by
    intro n hn
    apply BitVec.eq_of_toNat_eq
    rw [BitVec.toNat_umod, BitVec.toNat_ofNat, BitVec.toNat_ofNat, Nat.mod_eq_of_lt hn]
    exact (Nat.mod_eq_of_lt (lt_of_le_of_lt (Nat.mod_le _ _) src.isLt)).symm
  cases size with
  | byte => exact absurd rfl h
  | word => exact congrArg some (hmod 16 (by decide))
  | dword => exact congrArg some (hmod 32 (by decide))
  | qword => exact congrArg some (hmod 64 (by decide))

/-- A write to a memory operand, between two commands. -/
theorem setOperand_flat {J : Insn} {n : Nat} {y : RmIndex} {size : Size} {w : Proc (Value → Byte)}
    {sel a : Value} (hmem : J.memoryAt n = some (y, size)) (hw : w.Idle)
    (hindex : w.calcIndex J y = .ok (sel, a)) (v : Value) :
    setOperand flatStream J n v w = .ok ()
    { w with mem := store w.mem a (leBytes size.bytes v) } := by
  have hidle : w.stateFlags.updateFlagsPsz = false := hw
  rw [setOperand_of_memoryAt _ hmem]
  unfold setIndex
  dsimp only
  rw [bind_of_ok (calcIndexM_of_ok _ hindex)]
  dsimp only
  rw [modify_bind, hidle, if_neg (by decide)]
  exact setMemValue_of_write (congrArg (Prod.mk · _) (congrArg Except.ok (length_leBytes _ _)))

/-! ## The part of the string -/

/-- A bit command with a memory operand and a register offset, as the decoder gives it. -/
structure Insn.HasBitString (I : Insn) (x : RmIndex) (r : Register) : Prop where
  operands : ∃ a0 a1, I.operands = [⟨.index x, I.opsize, a0⟩, ⟨.register r, I.opsize, a1⟩]
  sized : r.size = I.opsize
  wide : I.opsize ≠ .byte

/-- The displacement of the part, as `Di_BitStringAddress` computes it. -/
def Insn.partOffset (I : Insn) (offset : Int) : Int :=
  let bits : Int := I.opsize.bytes * 8
  (if offset < 0 then wrapSigned (offset - (bits - 1)) else offset).tdiv bits * I.opsize.bytes

/-- A memory operand displaced by `d`. -/
def RmIndex.displaced (x : RmIndex) (d : Value) : RmIndex := { x with dispValue := x.dispValue + d }

section

variable {μ : Type} {S : MemoryStream μ} {I : Insn} {x : RmIndex} {r : Register} {s : Proc μ}
  {sel a : Value}

theorem calcIndex_displaced (h : s.calcIndex I x = .ok (sel, a)) (d : Value) (J : Insn)
    (hsize : J.fullCmdSize = I.fullCmdSize) (haddr : J.addressSize = I.addressSize) :
    s.calcIndex J (x.displaced d) = .ok (sel, cutValue (a + d) I.addressSize) := by
  unfold Proc.calcIndex at h ⊢
  rw [hsize, haddr]
  unfold RmIndex.displaced
  dsimp only at h ⊢
  rw [← BitVec.add_assoc]
  generalize (if s.mode.amd64 = true ∧ x.reg = some .rip then
    s.getOptional x.reg + BitVec.ofNat 64 I.fullCmdSize else s.getOptional x.reg) +
      s.getOptional x.indexedReg * x.index.setWidth 64 + x.dispValue = y at h ⊢
  cases hs : I.addressSize with
  | qword =>
    rw [hs] at h
    cases h
    exact congrArg (fun v => Except.ok (_, v)) (cutValue_qword _).symm
  | dword =>
    rw [hs] at h
    cases h
    rw [and_mask_dword, and_mask_dword, (cutValue_add_inj d).2 (cutValue_cutValue y .dword)]
  | word =>
    rw [hs] at h
    cases h
  | byte =>
    rw [hs] at h
    cases h

/-- The instruction on the part. -/
theorem bitStringAddress_eq (hI : I.HasBitString x r) (s : Proc μ) : ∃ a0 a1, bitStringAddress s I =
    { I
      with operands :=
  [⟨.index (x.displaced (BitVec.ofInt 64 (I.partOffset (bitOffset (s.getValue r) I.opsize)))),
      I.opsize, a0⟩, ⟨.register r, I.opsize, a1⟩] } := by
  obtain ⟨a0, a1, hop⟩ := hI.operands
  refine ⟨a0, a1, ?_⟩
  unfold bitStringAddress
  rw [hop]
  rfl

end

/-! ## The commands over flat memory -/

section

variable {I : Insn} {x : RmIndex} {r : Register} {s : Proc (Value → Byte)} {sel a : Value}

/-- Where the part of an operand lies, and the byte and the bit of it that a command works on. -/
def partAddress (I : Insn) (a : Value) (offset : Int) : Value :=
  cutValue (a + BitVec.ofInt 64 (I.partOffset offset)) I.addressSize

def partByte (I : Insn) (a src : Value) : Value :=
  partAddress I a (bitOffset src I.opsize) + BitVec.ofNat 64 (src.toNat % I.opsize.bits / 8)

def partBit (I : Insn) (src : Value) : Nat := src.toNat % I.opsize.bits % 8

/-- The state of a command that has worked on one bit. -/
def BitCommand.after (c : BitCommand) (s : Proc (Value → Byte)) (e : Value) (k : Nat) :
    Proc (Value → Byte) :=
  { s with
    flags := withCF s.flags ((s.mem e).getLsbD k)
    mem := Function.update s.mem e
      (setField (s.mem e) k 1 (BitVec.ofBool (c.newBit ((s.mem e).getLsbD k)))) }

theorem setField_getLsbD (w : Byte) (k : Nat) :
    setField w k 1 (BitVec.ofBool (w.getLsbD k)) = w := by
  apply BitVec.eq_of_getLsbD_eq
  intro i hi
  rw [getLsbD_setField _ _ _ _ hi]
  split
  · next h =>
    have hik : i = k := by omega
    rw [hik, Nat.sub_self]
    cases w.getLsbD k <;> rfl
  · rfl

section

variable (hI : I.HasBitString x r) (ha : s.calcIndex I x = .ok (sel, a))

include hI ha

/-- The part as a command reads it. -/
theorem getOperand_part : getOperand flatStream (bitStringAddress s I) 0 s = .ok
    (leValue (load s.mem (partAddress I a (bitOffset (s.getValue r) I.opsize)) I.opsize.bytes),
      I.opsize) s := by
  obtain ⟨a0, a1, hJ⟩ := bitStringAddress_eq hI s
  have hindex :=
    calcIndex_displaced ha (BitVec.ofInt 64 (I.partOffset (bitOffset (s.getValue r) I.opsize)))
    (bitStringAddress s I) (by rw [hJ]) (by rw [hJ])
  have hmem : (bitStringAddress s I).memoryAt 0 =
      some (x.displaced (BitVec.ofInt 64 (I.partOffset (bitOffset (s.getValue r) I.opsize))),
        I.opsize) := by
    rw [hJ]
    rfl
  rw [getOperand_of_memoryAt flatStream hmem]
  refine bind_of_ok ?_
  unfold getIndex
  rw [bind_of_ok (calcIndexM_of_ok _ hindex)]
  exact getMemValue_of_read rfl (length_load _ _ _)

omit ha in
theorem getOperand_offset :
    getOperand flatStream (bitStringAddress s I) 1 s = .ok (s.getValue r, I.opsize) s := by
  obtain ⟨a0, a1, hJ⟩ := bitStringAddress_eq hI s
  rw [hJ]
  rfl

omit hI ha in
/-- The bit of the part is the bit of the byte. -/
theorem part_bit : hasBit
    (leValue (load s.mem (partAddress I a (bitOffset (s.getValue r) I.opsize)) I.opsize.bytes))
      (BitVec.twoPow 64 ((s.getValue r).toNat % I.opsize.bits)) =
    (s.mem (partByte I a (s.getValue r))).getLsbD (partBit I (s.getValue r)) := by
  have hb : (s.getValue r).toNat % I.opsize.bits < I.opsize.bits := Nat.mod_lt _ I.opsize.bits_pos
  have hle := I.opsize.bytes_le
  have hbits : I.opsize.bits = 8 * I.opsize.bytes := rfl
  rw [hasBit_twoPow _ (by omega)]
  conv_lhs => rw [← Nat.div_add_mod ((s.getValue r).toNat % I.opsize.bits) 8]
  rw [getLsbD_leValue_load (by omega) hle (Nat.mod_lt _ (by decide))]
  rfl

theorem callBt_flat : callBt flatStream I s = .ok ()
    (BitCommand.bt.after s (partByte I a (s.getValue r)) (partBit I (s.getValue r))) := by
  have hb : (s.getValue r).toNat % I.opsize.bits < 64 :=
    (Nat.mod_lt _ I.opsize.bits_pos).trans_le I.opsize.bits_le
  have hmem : Function.update s.mem (partByte I a (s.getValue r))
      (setField (s.mem (partByte I a (s.getValue r))) (partBit I (s.getValue r)) 1 (BitVec.ofBool
        ((s.mem (partByte I a (s.getValue r))).getLsbD (partBit I (s.getValue r))))) = s.mem := by
    rw [setField_getLsbD, Function.update_eq_self]
  unfold callBt
  rw [get_bind, bind_of_ok (getOperand_part hI ha)]
  dsimp only
  rw [bind_of_ok (getOperand_offset hI)]
  dsimp only
  rw [modifyFlags, modify_bind, bitIndex_eq hI.wide]
  dsimp only
  rw [modifyFlags, modify_apply, signMaskSpecifyBit_eq hb, part_bit]
  unfold BitCommand.after BitCommand.newBit
  rw [hmem]
  rfl

/-- `op` replaces the bit of a mask. -/
def Replaces (op : Value → Value → Value) (c : BitCommand) : Prop :=
  ∀ (dest : Value) (k : Nat), k < 64 → ∀ i < 64, (op dest (BitVec.twoPow 64 k)).getLsbD i =
    if i = k then c.newBit (dest.getLsbD k) else dest.getLsbD i

omit hI ha in
theorem replaces_bts :
    Replaces (fun dest mask => if hasBit dest mask then dest else dest ||| mask) .bts := by
  intro dest k hk i _
  dsimp only
  rw [hasBit_twoPow _ hk]
  cases h : dest.getLsbD k with
  | true =>
    rw [if_pos rfl]
    by_cases hik : i = k
    · rw [if_pos hik, hik, h]
      rfl
    · rw [if_neg hik]
  | false =>
    rw [if_neg (by decide)]
    refine (getLsbD_setFlag dest hk i).trans ?_
    by_cases hik : i = k <;> simp [hik, BitCommand.newBit]

omit hI ha in
theorem replaces_btr :
    Replaces (fun dest mask => if hasBit dest mask then dest &&& ~~~mask else dest) .btr := by
  intro dest k hk i _
  dsimp only
  rw [hasBit_twoPow _ hk]
  cases h : dest.getLsbD k with
  | true =>
    rw [if_pos rfl]
    refine (getLsbD_clearFlag dest hk i).trans ?_
    by_cases hik : i = k <;> simp [hik, BitCommand.newBit]
  | false =>
    rw [if_neg (by decide)]
    by_cases hik : i = k
    · rw [if_pos hik, hik, h]
      rfl
    · rw [if_neg hik]

omit hI ha in
theorem replaces_btc :
    Replaces (fun dest mask => if hasBit dest mask then dest &&& ~~~mask
      else dest ||| mask) .btc := by
  intro dest k hk i _
  dsimp only
  rw [hasBit_twoPow _ hk]
  cases h : dest.getLsbD k with
  | true =>
    rw [if_pos rfl]
    refine (getLsbD_clearFlag dest hk i).trans ?_
    by_cases hik : i = k <;> simp [hik, BitCommand.newBit]
  | false =>
    rw [if_neg (by decide)]
    refine (getLsbD_setFlag dest hk i).trans ?_
    by_cases hik : i = k <;> simp [hik, BitCommand.newBit]

theorem callBitOp_flat {op : Value → Value → Value} {c : BitCommand} (hs : s.Idle)
    (hop : Replaces op c) : callBitOp flatStream I op s = .ok ()
      (c.after s (partByte I a (s.getValue r)) (partBit I (s.getValue r))) := by
  have hb : (s.getValue r).toNat % I.opsize.bits < I.opsize.bits := Nat.mod_lt _ I.opsize.bits_pos
  have hb64 := hb.trans_le I.opsize.bits_le
  obtain ⟨a0, a1, hJ⟩ := bitStringAddress_eq hI s
  have hindex :=
    calcIndex_displaced ha (BitVec.ofInt 64 (I.partOffset (bitOffset (s.getValue r) I.opsize)))
    (bitStringAddress s I) (by rw [hJ]) (by rw [hJ])
  have hmem : (bitStringAddress s I).memoryAt 0 =
      some (x.displaced (BitVec.ofInt 64 (I.partOffset (bitOffset (s.getValue r) I.opsize))),
        I.opsize) := by
    rw [hJ]
    rfl
  have hnone : (bitStringAddress s I).registerOperand 0 = none := by
    rw [hJ]
    rfl
  have hopsize : (bitStringAddress s I).opsize = I.opsize := by rw [hJ]
  unfold callBitOp bitOp
  rw [get_bind, bind_of_ok (getOperand_part hI ha)]
  dsimp only
  rw [bind_of_ok (getOperand_offset hI)]
  dsimp only
  rw [modifyFlags, modify_bind, hopsize, bitIndex_eq hI.wide]
  dsimp only
  rw [modifyFlags, modify_bind, signMaskSpecifyBit_eq hb64, part_bit]
  unfold checkZeroExtends
  have hvalue : ∀ (amd64 : Bool) (v : Value),
      zeroExtendedValue (bitStringAddress s I) amd64 v I.opsize = v := by
    intro amd64 v
    unfold zeroExtendedValue
    rw [hopsize]
    exact if_neg fun h => h.2.1 h.2.2.1
  rw [bind_of_ok (checkZeroExtendsAt_of_not_register _ hnone _ _ _), hvalue]
  set f := withCF s.flags ((s.mem (partByte I a (s.getValue r))).getLsbD (partBit I (s.getValue r)))
      with hf
  refine (setOperand_flat (w := { s with flags := f }) hmem hs hindex _).trans ?_
  have hbit := part_bit (I := I) (r := r) (s := s) (a := a)
  rw [hasBit_twoPow _ hb64] at hbit
  have hstore := store_bit hb I.opsize.bytes_le fun i hi => (hop _ _ hb64 i hi).trans (by rw [hbit])
  exact congrArg (fun m => EStateM.Result.ok () { s with flags := f, mem := m }) hstore

theorem BitCommand.call_flat (c : BitCommand) (hs : s.Idle) : c.call flatStream I s = .ok ()
    (c.after s (partByte I a (s.getValue r)) (partBit I (s.getValue r))) := by
  cases c with
  | bt => exact callBt_flat hI ha
  | bts => exact callBitOp_flat hI ha hs replaces_bts
  | btr => exact callBitOp_flat hI ha hs replaces_btr
  | btc => exact callBitOp_flat hI ha hs replaces_btc

end

end

/-! ## The byte of an offset -/

/-- The 64-bit offsets that leave their variable when they are rounded down. -/
def Insn.OffsetOverflows (I : Insn) (offset : Int) :
    Prop := I.opsize = .qword ∧ offset < -2 ^ 63 + 63

/-- With 32-bit addresses, the bit lies in a part that runs out of the address space before it. -/
def Insn.PartRunsOut (I : Insn) (a : Value) (offset : Int) : Prop :=
  I.addressSize = .dword ∧
    2 ^ 32 ≤ (partAddress I a offset).toNat + (offset % I.opsize.bits).toNat / 8

section

variable {I : Insn} {src : Value}

/-- The signed offset of a register value. -/
theorem bitOffset_eq (hwide : I.opsize ≠ .byte) (hsrc : src.toNat < 2 ^ I.opsize.bits) :
    bitOffset src I.opsize =
      if 2 * src.toNat < 2 ^ I.opsize.bits then (src.toNat : Int)
      else src.toNat - 2 ^ I.opsize.bits := by
  have hlow : ∀ n, src.toNat < 2 ^ n → ((src.setWidth n).toInt : Int) =
      if 2 * src.toNat < 2 ^ n then (src.toNat : Int) else src.toNat - 2 ^ n := by
    intro n hn
    rw [BitVec.toInt_eq_toNat_cond, BitVec.toNat_setWidth, Nat.mod_eq_of_lt hn]
    split <;> simp
  unfold bitOffset
  cases h : I.opsize with
  | byte => exact absurd h hwide
  | word =>
    rw [h] at hsrc
    exact hlow 16 hsrc
  | dword =>
    rw [h] at hsrc
    exact hlow 32 hsrc
  | qword => exact (congrArg BitVec.toInt (BitVec.setWidth_eq src)).symm.trans (hlow 64 src.isLt)

theorem bitOffset_emod (hwide : I.opsize ≠ .byte) (hsrc : src.toNat < 2 ^ I.opsize.bits) :
    bitOffset src I.opsize % I.opsize.bits = (src.toNat % I.opsize.bits : Nat) := by
  have hdvd : ((I.opsize.bits : Nat) : Int) ∣ 2 ^ I.opsize.bits := by
    cases h : I.opsize with
    | byte => exact absurd h hwide
    | word => exact ⟨2 ^ 12, rfl⟩
    | dword => exact ⟨2 ^ 27, rfl⟩
    | qword => exact ⟨2 ^ 58, rfl⟩
  rw [bitOffset_eq hwide hsrc]
  split
  · rfl
  · rw [Int.sub_emod, Int.emod_eq_zero_of_dvd hdvd, Int.sub_zero, Int.emod_emod]
    rfl

theorem wrapSigned_of_ge {v : Int} (h : -2 ^ 63 ≤ v) (h' : v < 2 ^ 63) : wrapSigned v = v := by
  unfold wrapSigned
  rw [BitVec.toInt_ofInt, Int.bmod_eq_of_le (by omega) (by omega)]

theorem wrapSigned_of_lt {v : Int} (h : v < -2 ^ 63) (h' : -2 ^ 63 - 2 ^ 63 ≤ v) :
    wrapSigned v = v + 2 ^ 64 := by
  unfold wrapSigned
  have hv : BitVec.ofInt 64 v = BitVec.ofInt 64 (v + 2 ^ 64) := by
    rw [BitVec.ofInt_add]
    simp
  rw [hv]
  exact wrapSigned_of_ge (by omega) (by omega)

/-- The division of the code, on a negative offset that was rounded down. -/
theorem tdiv_round_down {offset : Int} (hneg : offset < 0) {n : Nat} (hn : 0 < n) :
    (offset - (n - 1)).tdiv n = offset / n := by
  have hsplit := Int.mul_ediv_add_emod offset n
  have hr0 := Int.emod_nonneg offset (b := n) (by omega)
  have hrn := Int.emod_lt_of_pos offset (b := n) (by omega)
  set q := offset / n with hq
  set r := offset % n with hr
  have hneg' : offset - (n - 1) = -((n - 1 - r) + n * (-q)) := by
    rw [← hsplit, Int.mul_neg]
    omega
  have hnonneg : 0 ≤ (n - 1 - r) + n * (-q) := by
    have : (n - 1 - r) + n * (-q) = n - 1 - offset := by
      rw [← hsplit, Int.mul_neg]
      omega
    omega
  rw [hneg', Int.neg_tdiv, Int.tdiv_eq_ediv_of_nonneg hnonneg, Int.add_mul_ediv_left _ _ (by omega),
    Int.ediv_eq_zero_of_lt (by omega) (by omega), Int.zero_add, Int.neg_neg]

/-- Rounding down, where the variable holds it. -/
theorem partOffset_eq (hwide : I.opsize ≠ .byte) {offset : Int}
    (hlow : -2 ^ (I.opsize.bits - 1) ≤ offset) (hno : ¬ I.OffsetOverflows offset) :
    I.partOffset offset = offset / I.opsize.bits * I.opsize.bytes := by
  have hround : (if offset < 0 then wrapSigned (offset - (I.opsize.bits - 1))
    else offset).tdiv I.opsize.bits =
      offset / I.opsize.bits := by
    by_cases hneg : offset < 0
    · have hwrap : wrapSigned (offset - (I.opsize.bits - 1)) = offset - (I.opsize.bits - 1) := by
        unfold Insn.OffsetOverflows at hno
        refine wrapSigned_of_ge ?_ ?_
        · cases h : I.opsize with
          | byte => exact absurd h hwide
          | word =>
            have hbits : I.opsize.bits = 16 := by rw [h]; rfl
            rw [hbits] at hlow
            simp only [Size.bits, Size.bytes]
            omega
          | dword =>
            have hbits : I.opsize.bits = 32 := by rw [h]; rfl
            rw [hbits] at hlow
            simp only [Size.bits, Size.bytes]
            omega
          | qword =>
            have hge : -2 ^ 63 + 63 ≤ offset := not_lt.1 fun hlt => hno ⟨h, hlt⟩
            simp only [Size.bits, Size.bytes]
            omega
        · have hpos := I.opsize.bits_pos
          omega
      rw [if_pos hneg, hwrap]
      exact tdiv_round_down hneg I.opsize.bits_pos
    · rw [if_neg hneg, Int.tdiv_eq_ediv_of_nonneg (by omega)]
  have hbits : ((I.opsize.bytes : Nat) : Int) * 8 = I.opsize.bits := by
    rw [Size.bits, Nat.cast_mul, Int.mul_comm]
    rfl
  unfold Insn.partOffset
  dsimp only
  rw [hbits, hround]

/-- The displacement where it does not. -/
theorem partOffset_of_overflow {offset : Int} (hlow : -2 ^ 63 ≤ offset)
    (h : I.OffsetOverflows offset) : I.partOffset offset = 2 ^ 60 - 8 := by
  obtain ⟨hop, hlt⟩ := h
  have hwrap : wrapSigned (offset - 63) = offset - 63 + 2 ^ 64 :=
    wrapSigned_of_lt (by omega) (by omega)
  unfold Insn.partOffset
  rw [hop]
  dsimp only [Size.bytes]
  rw [if_pos (by omega)]
  have hbits : ((8 : Nat) : Int) * 8 - 1 = 63 := rfl
  rw [hbits, hwrap, Int.tdiv_eq_ediv_of_nonneg (by omega)]
  omega

/-- The byte of an offset, part by part. -/
theorem ediv_eight_eq (size : Size) (offset : Int) :
    offset / 8 = offset / size.bits * size.bytes + (offset % size.bits) / 8 := by
  cases size <;> simp only [Size.bits, Size.bytes] <;> omega

theorem emod_eight_eq (size : Size) (offset : Int) : offset % 8 = offset % size.bits % 8 := by
  cases size <;> simp only [Size.bits, Size.bytes] <;> omega

/-- The byte that holds bit `offset` of the string at `a`. -/
def bitByte (I : Insn) (a : Value) (offset : Int) : Value :=
  cutValue (a + BitVec.ofInt 64 (offset / 8)) I.addressSize

theorem toNat_cutValue_dword (v : Value) : (cutValue v .dword).toNat = v.toNat % 2 ^ 32 := by
  rw [toNat_cutValue, Size.low, BitVec.toNat_setWidth]
  rfl

theorem toNat_cut_mod {size : Size} (h : size = .dword ∨ size = .qword) (v : Value) :
    (cutValue v size).toNat % 2 ^ 32 = v.toNat % 2 ^ 32 := by
  rcases h with rfl | rfl
  · rw [toNat_cutValue_dword, Nat.mod_mod]
  · rw [cutValue_qword]

/-- A sum of a cut address and a small number, against the sum cut. -/
theorem cut_add_eq_iff (y : Value) {k : Nat} (hk : k < 8) :
    cutValue y .dword + BitVec.ofNat 64 k = cutValue (y + BitVec.ofNat 64 k) .dword ↔
      (cutValue y .dword).toNat + k < 2 ^ 32 := by
  have hknat : (BitVec.ofNat 64 k).toNat = k := by
    rw [BitVec.toNat_ofNat, Nat.mod_eq_of_lt (by omega)]
  rw [← BitVec.toNat_inj, toNat_cutValue_dword, BitVec.toNat_add, BitVec.toNat_add,
    toNat_cutValue_dword, hknat]
  omega

/-- The signed range of an offset. -/
theorem le_bitOffset (hwide : I.opsize ≠ .byte) (hsrc : src.toNat < 2 ^ I.opsize.bits) :
    -2 ^ (I.opsize.bits - 1) ≤ bitOffset src I.opsize := by
  have hpow : (2 : Nat) ^ I.opsize.bits = 2 ^ (I.opsize.bits - 1) * 2 :=
    (Nat.two_pow_pred_mul_two I.opsize.bits_pos).symm
  have hcast : ((2 ^ (I.opsize.bits - 1) : Nat) : Int) = 2 ^ (I.opsize.bits - 1) := by
    push_cast; rfl
  have hcast' : ((2 ^ I.opsize.bits : Nat) : Int) = 2 ^ I.opsize.bits := by push_cast; rfl
  rw [bitOffset_eq hwide hsrc, ← hcast, ← hcast']
  split <;> omega

/-- The command works on the byte of the offset, unless the offset overflows or the part runs
out. -/
theorem partByte_eq_iff {a : Value} (hwide : I.opsize ≠ .byte)
    (hsrc : src.toNat < 2 ^ I.opsize.bits)
    (haddr : I.addressSize = .dword ∨ I.addressSize = .qword) :
    partByte I a src = bitByte I a (bitOffset src I.opsize) ↔
      ¬ I.OffsetOverflows (bitOffset src I.opsize) ∧ ¬ I.PartRunsOut a
      (bitOffset src I.opsize) := by
  have hlow := le_bitOffset hwide hsrc
  have hmod := bitOffset_emod hwide hsrc
  set offset := bitOffset src I.opsize with hoffset
  set b := src.toNat % I.opsize.bits with hb
  have hblt : b < I.opsize.bits := Nat.mod_lt _ I.opsize.bits_pos
  have hbits := I.opsize.bits_le
  have hk : b / 8 < 8 := by omega
  have hdiv : offset / 8 = offset / I.opsize.bits * I.opsize.bytes + (b / 8 : Nat) := by
    rw [ediv_eight_eq I.opsize, hmod]
    rfl
  by_cases hover : I.OffsetOverflows offset
  · -- 2^61 - 8 bytes away
    have hop := hover.1
    rw [hop] at hlow
    have hpart := partOffset_of_overflow hlow hover
    refine ⟨fun h => ?_, fun h => absurd hover h.1⟩
    exfalso
    have hcongr := congrArg (fun v : Value => v.toNat % 2 ^ 32) h
    unfold partByte partAddress bitByte at hcongr
    rw [← hoffset, hpart, hdiv] at hcongr
    have hfloor : offset / I.opsize.bits * I.opsize.bytes = -2 ^ 60 := by
      have := hover.2
      rw [hop]
      simp only [Size.bits, Size.bytes]
      have hlow' : (-2 ^ 63 : Int) ≤ offset := hlow
      omega
    have hfar : (BitVec.ofInt 64 (2 ^ 60 - 8)).toNat = 2 ^ 60 - 8 := by decide
    have hnear : (BitVec.ofInt 64 (-2 ^ 60)).toNat = 2 ^ 64 - 2 ^ 60 := by decide
    have hknat : (BitVec.ofNat 64 (b / 8)).toNat = b / 8 := by
      rw [BitVec.toNat_ofNat, Nat.mod_eq_of_lt (by omega)]
    rw [hfloor, BitVec.ofInt_add, BitVec.ofInt_natCast, toNat_cut_mod haddr, BitVec.toNat_add,
      BitVec.toNat_add, BitVec.toNat_add, hknat, hnear, Nat.mod_mod_of_dvd _ (by decide),
      Nat.add_mod, toNat_cut_mod haddr, BitVec.toNat_add, hfar] at hcongr
    omega
  · have hpart := partOffset_eq hwide hlow hover
    have hsum : a + BitVec.ofInt 64 (offset / 8) =
        a + BitVec.ofInt 64 (I.partOffset offset) + BitVec.ofNat 64 (b / 8) := by
      rw [hdiv, ← hpart, BitVec.ofInt_add, BitVec.ofInt_natCast, BitVec.add_assoc]
    unfold partByte bitByte
    rw [hsum]
    rcases haddr with haddr | haddr
    · have hnot : ¬ I.PartRunsOut a offset ↔ (partAddress I a offset).toNat + b / 8 < 2 ^ 32 := by
        unfold Insn.PartRunsOut
        rw [hmod, Int.toNat_natCast]
        simp [haddr]
      rw [and_iff_right hover, hnot]
      unfold partAddress
      rw [haddr]
      exact cut_add_eq_iff _ hk
    · have hnot : ¬ I.PartRunsOut a offset := by
        rintro ⟨h, -⟩
        rw [haddr] at h
        cases h
      unfold partAddress
      rw [haddr, cutValue_qword, cutValue_qword]
      exact ⟨fun _ => ⟨hover, hnot⟩, fun _ => rfl⟩

end

/-! ## Every memory -/

theorem addressSize_of_calcIndex {μ : Type} {I : Insn} {s : Proc μ} {x : RmIndex}
    {p : Value × Value} (h : s.calcIndex I x = .ok p) :
    I.addressSize = .dword ∨ I.addressSize = .qword := by
  unfold Proc.calcIndex at h
  dsimp only at h
  cases hs : I.addressSize with
  | dword => exact .inl rfl
  | qword => exact .inr rfl
  | word =>
    rw [hs] at h
    cases h
  | byte =>
    rw [hs] at h
    cases h

/-- On every memory, a command works on bit `offset % 8` of the byte at `a + ⌊offset / 8⌋`, and on
nothing else, for every offset but the lowest 63 of a 64-bit register, and unless a part runs out of
the 32-bit address space before its bit. -/
theorem bitCommands_iff (c : BitCommand) {I : Insn} {x : RmIndex} {r : Register}
    (hI : I.HasBitString x r) {s : Proc (Value → Byte)} (hs : s.Idle) {sel a : Value}
    (ha : s.calcIndex I x = .ok (sel, a)) :
    (∀ mem : Value → Byte, c.call flatStream I { s with mem } = .ok ()
      (c.after { s with mem } (bitByte I a (bitOffset (s.getValue r) I.opsize))
        (bitOffset (s.getValue r) I.opsize % 8).toNat)) ↔
      ¬ I.OffsetOverflows (bitOffset (s.getValue r) I.opsize) ∧
        ¬ I.PartRunsOut a (bitOffset (s.getValue r) I.opsize) := by
  have hsrc : (s.getValue r).toNat < 2 ^ I.opsize.bits := by
    have hcut : cutValue (s.getValue r) r.size = s.getValue r := cutValue_getValueEx s r r.size
    rw [← hcut, toNat_cutValue, ← hI.sized]
    exact (r.size.low _).isLt
  have hbit : (bitOffset (s.getValue r) I.opsize % 8).toNat = partBit I (s.getValue r) := by
    rw [emod_eight_eq I.opsize, bitOffset_emod hI.wide hsrc]
    exact Int.toNat_natCast _
  have hrun : ∀ mem : Value → Byte, c.call flatStream I { s with mem } = .ok ()
      (c.after { s with mem } (partByte I a (s.getValue r)) (partBit I (s.getValue r))) :=
    fun mem =>
    BitCommand.call_flat (s := { s with mem }) hI ha c hs
  rw [← partByte_eq_iff hI.wide hsrc (addressSize_of_calcIndex ha), hbit]
  set e := bitByte I a (bitOffset (s.getValue r) I.opsize) with he
  set k := partBit I (s.getValue r) with hk
  constructor
  · intro h
    by_contra hne
    -- the two bytes differ in every bit
    have hsame := (hrun fun y => if y = e then 0xFF
        else 0).symm.trans (h fun y => if y = e then 0xFF else 0)
    have hcf := congrArg (fun t : Proc (Value → Byte) => (statusOf t.flags).cf)
      (EStateM.Result.ok.inj hsame).2
    unfold BitCommand.after at hcf
    rw [statusOf_withCF, statusOf_withCF] at hcf
    dsimp only at hcf
    rw [if_neg hne, if_pos rfl] at hcf
    have hk8 : k < 8 := Nat.mod_lt _ (by decide)
    revert hcf
    clear_value k
    interval_cases k <;> decide
  · intro heq mem
    rw [← heq]
    exact hrun mem

/-! ## Samples -/

/-- `bts [rbx], reg` in 64-bit mode. -/
def btsInsn (r : Register) : Insn where
  command := .general .bts
  operands := [⟨.index ⟨.ds, some .rbx, none, 0, 0⟩, r.size, .qword⟩, ⟨.register r, r.size, .qword⟩]
  iPrefix := .none
  opsize := r.size
  addressSize := .qword
  rexW := true
  fullCmdSize := 4
  signExtends := false
  pushSeg := false
  lockable := true
  isEvex := false

def btsIndex : RmIndex := ⟨.ds, some .rbx, none, 0, 0⟩

theorem btsInsn_hasBitString {r : Register} (h : r.size ≠ .byte) :
    (btsInsn r).HasBitString btsIndex r where
  operands := ⟨_, _, rfl⟩
  sized := rfl
  wide := h

/-- RBX at 0x1000 and an offset in RCX. -/
def atBits (offset : Value) (mem : Value → Byte) : Proc (Value → Byte) :=
  ((Proc.init ⟨true, .dword, .qword⟩ mem).setValue .rbx 0x1000).setValue .rcx offset

theorem atBits_idle (offset : Value) (mem : Value → Byte) : (atBits offset mem).Idle :=
  (Proc.Idle.setValue (Proc.Idle.setValue (s := Proc.init _ mem) rfl .rbx 0x1000).1 .rcx offset).1

theorem atBits_rcx (offset : Value) (mem : Value → Byte) :
    (atBits offset mem).getValue .rcx = offset :=
  getValue_setValue_r64 _ 1 offset

theorem atBits_calcIndex (offset : Value) (mem : Value → Byte) :
    (atBits offset mem).calcIndex (btsInsn .rcx) btsIndex = .ok (0, 0x1000) := by
  have hrbx : (atBits offset mem).getValue .rbx = 0x1000 :=
    (getValue_setValue_of_ne _ (by decide) _).trans (getValue_setValue_r64 _ 3 _)
  have hds : (atBits offset mem).getValue (.seg .ds) = 0 :=
    (getValue_setValue_of_ne _ (by decide) _).trans (getValue_setValue_of_ne _ (by decide) _)
  have hreg : (atBits offset mem).getOptional btsIndex.reg = 0x1000 := hrbx
  have hindexed : (atBits offset mem).getOptional btsIndex.indexedReg = 0 := rfl
  unfold Proc.calcIndex
  dsimp only
  have hrip : btsIndex.reg ≠ some .rip := by decide
  rw [hreg, hindexed, if_neg fun h => hrip h.2]
  exact congrArg (fun v => Except.ok (v, (0x1000 : Value))) hds

/-- Offset -1 is the last bit of the byte before. -/
theorem bts_minus_one : callBts flatStream (btsInsn .rcx) (atBits (-1) fun _ => 0) =
    .ok () (BitCommand.bts.after (atBits (-1) fun _ => 0) 0xFFF 7) := by
  have h :=
    (bitCommands_iff .bts (btsInsn_hasBitString (r := .rcx) (by decide))
      (atBits_idle (-1) fun _ => 0)
    (atBits_calcIndex (-1) fun _ => 0)).2
  rw [atBits_rcx] at h
  exact h ⟨fun h => absurd h.2 (by decide), nofun⟩ fun _ => 0

/-- Offset -2^63 sets a bit 2^60 - 8 bytes above the string, and not the one 2^60 bytes below it. -/
theorem bts_lowest_offset : ∃ t : Proc (Value → Byte),
    callBts flatStream (btsInsn .rcx) (atBits (BitVec.intMin 64) fun _ => 0) = .ok () t ∧
      t.mem (0x1000 - 0x1000000000000000) = 0 ∧ t.mem (0x1000 + 0x0FFFFFFFFFFFFFF8) = 1 := by
  have hrun := BitCommand.call_flat (btsInsn_hasBitString (r := .rcx) (by decide))
    (atBits_calcIndex (BitVec.intMin 64) fun _ => 0) .bts
    (atBits_idle (BitVec.intMin 64) fun _ => 0)
  have hbyte : partByte (btsInsn .rcx) 0x1000 (BitVec.intMin 64) = 0x1000 + 0x0FFFFFFFFFFFFFF8 := by
    decide
  have hbit : partBit (btsInsn .rcx) (BitVec.intMin 64) = 0 := by decide
  rw [atBits_rcx, hbyte, hbit] at hrun
  refine ⟨_, hrun, ?_, ?_⟩
  · have hne : (0x1000 - 0x1000000000000000 : Value) ≠ 0x1000 + 0x0FFFFFFFFFFFFFF8 := by decide
    unfold BitCommand.after
    dsimp only
    rw [Function.update_of_ne hne]
    rfl
  · have hmem : (atBits (BitVec.intMin 64) fun _ => 0).mem = fun _ => 0 := rfl
    unfold BitCommand.after
    dsimp only
    rw [Function.update_self, hmem]
    decide

end Diana.Processor
