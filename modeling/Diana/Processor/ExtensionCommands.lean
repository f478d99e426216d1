import Diana.Processor.CarryLess

/-!
# The extensions in registers

The handlers of `diana_processor_cmd_ext.c` with a register as destination: what they write there
and which flags they leave, and runs of several of them.

* `callAndn_eq`, `callBls_eq`, …: the handlers, each one write;
* `BitLoop.run_setBits`: `popcnt`, and then `tzcnt` and `blsr` as often as it says,
  come to every set bit;
* `callPext_callPdep`, `callPdep_callPext`: bits that are taken out and put back;
* `runCrc32_residue`: a run of `crc32` leaves the remainder of its data.
-/

namespace Diana.Processor

open Diana.Lib Polynomial

variable {μ : Type} {S : MemoryStream μ} {I : Insn} {s : Proc μ} {r : Register}

/-! ## Register operands -/

/-- The operand at a place is a register. -/
def Insn.HasRegister (I : Insn) (n : Nat) (r : Register) :
    Prop := ∃ a, I.operands[n]? = some ⟨.register r, r.size, a⟩

theorem getOperand_register {n : Nat} (h : I.HasRegister n r) (s : Proc μ) :
    getOperand S I n s = .ok (s.getValue r, r.size) s := by
  obtain ⟨a, h⟩ := h
  unfold getOperand
  rw [h]
  rfl

theorem setOperand_register {n : Nat} (h : I.HasRegister n r) (v : Value) (s : Proc μ) :
    setOperand S I n v s = .ok () (s.setRegisterOperand r v) := by
  obtain ⟨a, h⟩ := h
  unfold setOperand
  rw [h]
  rfl

theorem getValue_setRegisterOperand_of_ne {r' : Register} (h : r'.cell ≠ r.cell) (s : Proc μ)
    (v : Value) : (s.setRegisterOperand r v).getValue r' = s.getValue r' := by
  have hset := getValue_setValue_of_ne s h v
  unfold Proc.setRegisterOperand
  cases r with
  | r32 i =>
    dsimp only
    split
    · exact (congrArg (BitVec.setWidth 64) (Cells.get_set_cell _ _ _ _ h)).trans hset
    · exact hset
  | _ => exact hset

theorem Proc.Idle.setRegisterOperand (hs : s.Idle) (r : Register) (v : Value) :
    (s.setRegisterOperand r v).Idle ∧ (s.setRegisterOperand r v).flags = s.flags := by
  have hset := hs.setValue r v
  unfold Proc.setRegisterOperand
  cases r with
  | r32 i =>
    dsimp only
    split <;> exact hset
  | _ => exact hset

/-! ## The handlers -/

/-- The state after new flags and a write to the destination. -/
def Proc.leave (s : Proc μ) (r : Register) (v flags : Value) :
    Proc μ := ({ s with flags }).setRegisterOperand r v

/-- The flags of `Di_Bls`. -/
def blsFlags (operation : BlsOperation) (flags src : Value) (size : Size) : Value :=
  let zero := src &&& sizeMask size == 0
  let f := setIf (clearCFOF (setZFSF flags (blsValue operation src size) size)) flagCF
    (if operation = .blsi then !zero else zero)
  if operation = .blsmsk then clearFlag f flagZF else f

section

variable {src src1 src2 control mask imm : Value} {size size1 size2 : Size} (h0 : I.HasRegister 0 r)

include h0

theorem setOperand_leave (v flags : Value) :
    setOperand S I 0 v { s with flags } = .ok () (s.leave r v flags) :=
  setOperand_register h0 v _

section

variable (h1 : getOperand S I 1 s = .ok (src, size) s)

include h1

/-- The reads of a command with one source. -/
theorem source_bind (f : Value × Size → Value × Size → Exec μ Unit) :
    (getOperand S I 0 >>= fun a => getOperand S I 1 >>= fun b => f a b) s = f (s.getValue r, r.size)
    (src, size) s := by
  rw [bind_of_ok (getOperand_register h0 s), bind_of_ok h1]

theorem callPopcnt_eq : callPopcnt S I s = .ok () (s.leave r (popcntValue src size)
    (setIf (clearArith s.flags) flagZF (src &&& sizeMask size == 0))) :=
  (source_bind h0 h1 _).trans (setOperand_leave h0 _ _)

theorem callCountZeros_eq (leading : Bool) :
    callCountZeros S I leading s = .ok () (s.leave r (countZeros leading src size)
    (setIf (setIf (clearFlag (clearFlag s.flags flagCF) flagZF) flagCF (src &&& sizeMask size == 0))
      flagZF (countZeros leading src size == 0))) :=
  (source_bind h0 h1 _).trans (setOperand_leave h0 _ _)

theorem callBls_eq (operation : BlsOperation) : callBls S I operation s =
    .ok () (s.leave r (blsValue operation src r.size) (blsFlags operation s.flags src r.size)) :=
  (source_bind h0 h1 _).trans (setOperand_leave h0 _ _)

theorem callCrc32_eq : callCrc32 S I s = .ok ()
    (s.setRegisterOperand r ((crc32Value ((s.getValue r).setWidth 32) src size).setWidth 64)) :=
  (source_bind h0 h1 _).trans (setOperand_register h0 _ _)

theorem callMovbe_eq : callMovbe S I s = .ok () (s.setRegisterOperand r (movbeValue src r.size)) :=
  (source_bind h0 h1 _).trans (setOperand_register h0 _ _)

end

section

variable (h1 : getOperand S I 1 s = .ok (src, size1) s)
  (h2 : getOperand S I 2 s = .ok (control, size2) s)

include h1 h2

/-- The reads of a command with two sources. -/
theorem sources_bind (f : Value × Size → Value × Size → Value × Size → Exec μ Unit) :
    (getOperand S I 0 >>= fun a => getOperand S I 1 >>= fun b => getOperand S I 2 >>= fun c =>
      f a b c) s = f (s.getValue r, r.size) (src, size1) (control, size2) s := by
  rw [bind_of_ok (getOperand_register h0 s), bind_of_ok h1, bind_of_ok h2]

theorem callAndn_eq : callAndn S I s = .ok () (s.leave r (~~~src &&& control &&& sizeMask r.size)
    (clearCFOF (setZFSF s.flags (~~~src &&& control &&& sizeMask r.size) r.size))) :=
  (sources_bind h0 h1 h2 _).trans (setOperand_leave h0 _ _)

theorem callBextr_eq : callBextr S I s = .ok () (s.leave r (bextrValue src control r.size)
    (clearCFOF (setZFSF s.flags (bextrValue src control r.size) r.size))) :=
  (sources_bind h0 h1 h2 _).trans (setOperand_leave h0 _ _)

theorem callBzhi_eq : callBzhi S I s = .ok () (s.leave r (bzhiValue src control r.size)
    (setIf (clearCFOF (setZFSF s.flags (bzhiValue src control r.size) r.size)) flagCF
      (8 * r.size.bytes - 1 < (control &&& 0xff).toNat))) :=
  (sources_bind h0 h1 h2 _).trans (setOperand_leave h0 _ _)

theorem callBitsDepositExtract_eq (deposit : Bool) : callBitsDepositExtract S I deposit s =
    .ok () (s.setRegisterOperand r (bitsDepositExtract deposit src control r.size)) :=
  (sources_bind h0 h1 h2 _).trans (setOperand_register h0 _ _)

theorem callRorx_eq : callRorx S I s = .ok ()
    (s.setRegisterOperand r (rorxValue src control r.size)) :=
  (sources_bind h0 h1 h2 _).trans (setOperand_register h0 _ _)

theorem callShiftX_eq (operation : ShiftOperation) : callShiftX S I operation s =
    .ok () (s.setRegisterOperand r (shiftXValue operation src control r.size)) :=
  (sources_bind h0 h1 h2 _).trans (setOperand_register h0 _ _)

end

end

/-! ## Zeros -/

/-- Without a set bit `tzcnt` counts the whole operand. -/
theorem toNat_tzcnt_of_clear {src : Value} {size : Size}
    (h : ∀ j < size.bits, src.getLsbD j = false) :
    (countZeros false src size).toNat = size.bits := by
  have hbits := size.bits_le
  have hclear : ∀ j, (src &&& sizeMask size).getLsbD j = false := fun j => by
    rw [getLsbD_masked]
    by_cases hj : j < size.bits
    · rw [h j hj, Bool.and_false]
    · rw [decide_eq_false hj, Bool.false_and]
  have hloop : trailingLoop (src &&& sizeMask size) size.bits (BitVec.ofNat 64 0) =
      BitVec.ofNat 64 size.bits :=
    trailingLoop_eq (fun j _ => hclear j) (Nat.zero_le _) (.inl (Nat.zero_add _).symm) (by omega)
  have hcount : countZeros false src size = BitVec.ofNat 64 size.bits := hloop
  rw [hcount, BitVec.toNat_ofNat]
  exact Nat.mod_eq_of_lt (by omega)

theorem toNat_tzcnt_le (src : Value) (size : Size) :
    (countZeros false src size).toNat ≤ size.bits := by
  by_cases h : ∃ k, k < size.bits ∧ src.getLsbD k = true
  · obtain ⟨hk, hset⟩ := Nat.find_spec h
    rw [toNat_tzcnt hk hset fun j hj => Bool.eq_false_iff.2 fun hset' => Nat.find_min h hj
      ⟨by omega, hset'⟩]
    omega
  · rw [toNat_tzcnt_of_clear fun j hj => Bool.eq_false_iff.2 fun hset => h ⟨j, hj, hset⟩]

/-! ## Runs -/

theorem getValue_leave (s : Proc μ) (r : Register) (v flags : Value) :
    (s.leave r v flags).getValue r = cutValue v r.size :=
  getValue_setRegisterOperand _ r v

theorem getValue_leave_of_ne {r' : Register} (h : r'.cell ≠ r.cell) (s : Proc μ) (v flags : Value) :
    (s.leave r v flags).getValue r' = s.getValue r' :=
  (getValue_setRegisterOperand_of_ne h _ v).trans rfl

theorem cutValue_masked (v : Value) (size : Size) :
    cutValue (v &&& sizeMask size) size = v &&& sizeMask size := by
  rw [masked_eq_cutValue, cutValue_cutValue]

/-- A number of bits fits every operand. -/
theorem cutValue_of_le_bits {v : Value} {size : Size} (size' : Size) (h : v.toNat ≤ size.bits) :
    cutValue v size' = v := by
  have hbits := size.bits_le
  have hpow : 2 ^ 8 ≤ 2 ^ size'.bits := Nat.pow_le_pow_right (by decide) (by cases size' <;> decide)
  exact cutValue_of_lt (by omega)

/-! ### Loops over set bits -/

/-- The instructions of a loop over the set bits of a register. -/
structure BitLoop where
  /-- `popcnt` -/
  population : Insn
  /-- `tzcnt` -/
  count : Insn
  /-- `blsr` -/
  clear : Insn
  turns : Register
  index : Register
  bits : Register
  populationDest : population.HasRegister 0 turns
  populationSrc : population.HasRegister 1 bits
  countDest : count.HasRegister 0 index
  countSrc : count.HasRegister 1 bits
  clearDest : clear.HasRegister 0 bits
  clearSrc : clear.HasRegister 1 bits
  turns_ne : bits.cell ≠ turns.cell
  index_ne : bits.cell ≠ index.cell

namespace BitLoop

variable (S) in
/-- As many turns of the loop, and what they find in the index. -/
def turnsOf (L : BitLoop) : Nat → Exec μ (List Value)
  | 0 => pure []
  | n + 1 => do
    callTzcnt S L.count
    let s ← get
    callBls S L.clear .blsr
    let rest ← turnsOf L n
    return s.getValue L.index :: rest

variable (S) in
/-- The loop, with the number of its turns from `popcnt`. -/
def run (L : BitLoop) : Exec μ (List Value) := do
  callPopcnt S L.population
  let s ← get
  L.turnsOf S (s.getValue L.turns).toNat

variable (L : BitLoop)

theorem turnsOf_visited (n : Nat) (s : Proc μ) :
    ∃ t, L.turnsOf S n s = .ok (visited L.bits.size n (s.getValue L.bits)) t := by
  induction n generalizing s with
  | zero => exact ⟨s, rfl⟩
  | succ n ih =>
    have hcount := callCountZeros_eq (S := S) L.countDest (getOperand_register L.countSrc s) false
    generalize hu : s.leave L.index (countZeros false (s.getValue L.bits) L.bits.size) _ =
      u at hcount
    have hindex : u.getValue L.index = countZeros false (s.getValue L.bits) L.bits.size := by
      rw [← hu, getValue_leave]
      exact cutValue_of_le_bits _ (toNat_tzcnt_le _ _)
    have hbits : u.getValue L.bits = s.getValue L.bits := by
      rw [← hu, getValue_leave_of_ne L.index_ne]
    have hclear := callBls_eq (S := S) L.clearDest (getOperand_register L.clearSrc u) .blsr
    generalize hw : u.leave L.bits (blsValue .blsr (u.getValue L.bits) L.bits.size) _ = w at hclear
    have hnext : w.getValue L.bits = blsValue .blsr (s.getValue L.bits) L.bits.size := by
      rw [← hw, getValue_leave, hbits]
      exact cutValue_masked _ _
    obtain ⟨t, hrest⟩ := ih w
    refine ⟨t, ?_⟩
    rw [turnsOf, callTzcnt, bind_of_ok hcount, get_bind, bind_of_ok hclear, bind_of_ok hrest,
      visited, hindex, hnext]
    rfl

/-- The loop comes to each set bit once, from the lowest to the highest. -/
theorem run_setBits (s : Proc μ) :
    ∃ found t, L.run S s = .ok found t ∧
      found.map BitVec.toNat = (List.range L.bits.size.bits).filter
      (s.getValue L.bits).getLsbD := by
  have hpopulation :=
    callPopcnt_eq (S := S) L.populationDest (getOperand_register L.populationSrc s)
  generalize hu : s.leave L.turns (popcntValue (s.getValue L.bits) L.bits.size) _ = u at hpopulation
  have hturns : u.getValue L.turns = popcntValue (s.getValue L.bits) L.bits.size := by
    rw [← hu, getValue_leave]
    exact cutValue_of_le_bits _ ((toNat_popcntValue _ _).trans_le (rank_le _ _))
  have hbits : u.getValue L.bits = s.getValue L.bits := by
    rw [← hu, getValue_leave_of_ne L.turns_ne]
  obtain ⟨t, hrun⟩ := L.turnsOf_visited (S := S) (u.getValue L.turns).toNat u
  refine ⟨_, t, ?_, visited_eq (s.getValue L.bits) L.bits.size⟩
  rw [run, bind_of_ok hpopulation, get_bind, hrun, hturns, hbits]

end BitLoop

/-! ### Bits under a mask -/

theorem cutValue_bitsDepositExtract (deposit : Bool) (src mask : Value) (size : Size) :
    cutValue (bitsDepositExtract deposit src mask size) size =
    bitsDepositExtract deposit src mask size := by
  apply BitVec.eq_of_getLsbD_eq
  intro j _
  rw [getLsbD_cutValue, Bool.eq_iff_iff, Bool.and_eq_true, decide_eq_true_eq, and_iff_right_iff_imp]
  intro h
  cases deposit with
  | true => exact ((getLsbD_pdep ..).1 h).1
  | false =>
    obtain ⟨p, hp, -, hrank, -⟩ := (getLsbD_pext ..).1 h
    have := rank_le mask p
    omega

section

variable {I' : Insn} {bits mask moved dest : Register} (h0 : I.HasRegister 0 moved)
  (h1 : I.HasRegister 1 bits)
  (h2 : I.HasRegister 2 mask) (h0' : I'.HasRegister 0 dest) (h1' : I'.HasRegister 1 moved)
  (h2' : I'.HasRegister 2 mask) (hmask : mask.cell ≠ moved.cell) (hsize : moved.size = dest.size)

include h0 h1 h2 h0' h1' h2' hmask hsize

/-- Two moves under one mask, the second from where the first went. -/
theorem callBitsDepositExtract_twice (deposit : Bool) (s : Proc μ) :
    ∃ t, (callBitsDepositExtract S I deposit >>= fun _ => callBitsDepositExtract S I' !deposit) s =
    .ok () t ∧
      t.getValue dest = bitsDepositExtract (!deposit)
        (bitsDepositExtract deposit (s.getValue bits) (s.getValue mask) dest.size)
        (s.getValue mask) dest.size := by
  have hfirst := callBitsDepositExtract_eq (S := S) h0 (getOperand_register h1 s)
      (getOperand_register h2 s) deposit
  rw [hsize] at hfirst
  generalize hu : s.setRegisterOperand moved _ = u at hfirst
  have hmoved : u.getValue moved =
      bitsDepositExtract deposit (s.getValue bits) (s.getValue mask) dest.size := by
    rw [← hu, getValue_setRegisterOperand, hsize, cutValue_bitsDepositExtract]
  have hkept : u.getValue mask = s.getValue mask := by
    rw [← hu, getValue_setRegisterOperand_of_ne hmask]
  have hsecond := callBitsDepositExtract_eq (S := S) h0' (getOperand_register h1' u)
      (getOperand_register h2' u) !deposit
  refine ⟨_, (bind_of_ok hfirst).trans hsecond, ?_⟩
  rw [getValue_setRegisterOperand, cutValue_bitsDepositExtract, hmoved, hkept]

/-- `pext` and then `pdep`: the bits under the mask. -/
theorem callPext_callPdep (s : Proc μ) :
    ∃ t, (callPext S I >>= fun _ => callPdep S I') s = .ok () t ∧
      t.getValue dest = s.getValue bits &&& s.getValue mask &&& sizeMask dest.size := by
  obtain ⟨t, hrun, ht⟩ :=
    callBitsDepositExtract_twice (S := S) h0 h1 h2 h0' h1' h2' hmask hsize false s
  exact ⟨t, hrun, ht.trans (pdep_pext _ _ _).1⟩

/-- `pdep` and then `pext`: what `bzhi` leaves of the bits, with the count of `popcnt`. -/
theorem callPdep_callPext {P B : Insn} {count low : Register} (hp0 : P.HasRegister 0 count)
    (hp1 : P.HasRegister 1 mask) (hb0 : B.HasRegister 0 low) (hb1 : B.HasRegister 1 bits)
    (hb2 : B.HasRegister 2 count) (hbits : bits.cell ≠ count.cell) (hmasked : mask.size = dest.size)
    (hlow : low.size = dest.size) (s : Proc μ) :
    ∃ t u, (callPdep S I >>= fun _ => callPext S I') s = .ok () t ∧
      (callPopcnt S P >>= fun _ => callBzhi S B) s = .ok () u ∧
      t.getValue dest = u.getValue low := by
  obtain ⟨t, hrun, ht⟩ :=
    callBitsDepositExtract_twice (S := S) h0 h1 h2 h0' h1' h2' hmask hsize true s
  have hpopulation := callPopcnt_eq (S := S) hp0 (getOperand_register hp1 s)
  generalize hv : s.leave count (popcntValue (s.getValue mask) mask.size) _ = v at hpopulation
  have hcount : v.getValue count = popcntValue (s.getValue mask) dest.size := by
    rw [← hv, getValue_leave, ← hmasked]
    exact cutValue_of_le_bits _ ((toNat_popcntValue _ _).trans_le (rank_le _ _))
  have hkept : v.getValue bits = s.getValue bits := by rw [← hv, getValue_leave_of_ne hbits]
  have hbzhi := callBzhi_eq (S := S) hb0 (getOperand_register hb1 v) (getOperand_register hb2 v)
  refine ⟨t, _, hrun, (bind_of_ok hpopulation).trans hbzhi, ?_⟩
  rw [getValue_leave, hkept, hcount, hlow,
    ← (pdep_pext (s.getValue bits) (s.getValue mask) dest.size).2,
    cutValue_bitsDepositExtract]
  exact ht

end

/-! ### Checksums -/

/-- A `crc32` into a register from another. -/
structure Crc32Step (r : Register) where
  insn : Insn
  src : Register
  hasDest : insn.HasRegister 0 r
  hasSrc : insn.HasRegister 1 src
  src_ne : src.cell ≠ r.cell

variable (S) in
/-- The steps one after the other. -/
def runCrc32 : List (Crc32Step r) → Exec μ Unit
  | [] => pure ()
  | st :: steps => do
    callCrc32 S st.insn
    runCrc32 steps

/-- What the steps are given. -/
def Proc.crc32Sources (s : Proc μ) (steps : List (Crc32Step r)) : List (Value × Size) :=
  steps.map fun st => (s.getValue st.src, st.src.size)

theorem runCrc32_value (hr : 32 ≤ r.size.bits) (steps : List (Crc32Step r)) (s : Proc μ) :
    ∃ t, runCrc32 S steps s = .ok () t ∧ (t.getValue r).setWidth 32 =
      (s.crc32Sources steps).foldl (fun crc p => crc32Value crc p.1 p.2)
      ((s.getValue r).setWidth 32) := by
  induction steps generalizing s with
  | nil => exact ⟨s, rfl, rfl⟩
  | cons st steps ih =>
    have hstep := callCrc32_eq (S := S) st.hasDest (getOperand_register st.hasSrc s)
    generalize hu : s.setRegisterOperand r _ = u at hstep
    have hvalue : (u.getValue r).setWidth 32 =
        crc32Value ((s.getValue r).setWidth 32) (s.getValue st.src) st.src.size := by
      rw [← hu, getValue_setRegisterOperand, cutValue_eq, Size.low,
        BitVec.setWidth_setWidth_of_le _ (by decide), BitVec.setWidth_setWidth_of_le _ hr,
        BitVec.setWidth_setWidth_of_le _ (by decide), BitVec.setWidth_eq]
    have hsources : u.crc32Sources steps = s.crc32Sources steps :=
      List.map_congr_left fun st' _ => by rw [← hu, getValue_setRegisterOperand_of_ne st'.src_ne]
    obtain ⟨t, hrun, ht⟩ := ih u
    refine ⟨t, (bind_of_ok hstep).trans hrun, ?_⟩
    rw [ht, hvalue, hsources]
    rfl

/-- The register after a run of `crc32` is the remainder of its data, read the other way round. -/
theorem runCrc32_residue (hr : 32 ≤ r.size.bits) (steps : List (Crc32Step r)) (s : Proc μ) :
    ∃ t, runCrc32 S steps s = .ok () t ∧ bitsPoly ((t.getValue r).setWidth 32).reverse =
      (bitsPoly ((s.getValue r).setWidth 32).reverse * X ^
        (8 * (crc32Data (s.crc32Sources steps)).length) +
        messagePoly (crc32Data (s.crc32Sources steps)) * X ^ 32) %ₘ castagnoli := by
  obtain ⟨t, hrun, ht⟩ := runCrc32_value (S := S) hr steps s
  refine ⟨t, hrun, ?_⟩
  rw [ht]
  exact bitsPoly_crc32 _ _

end Diana.Processor
