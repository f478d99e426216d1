import Diana.Processor.Arith

/-!
# Commands

The handlers of the general-purpose instructions (`Diana_Call_*`), over the operand access of
`Diana.Processor.Operands` and the arithmetic of `Diana.Processor.Arith`. The order of reads, flag
updates, register updates and writes is the order of the source.
-/

namespace Diana.Processor

open Diana.Lib

variable {μ : Type} (S : MemoryStream μ) (I : Insn)

/-! ## Arithmetic -/

/-- `Diana_Call_add` and `Diana_Call_sub`: `op` and its flags. -/
def callArith (op : Value → Value → Value)
    (coa : Updates → Value → Value → Value → Value → Size → Value) : Exec μ Unit := do
  let (dest, destSize) ← getOperand S I 0
  let (src, srcSize) ← getOperand S I 1
  let src := signExtend src srcSize destSize
  modifyFlags clearCOA
  let new ← checkZeroExtends I (op dest src) srcSize
  modifyFlags fun f => coa .coa f dest new src destSize
  updateFlagsPsz (setOperand S I 0 new)

def callAdd : Exec μ Unit := callArith S I (· + ·) setCOA_Add
def callSub : Exec μ Unit := callArith S I (· - ·) setCOA_Sub

/-- `Diana_Call_adc` and `Diana_Call_sbb`: the flags of a carry that was set are those of
`coaCF`. -/
def callArithCarry (op : Value → Value → Value)
    (coa coaCF : Updates → Value → Value → Value → Value → Size → Value) : Exec μ Unit := do
  let (dest, destSize) ← getOperand S I 0
  let (src, srcSize) ← getOperand S I 1
  let src := signExtend src srcSize destSize
  let s ← get
  let cfValue := carryOf s.flags
  modifyFlags clearCOA
  let new ← checkZeroExtends I (op dest (src + cfValue)) srcSize
  modifyFlags fun f => (if cfValue = 0 then coa else coaCF) .coa f dest new src destSize
  updateFlagsPsz (setOperand S I 0 new)

def callAdc : Exec μ Unit := callArithCarry S I (· + ·) setCOA_Add setCOA_AddCF
def callSbb : Exec μ Unit := callArithCarry S I (· - ·) setCOA_Sub setCOA_SubCF

/-- The size of the first operand (`m_result.linkedOperands->usedSize`). -/
def Insn.firstSize (I : Insn) : Size := (I.operands[0]?.map LinkedOperand.usedSize).getD .byte

def callCmp : Exec μ Unit := do
  let (dest, destSize) ← getOperand S I 0
  let (src, srcSize) ← getOperand S I 1
  let src := signExtend src srcSize destSize
  modifyFlags clearCOA
  let new := dest - src
  modifyFlags fun f => setCOA_Sub .coa f dest new src destSize
  modify fun s => s.updatePSZ new I.firstSize

/-- `Diana_Call_inc` and `Diana_Call_dec`. -/
def callIncDec (op : Value → Value → Value)
    (coa : Updates → Value → Value → Value → Value → Size → Value) : Exec μ Unit := do
  let (dest, destSize) ← getOperand S I 0
  modifyFlags clearOA
  let new := op dest 1
  modifyFlags fun f => coa .oa f dest new 1 destSize
  updateFlagsPsz (setOperand S I 0 new)

def callInc : Exec μ Unit := callIncDec S I (· + ·) setCOA_Add
def callDec : Exec μ Unit := callIncDec S I (· - ·) setCOA_Sub

def callNeg : Exec μ Unit := do
  let (src, srcSize) ← getOperand S I 0
  modifyFlags clearOA
  let dest := 0 - src
  modifyFlags fun f => setCOA_Sub .oa f 0 dest src srcSize
  updateFlagsPsz (setOperand S I 0 dest)
  modifyFlags fun f => withCF f (src != 0)

/-! ## Multiplication and division -/

/-- `SET_FLAG_CF; SET_FLAG_OF` where the product does not fit. -/
def setCFOF (c : Bool) : Exec μ Unit :=
  modifyFlags fun f => if c then setFlag (setFlag f flagCF) flagOF else f

def setRegs (l : List (Register × Value)) : Exec μ Unit :=
  modify fun s => l.foldl (fun s rv => s.setValue rv.1 rv.2) s

def callMul : Exec μ Unit := do
  let (argument, _) ← getOperand S I 0
  modifyFlags fun f => clearFlag (clearFlag f flagCF) flagOF
  let s ← get
  match I.firstSize with
  | .qword => do
    let (r0, r1) := mul64 (s.getValue (.r64 0)) argument
    setCFOF (r1 != 0)
    setRegs [(.r64 0, r0), (.r64 2, r1)]
  | .dword => do
    let r := s.getValue (.r32 0) * argument
    setCFOF (r >>> 32 != 0)
    setRegs [(.r32 0, cutValue r .dword), (.r32 2, r >>> 32)]
  | .word => do
    let r := cutValue (s.getValue (.r16 0) * argument) .dword
    setCFOF (r >>> 16 != 0)
    setRegs [(.r16 0, cutValue r .word), (.r16 2, r >>> 16)]
  | .byte => do
    let r := cutValue (s.getValue (.r8 0) * cutValue argument .word) .word
    setCFOF (r >>> 8 != 0)
    setRegs [(.r16 0, r)]

/-- The low part of `v` at a size, as a signed number in 64 bits. -/
def signedPart (v : Value) (size : Size) : Value := (v.setWidth (8 * size.bytes)).signExtend 64

/-- `Diana_Call_imul_1` -/
def callImul1 : Exec μ Unit := do
  let (argument, _) ← getOperand S I 0
  let s ← get
  match I.firstSize with
  | .qword => do
    let (r0, r1) := imul64 (s.getValue (.r64 0)) argument
    setCFOF (r1 != r0.sshiftRight 63)
    setRegs [(.r64 0, r0), (.r64 2, r1)]
  | .dword => do
    let r := signedPart (s.getValue (.r32 0)) .dword * signedPart argument .dword
    setCFOF (signedPart r .dword != r)
    setRegs [(.r32 0, cutValue r .dword), (.r32 2, r.sshiftRight 32)]
  | .word => do
    let r := signedPart (signedPart (s.getValue (.r16 0)) .word * signedPart argument .word) .dword
    setCFOF (signedPart r .word != r)
    setRegs [(.r16 0, cutValue r .word), (.r16 2, r.sshiftRight 16)]
  | .byte => do
    let r := signedPart (signedPart (s.getValue (.r8 0)) .byte * signedPart argument .byte) .word
    setCFOF (signedPart r .byte != r)
    setRegs [(.r16 0, r)]

/-- `Diana_Call_imul_impl` -/
def imulImpl (op1 op2 : Value) (size1 size2 : Size) : Exec μ Value := do
  let arg1 := signExtend op1 size1 .qword
  let arg2 := signExtend op2 size2 .qword
  let result := arg1 * arg2
  match I.firstSize with
  | .qword => do
    let (r0, r1) := imul64 arg1 arg2
    setCFOF (r1 != r0.sshiftRight 63)
    return r0
  | size => do
    setCFOF (signedPart result size != result)
    return result

def callImul2 : Exec μ Unit := do
  let (dest, destSize) ← getOperand S I 0
  let (src, srcSize) ← getOperand S I 1
  let dest ← imulImpl I src dest srcSize destSize
  setOperand S I 0 dest

def callImul3 : Exec μ Unit := do
  let _ ← getOperand S I 0
  let (src1, size1) ← getOperand S I 1
  let (src2, size2) ← getOperand S I 2
  let dest ← imulImpl I src1 src2 size1 size2
  setOperand S I 0 dest

def callImul : Exec μ Unit := do
  modifyFlags fun f => clearFlag (clearFlag f flagCF) flagOF
  match I.operands.length with
  | 1 => callImul1 S I
  | 2 => callImul2 S I
  | 3 => callImul3 S I
  | _ => throw (.command .unsupportedCommand)

def callDiv : Exec μ Unit := do
  let (divisor, _) ← getOperand S I 0
  let s ← get
  match I.firstSize with
  | .qword => do
    if divisor = 0 then throw (.command .divisionByZero)
    match div64 (s.getValue (.r64 0)) (s.getValue (.r64 2)) divisor with
    | none => throw (.command .divisionByZero)
    | some (q, r) => setRegs [(.r64 0, q), (.r64 2, r)]
  | .dword => do
    let divisor := cutValue divisor .dword
    if divisor = 0 then throw (.command .divisionByZero)
    let src := s.getValue (.r32 2) <<< 32 ||| s.getValue (.r32 0)
    if 0xFFFFFFFF < src / divisor then throw (.command .divisionOverflow)
    setRegs [(.r32 0, src / divisor), (.r32 2, src % divisor)]
  | .word => do
    let divisor := cutValue divisor .word
    if divisor = 0 then throw (.command .divisionByZero)
    let src := s.getValue (.r16 2) <<< 16 ||| s.getValue (.r16 0)
    if 0xFFFF < src / divisor then throw (.command .divisionOverflow)
    setRegs [(.r16 0, src / divisor), (.r16 2, src % divisor)]
  | .byte => do
    let divisor := cutValue divisor .byte
    if divisor = 0 then throw (.command .divisionByZero)
    let src := s.getValue (.r16 0)
    if 0xFF < src / divisor then throw (.command .divisionByZero)
    setRegs [(.r8 0, src / divisor), (.r8h 0, src % divisor)]

/-- `Diana_Call_idiv8`, `Diana_Call_idiv16` and `Diana_Call_idiv32`: the dividend and the divisor
are sign-extended, the quotient may reach `bound` either way. -/
def idivWith (dividend divisor : Value) (bound : Int) (failure : Status) (size : Size)
    (low high : Register) : Exec μ Unit := do
  let divisor := signedPart divisor size
  if divisor = 0 then throw (.command .divisionByZero)
  let quotient := dividend.sdiv divisor
  let remainder := dividend.srem divisor
  if bound < quotient.toInt ∨ quotient.toInt < -bound then throw (.command failure)
  setRegs [(low, quotient), (high, remainder)]

def callIdiv : Exec μ Unit := do
  let (divisor, _) ← getOperand S I 0
  let s ← get
  match I.firstSize with
  | .qword => do
    if divisor = 0 then throw (.command .divisionByZero)
    match idiv64 (s.getValue (.r64 0)) (s.getValue (.r64 2)) divisor with
    | none => throw (.command .divisionByZero)
    | some (q, r) => setRegs [(.r64 0, q), (.r64 2, r)]
  | .dword =>
    idivWith (s.getValue (.r32 2) <<< 32 ||| s.getValue (.r32 0)) divisor 0xFFFFFFFF
      .divisionOverflow .dword (.r32 0) (.r32 2)
  | .word =>
    idivWith (signedPart (s.getValue (.r16 2) <<< 16 ||| s.getValue (.r16 0)) .dword) divisor 0xFFFF
      .divisionOverflow .word (.r16 0) (.r16 2)
  | .byte =>
    idivWith (signedPart (s.getValue (.r16 0)) .word) divisor 0xFF
      .divisionByZero .byte (.r8 0) (.r8h 0)

/-! ## Logic -/

/-- `Diana_Call_and` and `Diana_Call_or`. -/
def callLogic (op : Value → Value → Value) : Exec μ Unit := do
  let (dest, destSize) ← getOperand S I 0
  let (src, srcSize) ← getOperand S I 1
  let src := signExtend src srcSize destSize
  let new ← checkZeroExtends I (op dest src) srcSize
  modifyFlags fun f => clearFlag (clearFlag f flagCF) flagOF
  updateFlagsPsz (setOperand S I 0 new)
  modifyFlags fun f => clearFlag f flagAF

def callAnd : Exec μ Unit := callLogic S I (· &&& ·)
def callOr : Exec μ Unit := callLogic S I (· ||| ·)

/-- `Diana_Call_xor` clears its flags before the write alone and leaves AF as it is. -/
def callXor : Exec μ Unit := do
  let (dest, destSize) ← getOperand S I 0
  let (src, srcSize) ← getOperand S I 1
  let src := signExtend src srcSize destSize
  modifyFlags fun f => clearFlag (clearFlag f flagCF) flagOF
  let new ← checkZeroExtends I (dest ^^^ src) srcSize
  updateFlagsPsz (setOperand S I 0 new)

def callNot : Exec μ Unit := do
  let (dest, _) ← getOperand S I 0
  clearUpperHalf I
  setOperand S I 0 (~~~dest)

def callTest : Exec μ Unit := do
  let (dest, _) ← getOperand S I 0
  let (src, _) ← getOperand S I 1
  modifyFlags fun f => clearFlag (clearFlag f flagCF) flagOF
  modify fun s => s.updatePSZ (dest &&& src) I.firstSize
  modifyFlags fun f => clearFlag f flagAF

/-! ## Shifts and rotates -/

/-- The skeleton of the shifts and rotates: a count of 0 writes the destination back, any other
count runs `body`; the shifts update PF, SF and ZF, the rotates do not (`psz`). -/
def callShift (count : Proc μ → Value → Size → Value) (body : ShiftBody) (psz : Bool) :
    Exec μ Unit := do
  let (src, srcSize) ← getOperand S I 1
  let (dest, destSize) ← getOperand S I 0
  let s ← get
  let n := count s src destSize
  if n = 0 then
    let dest ← checkZeroExtends I dest srcSize
    setOperand S I 0 dest
  else
    let (f, d) := body s.flags dest n destSize
    modifyFlags fun _ => f
    let d ← checkZeroExtends I d srcSize
    if psz then updateFlagsPsz (setOperand S I 0 d) else setOperand S I 0 d

def shiftCountOf (s : Proc μ) (src : Value) (_ : Size) : Value :=
  shiftCount s.mode.amd64 I.rexW src

def rotateCountOf (_ : Proc μ) (src : Value) (size : Size) : Value := rotateCount size src

def callShl : Exec μ Unit := callShift S I (shiftCountOf I) shlBody true
def callShr : Exec μ Unit := callShift S I (shiftCountOf I) shrBody true
def callSar : Exec μ Unit := callShift S I (shiftCountOf I) sarBody true
def callRol : Exec μ Unit := callShift S I (shiftCountOf I) rolBody false
def callRor : Exec μ Unit := callShift S I (shiftCountOf I) rorBody false
def callRcl : Exec μ Unit := callShift S I rotateCountOf rclBody false
def callRcr : Exec μ Unit := callShift S I rotateCountOf rcrBody false

/-- The source of turn `i` of `Diana_Call_shld`: a 16-bit shift past 16 goes on with the
destination, which is read again. -/
def shldSource (size : Size) (i : Nat) (src : Value) : Exec μ Value :=
  if size = .word ∧ 0 < i ∧ i % 16 = 0 then do
    let (v, _) ← getOperand S I 0
    pure v
  else pure src

/-- The loop of `Diana_Call_shld` from turn `i` on, `n` turns to go. -/
def shldLoop (size : Size) : (n i : Nat) → (dest src : Value) → Exec μ Value
  | 0, _, dest, _ => pure dest
  | n + 1, i, dest, src => do
    let src ← shldSource S I size i src
    let s ← get
    let (f, d, r) := shldTurn size s.flags dest src
    modifyFlags fun _ => f
    shldLoop size n (i + 1) d r

def callShld : Exec μ Unit := do
  let (src2, _) ← getOperand S I 2
  let (src1, size1) ← getOperand S I 1
  let (dest, destSize) ← getOperand S I 0
  let s ← get
  let n := shiftCount s.mode.amd64 I.rexW src2
  if n = 0 then
    let dest ← checkZeroExtends I dest size1
    setOperand S I 0 dest
  else
    modifyFlags fun f => clearFlag f flagOF
    let d ← shldLoop S I destSize n.toNat 0 dest src1
    modifyFlags fun f =>
      setOFOnce n f (signMask destSize &&& d != signMask destSize &&& dest)
    let d ← checkZeroExtends I d size1
    updateFlagsPsz (setOperand S I 0 d)

def callShrd : Exec μ Unit := do
  let (src2, _) ← getOperand S I 2
  let (src1, size1) ← getOperand S I 1
  let (dest, destSize) ← getOperand S I 0
  let s ← get
  let n := shiftCount s.mode.amd64 I.rexW src2
  if n = 0 then
    let dest ← checkZeroExtends I dest size1
    setOperand S I 0 dest
  else
    modifyFlags fun f => clearFlag (clearFlag f flagOF) flagCF
    let (d, lastBit) := shrdLoop destSize n.toNat dest src1 0
    modifyFlags fun f => setIf f flagCF (lastBit != 0)
    modifyFlags fun f =>
      setOFOnce n f (signMask destSize &&& d != signMask destSize &&& dest)
    let d ← checkZeroExtends I d size1
    updateFlagsPsz (setOperand S I 0 d)

/-! ## Bit strings -/

/-- The bit offset of a bit string, by operand size. -/
def bitOffset (v : Value) (size : Size) : Int :=
  match size with
  | .word => (v.setWidth 16).toInt
  | .dword => (v.setWidth 32).toInt
  | _ => v.toInt

/-- A signed 64-bit variable after it was assigned `v`. -/
def wrapSigned (v : Int) : Int := (BitVec.ofInt 64 v).toInt

/-- `Di_BitStringAddress`: the part of the bit string that holds the bit, as an instruction whose
memory operand is displaced by it. The offset is rounded down in a signed 64-bit variable. -/
def bitStringAddress (s : Proc μ) (I : Insn) : Insn :=
  match I.operands with
  | [⟨.index x, size0, asize0⟩, ⟨.register r, size1, asize1⟩] =>
    let bits : Int := I.opsize.bytes * 8
    let offset := bitOffset (s.getValue r) I.opsize
    let offset := if offset < 0 then wrapSigned (offset - (bits - 1)) else offset
    let disp := BitVec.ofInt 64 (offset.tdiv bits * I.opsize.bytes)
    { I with operands :=
        [⟨.index { x with dispValue := x.dispValue + disp }, size0, asize0⟩,
          ⟨.register r, size1, asize1⟩] }
  | _ => I

/-- `DianaProcessor_GetSignMaskSpecifyBit` -/
def signMaskSpecifyBit (bit : Value) : Value :=
  ((0x80 : Value) <<< (8 * (bit.toNat / 8))) >>> (7 - bit.toNat % 8)

/-- The number of the bit in an operand, `none` for 8-bit operands. -/
def bitIndex (opsize : Size) (src : Value) : Option Value :=
  match opsize with
  | .word => some (src % 16)
  | .dword => some (src % 32)
  | .qword => some (src % 64)
  | .byte => none

/-- `Diana_Call_btc`, `Diana_Call_btr` and `Diana_Call_bts` on the part of the bit string they work
on; `op` is what they do to the operand `dest` and the bit's mask. -/
def bitOp (op : Value → Value → Value) : Exec μ Unit := do
  let (dest, _) ← getOperand S I 0
  let (src, srcSize) ← getOperand S I 1
  modifyFlags fun f => clearFlag f flagCF
  match bitIndex I.opsize src with
  | none => throw (.command .error)
  | some b => do
    let mask := signMaskSpecifyBit b
    modifyFlags fun f => setIf f flagCF (hasBit dest mask)
    let dest ← checkZeroExtends I (op dest mask) srcSize
    setOperand S I 0 dest

def callBitOp (op : Value → Value → Value) : Exec μ Unit := do
  let s ← get
  bitOp S (bitStringAddress s I) op

def callBtc : Exec μ Unit :=
  callBitOp S I fun dest mask => if hasBit dest mask then dest &&& ~~~mask else dest ||| mask

def callBtr : Exec μ Unit :=
  callBitOp S I fun dest mask => if hasBit dest mask then dest &&& ~~~mask else dest

def callBts : Exec μ Unit :=
  callBitOp S I fun dest mask => if hasBit dest mask then dest else dest ||| mask

def callBt : Exec μ Unit := do
  let s ← get
  let J := bitStringAddress s I
  let (dest, _) ← getOperand S J 0
  let (src, _) ← getOperand S J 1
  modifyFlags fun f => clearFlag f flagCF
  match bitIndex I.opsize src with
  | none => throw (.command .error)
  | some b => modifyFlags fun f => setIf f flagCF (hasBit dest (signMaskSpecifyBit b))

/-! ## Moves and exchanges -/

def callMov : Exec μ Unit := do
  let _ ← getOperandSize I 0
  let (src, srcSize) ← getOperand S I 1
  let dest ← checkZeroExtends I src srcSize
  setOperand S I 0 dest

def callMovzx : Exec μ Unit := do
  let _ ← getOperand S I 0
  let (src, srcSize) ← getOperand S I 1
  let dest ← checkZeroExtends I src srcSize
  setOperand S I 0 dest

def callMovsx : Exec μ Unit := do
  let (_, destSize) ← getOperand S I 0
  let (src, srcSize) ← getOperand S I 1
  setOperand S I 0 (signExtend src srcSize destSize)

def callMovsxd : Exec μ Unit := do
  let (dest, destSize) ← getOperand S I 0
  let (src, srcSize) ← getOperand S I 1
  let src := signExtend src srcSize destSize
  let dest := if I.opsize = .word then (dest &&& ~~~0xFFFF#64) ||| (src &&& 0xFFFF) else src
  clearUpperHalf I
  setOperand S I 0 dest

def callXchg : Exec μ Unit := do
  let (dest, destSize) ← getOperand S I 0
  let (src, srcSize) ← getOperand S I 1
  let newDest ← checkZeroExtends I src srcSize
  let newSrc ← checkZeroExtends2 I dest destSize
  setOperand S I 0 newDest
  setOperand S I 1 newSrc

def callXadd : Exec μ Unit := do
  let (dest, destSize) ← getOperand S I 0
  let (src, srcSize) ← getOperand S I 1
  modifyFlags clearCOA
  let newDest ← checkZeroExtends I (dest + src) srcSize
  let newSrc ← checkZeroExtends2 I dest destSize
  modifyFlags fun f => setCOA_Add .coa f dest newDest src destSize
  setOperand S I 1 newSrc
  updateFlagsPsz (setOperand S I 0 newDest)

/-- `DianaProcessor_QueryRaxRegister` -/
def queryRaxRegister : Size → Register
  | .qword => .r64 0
  | .dword => .r32 0
  | .word => .r16 0
  | .byte => .r8 0

def callCmpxchg : Exec μ Unit := do
  let (dest, destSize) ← getOperand S I 0
  let (src, srcSize) ← getOperand S I 1
  let usedReg := queryRaxRegister srcSize
  let s ← get
  let saved := s.getValue usedReg
  modifyFlags clearCOA
  let new := saved - dest
  modifyFlags fun f => setCOA_Sub .coa f saved new dest destSize
  modify fun s => s.updatePSZ new destSize
  if saved = dest then
    let dest ← checkZeroExtends I src srcSize
    setOperand S I 0 dest
    modifyFlags fun f => setFlag f flagZF
  else
    modify fun s => s.setValue usedReg dest
    modifyFlags fun f => clearFlag f flagZF

/-- The one memory operand of `cmpxchg8b` and `cmpxchg16b`. -/
def Insn.soleIndex (I : Insn) : Option RmIndex :=
  match I.operands with
  | [⟨.index x, _, _⟩] => some x
  | _ => none

def callCmpxchg8bImpl : Exec μ Unit := do
  match I.soleIndex with
  | none => throw (.command .error)
  | some x => do
    let (selector, address) ← calcIndexM I x
    let mem ← getMemValue S selector address .qword x.segReg
    let s ← get
    if cutValue mem .dword ≠ s.getValue (.r32 0) ∨ mem >>> 32 ≠ s.getValue (.r32 2) then
      modifyFlags fun f => clearFlag f flagZF
      setRegs [(.r32 2, mem >>> 32), (.r32 0, cutValue mem .dword)]
    else
      modifyFlags fun f => setFlag f flagZF
      let mem := s.getValue (.r32 1) <<< 32 ||| s.getValue (.r32 3)
      setMemValue S selector address .qword mem x.segReg

def callCmpxchg16bImpl : Exec μ Unit := do
  match I.soleIndex with
  | none => throw (.command .error)
  | some x => do
    let (selector, address) ← calcIndexM I x
    let low ← getMemValue S selector address .qword x.segReg
    let high ← getMemValue S selector (address + 8) .qword x.segReg
    let s ← get
    if low ≠ s.getValue (.r64 0) ∨ high ≠ s.getValue (.r64 2) then
      modifyFlags fun f => clearFlag f flagZF
      setRegs [(.r64 2, high), (.r64 0, low)]
    else
      modifyFlags fun f => setFlag f flagZF
      setMemValue S selector address .qword (s.getValue (.r64 3)) x.segReg
      setMemValue S selector (address + 8) .qword (s.getValue (.r64 1)) x.segReg

def callCmpxchg16b : Exec μ Unit :=
  if I.opsize ≠ .qword then callCmpxchg8bImpl S I else callCmpxchg16bImpl S I

/-! ## The stack -/

/-- `GET_REG_RSP2` at the address size. -/
def Proc.stackPointer (s : Proc μ) (I : Insn) : Value := s.getValueEx .rsp I.addressSize

/-- `SET_REG_RSP2` at the address size. -/
def setStackPointer (v : Value) : Exec μ Unit :=
  modify fun s => s.setValueEx (some .rsp) .rsp v I.addressSize

def Insn.opBytes (I : Insn) : Value := BitVec.ofNat 64 I.opsize.bytes

/-- `diana_internal_push` -/
def internalPush (v : Value) : Exec μ Unit := do
  let s ← get
  let rsp := s.stackPointer I
  if rsp < I.opBytes then throw (.command .error)
  setMemValue S (s.getValue (.seg .ss)) (rsp - I.opBytes) I.opsize v .ss
  setStackPointer I (rsp - I.opBytes)

/-- `diana_internal_pop` -/
def internalPop : Exec μ Value := do
  let s ← get
  let rsp := s.stackPointer I
  let v ← getMemValue S (s.getValue (.seg .ss)) rsp I.opsize .ss
  setStackPointer I (rsp + I.opBytes)
  return v

def callPush : Exec μ Unit := do
  let (src, srcSize) ← getOperand S I 0
  if I.pushSeg then
    let s ← get
    let rsp := s.stackPointer I
    if rsp < I.opBytes then throw (.command .error)
    setMemValue S (s.getValue (.seg .ss)) (rsp - I.opBytes) .word src .ss
    setStackPointer I (rsp - I.opBytes)
  else
    let src := if I.firstSize = .byte then signExtend src .byte I.opsize else src
    let src := if I.opsize = .qword ∧ I.signExtends then signExtend src srcSize .qword else src
    internalPush S I src

def callPushf : Exec μ Unit := do
  let s ← get
  let rsp := s.getValue .rsp
  if rsp < I.opBytes then throw (.command .error)
  setMemValue S (s.getValue (.seg .ss)) (rsp - I.opBytes) I.opsize s.flags .ss
  modify fun s => s.setValue .rsp (rsp - I.opBytes)

def callPop : Exec μ Unit := do
  let _ ← getOperand S I 0
  let dest ← internalPop S I
  setOperand S I 0 dest

/-- The registers `popa` loads, in its order; the stack pointer is skipped. -/
def popaRegs (r : Fin 16 → Register) : List (Option Register) :=
  [some (r 7), some (r 6), some (r 5), none, some (r 3), some (r 2), some (r 1), some (r 0)]

def popaLoop : List (Option Register) → Exec μ Unit
  | [] => pure ()
  | r :: rs => do
    let dest ← internalPop S I
    match r with
    | some r => modify fun s => s.setValue r dest
    | none => pure ()
    popaLoop rs

def callPopa : Exec μ Unit :=
  match I.opsize with
  | .qword => throw (.command .unsupportedCommand)
  | .dword => popaLoop S I (popaRegs .r32)
  | .word => popaLoop S I (popaRegs .r16)
  | .byte => throw (.command .error)

/-- The registers `pusha` stores, in its order; `none` is the stack pointer it started with. -/
def pushaRegs (r : Fin 16 → Register) : List (Option Register) :=
  [some (r 0), some (r 1), some (r 2), some (r 3), none, some (r 5), some (r 6), some (r 7)]

def pushaLoop (sp : Value) : List (Option Register) → Exec μ Unit
  | [] => pure ()
  | r :: rs => do
    let s ← get
    internalPush S I (match r with | some r => s.getValue r | none => sp)
    pushaLoop sp rs

def callPusha : Exec μ Unit := do
  let s ← get
  match I.opsize with
  | .qword => throw (.command .unsupportedCommand)
  | .dword => pushaLoop S I (s.getValue (.r32 4)) (pushaRegs .r32)
  | .word => pushaLoop S I (s.getValue (.r16 4)) (pushaRegs .r16)
  | .byte => throw (.command .error)

/-- `Diana_Call_popf`. In 64-bit mode the stack is read straight into the flags, which
`DianaProcessor_GetMemValue` zeroes before it reads. -/
def callPopf : Exec μ Unit := do
  let s ← get
  if s.mode.amd64 then
    let rsp := s.stackPointer I
    let (v, failure) := s.readMem S (s.getValue (.seg .ss)) rsp I.opsize .ss
    modifyFlags fun _ => v
    match failure with
    | some e => throw (.memory e)
    | none => pure ()
    setStackPointer I (rsp + I.opBytes)
    modifyFlags Proc.resetDefaultFlags
  else
    match I.opsize with
    | .dword => do
      let dest ← internalPop S I
      modifyFlags fun f => Proc.resetDefaultFlags (setField f 0 32 (dest.setWidth 32))
    | .word => do
      let dest ← internalPop S I
      modifyFlags fun f => Proc.resetDefaultFlags (setField f 0 16 (dest.setWidth 16))
    | _ => throw (.command .error)

/-- The frame pointers `enter` copies, from address `tmp` down. -/
def enterLoop (selector : Value) : (n : Nat) → (tmp : Value) → Exec μ Unit
  | 0, _ => pure ()
  | n + 1, tmp => do
    let value ← getMemValue S selector tmp I.opsize .ss
    internalPush S I value
    enterLoop selector n (tmp - I.opBytes)

/-- `Diana_Call_enter` after the operands, at the operand size it settles on. -/
def enterImpl (op1 op2 : Value) : Exec μ Unit := do
  let s ← get
  let rbp := s.getValueEx .rbp I.opsize
  internalPush S I rbp
  let s ← get
  let tempRBP := s.getValueEx .rsp I.opsize
  let level := op2 &&& 0x1F
  if 0 < level then
    enterLoop S I (s.getValue (.seg .ss)) (level.toNat - 1) (rbp - I.opBytes)
    internalPush S I tempRBP
  modify fun s => s.setValueEx (some .rbp) .rbp tempRBP I.opsize
  modify fun s => s.setValueEx (some .rsp) .rsp (s.getValueEx .rsp I.opsize - op1) I.opsize

def callEnter : Exec μ Unit := do
  let (op1, _) ← getOperand S I 0
  let (op2, _) ← getOperand S I 1
  let s ← get
  enterImpl S (if s.mode.amd64 then { I with opsize := .qword } else I) op1 op2

def callLeave : Exec μ Unit := do
  modify fun s => s.setValueEx (some .rsp) .rsp (s.getValue .rbp) I.addressSize
  let value ← internalPop S I
  modify fun s => s.setValueEx (some .rbp) .rbp value I.opsize

/-! ## Calls and returns -/

/-- Where a call goes: the new RIP and, for a far call, the new code segment. -/
def callTarget : Exec μ (Value × Option Value) := do
  let s ← get
  match I.operands with
  | [op] =>
    match op.value with
    | .rel v => pure (s.getValue .rip + v + BitVec.ofNat 64 I.fullCmdSize, none)
    | .index _ => do
      let (v, _) ← getOperand S I 0
      pure (v, none)
    | .register _ => do
      let (v, _) ← getOperand S I 0
      pure (v, none)
    | .memory x => do
      let (selector, address) ← calcIndexM I x
      let segment ← getMemValue S selector address .word x.segReg
      let rip ← getMemValue S selector (address + 2) op.usedAddressSize x.segReg
      pure (rip, some segment)
    | .callPtr segment address => pure (address, some segment)
    | _ => throw (.command .error)
  | _ => throw (.command .error)

/-- A far call pushes CS, in 16-bit mode only. The result is the stack pointer to go on with. -/
def pushCS (far : Bool) (rsp : Value) : Exec μ Value := do
  let s ← get
  if far ∧ s.mode.opsize = .word then
    setMemValue S (s.getValue (.seg .ss)) (rsp - I.opBytes) I.opsize (s.getValue (.seg .cs)) .ss
    return rsp - I.opBytes
  else return rsp

def callCall : Exec μ Unit := do
  let s ← get
  let (newRIP, newSegment) ← callTarget S I
  let rsp ← pushCS S I newSegment.isSome (s.getValue .rsp)
  let retRIP := s.getValue .rip + BitVec.ofNat 64 I.fullCmdSize
  setMemValue S (s.getValue (.seg .ss)) (rsp - I.opBytes) I.opsize retRIP .ss
  modify fun s => { s with lastCallRIP := newRIP, lastCallRSP := rsp - I.opBytes }
  setRegs [(.rsp, rsp - I.opBytes), (.rip, newRIP)]
  match newSegment with
  | some v => setRegs [(.seg .cs, v)]
  | none => pure ()

/-- The bytes a return drops from the stack. -/
def retDropBytes : Exec μ Value :=
  match I.operands with
  | [] => pure 0
  | [op] => do
    let _ ← getOperand S I 0
    match op.value with
    | .imm v => pure v
    | _ => throw (.command .error)
  | _ => throw (.command .error)

/-- `Diana_Call_internal_ret` -/
def internalRet (popCS : Bool) : Exec μ Unit := do
  let dropBytes ← retDropBytes S I
  let s ← get
  let rsp := s.getValue .rsp
  let newRIP ← getMemValue S (s.getValue (.seg .ss)) rsp I.opsize .ss
  let rsp := rsp + I.opBytes
  if popCS then
    let newCS ← getMemValue S (s.getValue (.seg .ss)) rsp I.opsize .ss
    setRegs [(.rsp, rsp + I.opBytes + dropBytes), (.rip, newRIP), (.seg .cs, newCS)]
  else
    setRegs [(.rsp, rsp + dropBytes), (.rip, newRIP)]

def callRet : Exec μ Unit := internalRet S I false
def callRetf : Exec μ Unit := internalRet S I true

/-! ## Dispatch -/

/-- `DIANA_QUERY_PROCESSOR_TAG` of the general-purpose set. -/
def callGeneral : General → Exec μ Unit
  | .adc => callAdc S I
  | .add => callAdd S I
  | .sub => callSub S I
  | .sbb => callSbb S I
  | .cmp => callCmp S I
  | .inc => callInc S I
  | .dec => callDec S I
  | .neg => callNeg S I
  | .mul => callMul S I
  | .imul => callImul S I
  | .div => callDiv S I
  | .idiv => callIdiv S I
  | .and => callAnd S I
  | .or => callOr S I
  | .xor => callXor S I
  | .not => callNot S I
  | .test => callTest S I
  | .shl => callShl S I
  | .shr => callShr S I
  | .sar => callSar S I
  | .rol => callRol S I
  | .ror => callRor S I
  | .rcl => callRcl S I
  | .rcr => callRcr S I
  | .shld => callShld S I
  | .shrd => callShrd S I
  | .bt => callBt S I
  | .btc => callBtc S I
  | .btr => callBtr S I
  | .bts => callBts S I
  | .mov => callMov S I
  | .movzx => callMovzx S I
  | .movsx => callMovsx S I
  | .movsxd => callMovsxd S I
  | .xchg => callXchg S I
  | .xadd => callXadd S I
  | .cmpxchg => callCmpxchg S I
  | .cmpxchg16b => callCmpxchg16b S I
  | .push => callPush S I
  | .pop => callPop S I
  | .pusha => callPusha S I
  | .popa => callPopa S I
  | .pushf => callPushf S I
  | .popf => callPopf S I
  | .enter => callEnter S I
  | .leave => callLeave S I
  | .call => callCall S I
  | .ret => callRet S I
  | .retf => callRetf S I

end Diana.Processor
