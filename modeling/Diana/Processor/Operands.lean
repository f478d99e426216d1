import Diana.Processor.State

/-!
# Operands

How a command reads and writes its operands (`diana_processor_core_impl.c`).

* `MemoryStream`: the memory a processor runs on, as the embedder gives it.
* `Exec`: a command that is running. A failing call ends it and leaves behind what was changed so
  far, as `DI_CHECK` does.
* `Insn`: what the decoder leaves in `m_result` and in the context.
* `calcIndex`, `getOperand`, `setOperand`: the effective address and the access to one operand.
-/

namespace Diana.Processor

open Diana.Lib

/-! ## Memory -/

/-- `DianaRandomReadWriteStream` over a memory `μ`. A read returns the bytes it could read and a
write the number of bytes it could write; neither need be the number asked for. -/
structure MemoryStream (μ : Type) where
  read : μ → (selector offset : Value) → (size : Nat) → SegReg → Except Status (List Byte)
  write : μ → (selector offset : Value) → List Byte → SegReg → Except Status Nat × μ

/-- Why a command ended early: a memory access failed, or the command itself did. -/
inductive Fault where
  | memory (st : Status)
  | command (st : Status)
  /-- A REP loop that was not followed to its end. -/
  | unfinished
  deriving DecidableEq, Repr

def Fault.isMemory : Fault → Bool
  | memory _ => true
  | _ => false

/-- A running command. -/
abbrev Exec (μ : Type) := EStateM Fault (Proc μ)

/-- The value of little-endian bytes. -/
def leValue : List Byte → Value
  | [] => 0
  | b :: bs => b.setWidth 64 ||| (leValue bs <<< 8)

/-- The low `n` bytes of a value, little-endian. -/
def leBytes : Nat → Value → List Byte
  | 0, _ => []
  | n + 1, v => v.setWidth 8 :: leBytes n (v >>> 8)

@[simp] theorem length_leBytes (n : Nat) (v : Value) : (leBytes n v).length = n := by
  induction n generalizing v with
  | zero => rfl
  | succ n ih => rw [leBytes, List.length_cons, ih]

/-! ## Instructions -/

/-- `DianaRmIndex` -/
structure RmIndex where
  segReg : SegReg
  reg : Option Register
  indexedReg : Option Register
  index : Byte
  dispValue : Value
  deriving DecidableEq, Repr

/-- `DianaOperandValue` and its type; `other` is what no command of this development accepts. -/
inductive OperandValue where
  | register (r : Register)
  | index (x : RmIndex)
  | imm (v : Value)
  | rel (v : Value)
  | memory (x : RmIndex)
  | callPtr (segment address : Value)
  | other
  deriving DecidableEq, Repr

/-- `DianaLinkedOperand` -/
structure LinkedOperand where
  value : OperandValue
  usedSize : Size
  usedAddressSize : Size
  deriving DecidableEq, Repr

/-- The commands of the general-purpose set. -/
inductive General where
  | adc | add | sub | sbb | cmp | inc | dec | neg | mul | imul | div | idiv
  | and | or | xor | not | test
  | shl | shr | sar | rol | ror | rcl | rcr | shld | shrd
  | bt | btc | btr | bts
  | mov | movzx | movsx | movsxd | xchg | xadd | cmpxchg | cmpxchg16b
  | push | pop | pusha | popa | pushf | popf | enter | leave | call | ret | retf
  deriving DecidableEq, Repr

/-- `m_commandId`. The string commands are those a REP prefix repeats. -/
inductive Command where
  | general (c : General)
  | ins | lods | movs | outs | stos | cmps | scas
  | maskmovq
  | other (id : Nat)
  deriving DecidableEq, Repr

def Command.isString : Command → Bool
  | ins => true
  | lods => true
  | movs => true
  | outs => true
  | stos => true
  | cmps => true
  | scas => true
  | _ => false

/-- `iPrefix` -/
inductive Prefix where
  | none | rep | repn | lock
  deriving DecidableEq, Repr

/-- A decoded instruction: `m_result`, and what the decoder leaves in the context for it. -/
structure Insn where
  command : Command
  operands : List LinkedOperand
  iPrefix : Prefix
  /-- `iCurrentCmd_opsize` -/
  opsize : Size
  /-- `iCurrentCmd_addressSize` -/
  addressSize : Size
  /-- `DI_REX_HAS_FLAG_W` -/
  rexW : Bool
  /-- `iFullCmdSize` -/
  fullCmdSize : Nat
  /-- `DI_FLAG_CMD_AMD64_SIGN_EXTENDS` -/
  signExtends : Bool
  /-- `DI_FLAG_CMD_PUSH_SEG` -/
  pushSeg : Bool
  /-- `DI_FLAG_CMD_PREFIX_LOCK` -/
  lockable : Bool
  /-- `evex.isEvex` -/
  isEvex : Bool
  deriving DecidableEq, Repr

variable {μ : Type}

/-! ## Effective addresses -/

def Proc.getOptional (s : Proc μ) : Option Register → Value
  | none => 0
  | some r => s.getValue r

/-- `DianaProcessor_CalcIndex`: the selector and the address of a memory operand. -/
def Proc.calcIndex (s : Proc μ) (I : Insn) (x : RmIndex) : Except Status (Value × Value) :=
  let reg := s.getOptional x.reg
  let indexedReg := s.getOptional x.indexedReg
  let reg := if s.mode.amd64 ∧ x.reg = some .rip then reg + BitVec.ofNat 64 I.fullCmdSize else reg
  let address := reg + indexedReg * x.index.setWidth 64 + x.dispValue
  match I.addressSize with
  | .qword => .ok (s.getValue (.seg x.segReg), address)
  | .dword => .ok (s.getValue (.seg x.segReg), address &&& 0xFFFFFFFF)
  | _ => .error .error

/-! ## Memory values -/

section Stream

variable (S : MemoryStream μ)

/-- `DianaProcessor_GetMemValue`: the value left in `*pResult` and the failure, if any. -/
def Proc.readMem (s : Proc μ) (selector offset : Value) (size : Size) (seg : SegReg) :
    Value × Option Status :=
  match S.read s.mem selector offset size.bytes seg with
  | .error e => (0, some e)
  | .ok bs => (leValue bs, if bs.length = size.bytes then none else some .error)

def getMemValue (selector offset : Value) (size : Size) (seg : SegReg) : Exec μ Value := do
  let s ← get
  match s.readMem S selector offset size seg with
  | (v, none) => pure v
  | (_, some e) => throw (.memory e)

/-- `DianaProcessor_SetMemValue` -/
def setMemValue (selector offset : Value) (size : Size) (v : Value) (seg : SegReg) :
    Exec μ Unit := do
  let s ← get
  let (r, mem) := S.write s.mem selector offset (leBytes size.bytes v) seg
  set { s with mem }
  match r with
  | .error e => throw (.memory e)
  | .ok wrote => if wrote ≠ size.bytes then throw (.memory .error)

/-! ## Operands -/

/-- `DianaProcessor_CalcIndex` inside a command. -/
def calcIndexM (I : Insn) (x : RmIndex) : Exec μ (Value × Value) := do
  let s ← get
  match s.calcIndex I x with
  | .ok a => pure a
  | .error e => throw (.command e)

/-- `Diana_ProcessorSetGetOperand_register`, writing. -/
def Proc.setRegisterOperand (s : Proc μ) (r : Register) (v : Value) : Proc μ :=
  let s := s.setValue r v
  match r with
  | .r32 i =>
    if s.mode.amd64 then { s with regs := s.regs.set (.gp i) 32 32 0 } else s
  | _ => s

/-- `Diana_ProcessorSetGetOperand_index`, reading. -/
def getIndex (I : Insn) (size : Size) (x : RmIndex) : Exec μ Value := do
  let (selector, address) ← calcIndexM I x
  getMemValue S selector address size x.segReg

/-- `Diana_ProcessorSetGetOperand_index`, writing. -/
def setIndex (I : Insn) (size : Size) (x : RmIndex) (v : Value) : Exec μ Unit := do
  let (selector, address) ← calcIndexM I x
  modify fun s => if s.stateFlags.updateFlagsPsz then s.updatePSZ v size else s
  setMemValue S selector address size v x.segReg

/-- `DI_MEM_GET`: the value and the size of an operand. -/
def getOperand (I : Insn) (n : Nat) : Exec μ (Value × Size) := do
  match I.operands[n]? with
  | none => throw (.command .error)
  | some op =>
    match op.value with
    | .register r => do
      let s ← get
      pure (s.getValue r, op.usedSize)
    | .index x => do
      let v ← getIndex S I op.usedSize x
      pure (v, op.usedSize)
    | .imm v => pure (v, op.usedSize)
    | .memory x => do
      let v ← getIndex S I op.usedSize x
      pure (v, op.usedSize)
    | _ => throw (.command .error)

/-- `DI_MEM_SET` -/
def setOperand (I : Insn) (n : Nat) (v : Value) : Exec μ Unit := do
  match I.operands[n]? with
  | none => throw (.command .error)
  | some op =>
    match op.value with
    | .register r => modify fun s => s.setRegisterOperand r v
    | .index x => setIndex S I op.usedSize x v
    | .memory x => setIndex S I op.usedSize x v
    | _ => throw (.command .error)

/-- `DI_MEM_GET_DEST_SIZE` -/
def getOperandSize (I : Insn) (n : Nat) : Exec μ Size :=
  match I.operands[n]? with
  | none => throw (.command .error)
  | some op => pure op.usedSize

/-- `DI_UPDATE_FLAGS_PSZ` around a write. -/
def updateFlagsPsz (x : Exec μ Unit) : Exec μ Unit := do
  modify fun s => { s with
    stateFlags := { s.stateFlags with updateFlagsPsz := true }
    stateFlagsToRemove := { s.stateFlagsToRemove with updateFlagsPsz := true } }
  x
  modify fun s => { s with stateFlags := { s.stateFlags with updateFlagsPsz := false } }

end Stream

/-- A change of the flags. -/
def modifyFlags (f : Value → Value) : Exec μ Unit := modify fun s => { s with flags := f s.flags }

/-- `DianaProcessor_SignExtend` -/
def signExtend (v : Value) (size newSize : Size) : Value :=
  if size = newSize then v
  else cutValue ((v.setWidth (8 * size.bytes)).signExtend 64) newSize

/-- The type of an operand that is a register, of the first operand as
`m_result.linkedOperands->type` does. -/
def Insn.registerOperand (I : Insn) (n : Nat) : Option Register :=
  match I.operands[n]? with
  | some ⟨.register r, _, _⟩ => some r
  | _ => none

/-- `DianaProcessor_Query64RegisterFor32` -/
def query64RegisterFor32 : Register → Option Register
  | .r32 i => some (.r64 i)
  | _ => none

/-- `Di_CheckZeroExtends` (operand 0) and `Di_CheckZeroExtends2` (operand 1): the value to write,
after the 64-bit register of a 32-bit register operand was zeroed. -/
def checkZeroExtendsAt (I : Insn) (n : Nat) (dest : Value) (srcSize : Size) : Exec μ Value := do
  let s ← get
  if ¬ s.mode.amd64 then return dest
  if srcSize = .qword then return dest
  if I.opsize = .qword then
    return if I.signExtends then signExtend dest srcSize .qword else dest
  if I.opsize = .dword then
    match (I.registerOperand n).bind query64RegisterFor32 with
    | some r => modify fun s => s.setValue r 0
    | none => pure ()
  return dest

def checkZeroExtends (I : Insn) (dest : Value) (srcSize : Size) : Exec μ Value :=
  checkZeroExtendsAt I 0 dest srcSize

def checkZeroExtends2 (I : Insn) (dest : Value) (srcSize : Size) : Exec μ Value :=
  checkZeroExtendsAt I 1 dest srcSize

/-- `Di_ClearUpperHalf` -/
def clearUpperHalf (I : Insn) : Exec μ Unit := do
  let s ← get
  if ¬ s.mode.amd64 ∨ I.opsize ≠ .dword then return
  match (I.registerOperand 0).bind query64RegisterFor32 with
  | some r => modify fun s => s.setValue r (s.getValue r &&& 0xFFFFFFFF)
  | none => pure ()

end Diana.Processor
