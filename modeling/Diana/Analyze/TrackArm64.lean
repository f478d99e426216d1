import Mathlib.Logic.Function.Basic
import Diana.Analyze.X86
import Diana.Lib.Check
import Diana.Lib.LittleEndian
import Mathlib.Algebra.GroupWithZero.Nat

/-!
# The registers of A64 code

`TrackArm64`: along one route, the analysis of A64 code knows the values of some registers
(addresses), the register that was compared, the register that is bounded, and the register that
holds an entry of a jump table.

* `Tracking`: what is known;
* `trackArm64`: what an instruction does to it, and the references the instruction makes;
* `saveArm64JumpTable`, `indirectJump`: the routes of `br`;
* `trackArm64_cases`: everything a step can do.
-/

namespace Diana.Analyze.Arm64

open Diana.Lib

abbrev Byte := BitVec 8

/-- `OPERAND_SIZE` -/
abbrev Value := BitVec 64

/-- X0..X30 -/
abbrev Reg := Fin 31

scoped instance neZero_reg : NeZero 31 := ⟨by decide⟩

/-! ## Decoded instructions -/

/-- `DianaUnifiedRegister`, as far as A64 code is analysed. -/
inductive Register where
  | x (n : Reg)
  | w (n : Reg)
  | xzr
  | wzr
  | sp
  | wsp
  | pc
  /-- A SIMD, SVE or SME register of some size. -/
  | other (size : Nat)
  deriving DecidableEq, Repr

/-- `GetArm64RegisterIndex` -/
def Register.index? : Register → Option Reg
  | .x n | .w n => some n
  | _ => none

/-- `usedSize` of an operand that is the register. -/
def Register.usedSize : Register → Nat
  | .x _ | .xzr | .sp | .pc => 8
  | .w _ | .wzr | .wsp => 4
  | .other size => size

/-- The commands the analysis tells apart. -/
inductive CmdId where
  | subs | adds | ands | bics | adcs | sbcs | ccmp | ccmn | fcmp | fcmpe | fccmp | fccmpe | rmif
      | setf8 | setf16
  | cfinv | axflag | xaflag | msr
  | adr | adrp | add | orr | ldr | ldrb | ldrh | ldrsb | ldrsh | ldrsw | bCond
  /-- A valid word the decoder does not know. -/
  | instUnsupported
  | other
  deriving DecidableEq, Repr

/-- `DianaRmIndex`: a memory operand. -/
structure RmIndex where
  reg : Register
  indexedReg : Register
  dispValue : Value
  deriving DecidableEq, Repr

/-- The type of an operand and its value. -/
inductive OperandType where
  | register (recognizedRegister : Register)
  /-- `diana_arm_shifted_reg` -/
  | shiftedReg (recognizedRegister : Register)
  | imm (value : Value)
  /-- `diana_rel`, relative to the next instruction -/
  | rel (value : Value)
  | index (rmIndex : RmIndex)
  /-- `diana_arm_special` -/
  | special (imm : Value)
  | other
  deriving DecidableEq, Repr

/-- `DIANA_A64_OPK_...` -/
inductive OpKind where
  | memUoff
  | memRegoff
  | other
  deriving DecidableEq, Repr

/-- `DianaLinkedOperand` with its `DianaArmOperandExt`. -/
structure LinkedOperand where
  type : OperandType
  opKind : OpKind := .other
  shiftType : Nat := 0
  shiftAmount : Nat := 0
  hasAmount : Bool := false
  writeback : Bool := false
  cond : Nat := 0
  deriving DecidableEq, Repr

def DIANA_ARM_SHIFT_LSL : Nat := 1
def DIANA_ARM_EXTEND_UXTB : Nat := 8
def DIANA_ARM_EXTEND_UXTH : Nat := 9
def DIANA_ARM_EXTEND_UXTW : Nat := 10
def DIANA_ARM_EXTEND_UXTX : Nat := 11
def DIANA_ARM_EXTEND_SXTB : Nat := 12
def DIANA_ARM_EXTEND_SXTH : Nat := 13
def DIANA_ARM_EXTEND_SXTW : Nat := 14
def DIANA_ARM_EXTEND_SXTX : Nat := 15

/-- The register of an operand that has one. -/
def LinkedOperand.recognizedRegister (op : LinkedOperand) : Register :=
  match op.type with
  | .register r | .shiftedReg r => r
  | _ => .other 0

def LinkedOperand.usedSize (op : LinkedOperand) : Nat := op.recognizedRegister.usedSize

/-- `Diana_LinkedAdditionalGroupInfo` -/
structure LinkedInfo where
  /-- `DIANA_GT_IS_CALL` -/
  isCall : Bool
  deriving DecidableEq, Repr

/-- `DianaParserResult` -/
structure ParserResult where
  id : CmdId
  linkedOperands : List LinkedOperand
  linkedInfo : Option LinkedInfo := none
  deriving DecidableEq, Repr

/-- `DI_INSTRUCTION_UNSUPPORTED`, as `CheckArm64Word` sets it. -/
def ParserResult.unsupported (r : ParserResult) : Bool := r.id = .instUnsupported

def ParserResult.isCall (r : ParserResult) : Bool := r.linkedInfo.any (·.isCall)

/-! ## The outside -/

/-- The observer, its stream, and the parameters of the analysis. -/
structure Env where
  /-- `m_pAnalyzeAddress` of an address that is absolute, or an offset -/
  analyzeAddress : Value → Bool → Except Status (Value × AddressResult)
  /-- `pRandomRead` -/
  randomRead : Value → Nat → Except Status (List Byte)
  imageBase : Value
  /-- `DIANA_ANALYZE_IMAGE_BASE_UNKNOWN` -/
  imageBaseUnknown : Bool
  /-- `DIANA_ANALYZE_ADDRESSES_RELATIVE` -/
  addressesRelative : Bool

/-- `GetArm64ModuleAddress`: the address of an offset, and whether it is one that is relative. -/
def getArm64ModuleAddress (E : Env) (offset : Value) : Value × Bool :=
  if E.addressesRelative then (offset, true) else (E.imageBase + offset, false)

/-- What both reads of the module begin with. -/
def readModule (E : Env) (address : Value) (relative : Bool) (size : Nat) : Option (List Byte) :=
  match E.analyzeAddress address !relative with
  | .ok (offset, .normal) =>
    match E.randomRead offset size with
    | .ok bytes => if bytes.length = size then some bytes else none
    | .error _ => none
  | _ => none

/-- `ReadArm64Pointer` -/
def readArm64Pointer (E : Env) (address : Value) (relative : Bool) : Option Value :=
  (readModule E address relative 8).map fun bytes => BitVec.ofNat 64 (leNat bytes)

/-- The sign extension of an entry. -/
def extendEntry (size : Nat) (signed : Bool) (value : Value) : Value :=
  if signed = true ∧ size < 8 ∧ value.getLsbD (size * 8 - 1) = true then
    value ||| (BitVec.allOnes 64 <<< (size * 8))
  else value

/-- `ReadArm64Entry` -/
def readArm64Entry (E : Env) (address : Value) (relative : Bool) (size : Nat) (signed : Bool) :
    Option Value :=
  (readModule E address relative size).map fun bytes =>
    extendEntry size signed (BitVec.ofNat 64 (leNat bytes))

/-- `ExtendArm64` -/
def extendArm64 (value : Value) (extend : Nat) : Value :=
  if extend = DIANA_ARM_EXTEND_UXTB then value &&& 0xFF
  else if extend = DIANA_ARM_EXTEND_UXTH then value &&& 0xFFFF
  else if extend = DIANA_ARM_EXTEND_UXTW then value &&& 0xFFFFFFFF
  else if extend = DIANA_ARM_EXTEND_SXTB then (value.setWidth 8).signExtend 64
  else if extend = DIANA_ARM_EXTEND_SXTH then (value.setWidth 16).signExtend 64
  else if extend = DIANA_ARM_EXTEND_SXTW then (value.setWidth 32).signExtend 64
  else value

/-- An offset where an instruction can start. -/
def alignedOffset (E : Env) (offset : Value) : Bool := (E.imageBase + offset) &&& 3 = 0

/-- `SaveDataAccess` -/
def saveDataAccess (E : Env) (address : Value) (absolute : Bool) : Except Status (List Action) := do
  match ← E.analyzeAddress address absolute with
  | (offset, .normal) => .ok [.dropPending offset.toNat, .saveDataXRef offset.toNat false]
  | (offset, .external) => .ok [.saveNewExternalRoute offset.toNat true { data := true }]
  | (_, .invalid) => .ok []

/-- `SaveArm64AddressTaken` -/
def saveArm64AddressTaken (E : Env) (address : Value) (relative : Bool) :
    Except Status (List Action) := do
  match ← E.analyzeAddress address !relative with
  | (offset, .normal) => .ok [.saveNewRoute offset.toNat (alignedOffset E offset) true true]
  | _ => .ok []

/-! ## What is known -/

/-- The `arm...` fields of `DianaAnalyzeSession`. -/
structure Tracking where
  regs : Reg → Value
  known : Reg → Bool
  relative : Reg → Bool
  cmpReg : Option Reg
  cmpImm : Value
  boundReg : Option Reg
  boundCount : Value
  tableReg : Option Reg
  tableStage : Nat
  tableAddress : Value
  tableAddressRelative : Bool
  tableEntrySize : Nat
  tableSigned : Bool
  tableCount : Value
  tableBase : Value
  tableBaseRelative : Bool
  tableExtend : Nat
  tableShift : Nat

namespace Tracking

/-- `ResetArm64State` with the bound of the route. -/
def reset (s : Tracking) (boundReg : Option Reg) (boundCount : Value) : Tracking :=
  { s with
    known := fun _ => false, cmpReg := none, tableReg := none, boundReg := boundReg, boundCount :=
    boundCount }

/-- The value of a register, with whether it is relative. -/
def valueOf (s : Tracking) (r : Register) : Option (Value × Bool) :=
  match r.index? with
  | some n => if s.known n then some (s.regs n, s.relative n) else none
  | none => none

/-- `GetArm64Value` -/
def getArm64Value (s : Tracking) (op : LinkedOperand) : Option (Value × Bool) :=
  match op.type with
  | .register r => if r.usedSize = 8 then s.valueOf r else none
  | _ => none

/-- `ForgetArm64Registers` -/
def forgetArm64Registers (s : Tracking) (mask : Reg → Bool) : Tracking :=
  { s with
    known := fun n => s.known n && !mask n
    cmpReg := s.cmpReg.filter fun n => !mask n
    boundCount := if s.boundReg.any mask then 0 else s.boundCount
    tableReg := s.tableReg.filter fun n => !mask n }

/-- `SetArm64Value` -/
def setArm64Value (s : Tracking) (r : Register) (value : Value) (relative : Bool) : Tracking :=
  match r.index? with
  | none => s
  | some n =>
    let t := s.forgetArm64Registers (· = n)
    { t with
      regs := Function.update t.regs n value
      known := Function.update t.known n true
      relative := Function.update t.relative n relative }

/-- `DropArm64Register` -/
def dropArm64Register (s : Tracking) (r : Register) : Tracking :=
  match r.index? with
  | none => s
  | some n => s.forgetArm64Registers (· = n)

/-- `GetArmCompareBound`: the bound of the compared register where the condition holds,
or where it does not. -/
def getArmCompareBound (s : Tracking) (cond : Nat) (holds : Bool) : Option Value :=
  if s.cmpReg.isNone then none
  else
    match cond, holds with
    | 9, true | 13, true | 8, false | 12, false => some (s.cmpImm + 1)
    | 3, true | 11, true | 2, false | 10, false => some s.cmpImm
    | _, _ => none

/-- `GetArm64BranchBound` -/
def getArm64BranchBound (s : Tracking) (r : ParserResult) (target : Bool) : Option Value :=
  match r.id, r.linkedOperands with
  | .bCond, _ :: op :: _ => s.getArmCompareBound op.cond target
  | _, _ => none

/-- `ChangesArm64Flags` -/
def changesArm64Flags (r : ParserResult) : Bool :=
  r.linkedInfo.isSome || r.unsupported ||
    r.id ∈ [.subs, .adds, .ands, .bics, .adcs, .sbcs, .ccmp, .ccmn, .fcmp, .fcmpe, .fccmp, .fccmpe,
      .rmif, .setf8, .setf16, .cfinv, .axflag, .xaflag, .msr]

/-- The first lines of `TrackArm64`: a bound behind a branch that was not taken, and flags that
change. -/
def compares (s : Tracking) (r : ParserResult) : Tracking :=
  let t :=
    match s.getArm64BranchBound r false with
    | some count => { s with boundReg := s.cmpReg, boundCount := count }
    | none => s
  if changesArm64Flags r then { t with cmpReg := none } else t

end Tracking

/-! ## The instructions that are followed -/

/-- `cmp Rn, #imm`: the register and the number. -/
def compared? (r : ParserResult) : Option (Reg × Value) :=
  match r.id, r.linkedOperands with
  | .subs, [d, n, i] =>
    match d.type, n.type, i.type with
    | .register dst, .register src, .imm value =>
      if (dst = .wzr ∨ dst = .xzr) ∧ i.shiftAmount = 0 then src.index?.map fun n =>
        (n, value) else none
    | _, _, _ => none
  | _, _ => none

/-- `adr Xd, label`: the register and the displacement. -/
def adr? (r : ParserResult) : Option (Register × Value) :=
  match r.id, r.linkedOperands with
  | .adr, [d, a] =>
    match a.type with
    | .rel value => some (d.recognizedRegister, value)
    | _ => none
  | _, _ => none

/-- What a load from a table leaves in the session. -/
structure TableLoad where
  index : Reg
  base : Value
  relative : Bool
  size : Nat
  signed : Bool
  deriving DecidableEq

/-- The size of the entries a load reads. -/
def loadSize (id : CmdId) (usedSize : Nat) : Option Nat :=
  match id with
  | .ldrb | .ldrsb => some 1
  | .ldrh | .ldrsh => some 2
  | .ldrsw => some 4
  | .ldr => some usedSize
  | _ => none

def isSignedLoad (id : CmdId) : Bool := id = .ldrsb ∨ id = .ldrsh ∨ id = .ldrsw

def scaleOf (size : Nat) :
    Nat := if size = 1 then 0 else if size = 2 then 1 else if size = 4 then 2 else 3

/-- The index is scaled by the size of the entries. -/
def isScaled (size : Nat) (m : LinkedOperand) : Bool :=
  if scaleOf size = 0 then m.shiftAmount = 0 else m.hasAmount && m.shiftAmount = scaleOf size

/-- `ldrb w2, [x2, w0, uxtw]`: an entry of a table at a known address, the index is bounded. -/
def tableLoad? (s : Tracking) (r : ParserResult) : Option TableLoad :=
  match r.linkedOperands with
  | [t, m] =>
    match loadSize r.id t.usedSize, m.type, t.type with
    | some size, .index rm, .register dst =>
      if m.opKind = .memRegoff ∧ s.boundCount ≠ 0 ∧ rm.indexedReg.index? = s.boundReg ∧
        isScaled size m = true then
        match dst.index?, s.valueOf rm.reg with
        | some n, some (base, relative) => some ⟨n, base, relative, size, isSignedLoad r.id⟩
        | _, _ => none
      else none
    | _, _, _ => none
  | _ => none

/-- What the addition to an entry leaves in the session. -/
structure TableAdd where
  index : Reg
  base : Value
  relative : Bool
  extend : Nat
  shift : Nat
  deriving DecidableEq

/-- `add x2, x0, w2, sxtb #2`: the target of an entry. -/
def tableAdd? (s : Tracking) (r : ParserResult) : Option TableAdd :=
  match r.id, r.linkedOperands with
  | .add, [d, n, m] =>
    match m.type, s.getArm64Value n, d.recognizedRegister.index? with
    | .shiftedReg reg, some (base, relative), some index =>
      if s.tableReg.isSome = true ∧ s.tableStage = 1 ∧ d.usedSize = 8 ∧ reg.index? = s.tableReg ∧
          (m.shiftType = DIANA_ARM_SHIFT_LSL ∨ DIANA_ARM_EXTEND_UXTB ≤ m.shiftType) then
        some ⟨index, base, relative, m.shiftType, m.shiftAmount⟩
      else none
    | _, _, _ => none
  | _, _ => none

/-- `adrp Xd, label`: the register and the page delta. -/
def adrp? (r : ParserResult) : Option (Register × Value) :=
  match r.id, r.linkedOperands with
  | .adrp, [d, a] =>
    match a.type with
    | .special imm => some (d.recognizedRegister, imm)
    | _ => none
  | _, _ => none

/-- `add Xd, Xn, #imm`: the register and its value. -/
def addImm? (s : Tracking) (r : ParserResult) : Option (Register × Value × Bool) :=
  match r.id, r.linkedOperands with
  | .add, [d, n, i] =>
    match i.type, s.getArm64Value n with
    | .imm value, some (base, relative) =>
      if d.usedSize = 8 then some (d.recognizedRegister, base + (value <<< i.shiftAmount), relative)
        else none
    | _, _ => none
  | _, _ => none

/-- `mov Xd, Xm`: both registers. -/
def mov? (r : ParserResult) : Option (Register × Register) :=
  match r.id, r.linkedOperands with
  | .orr, [d, n, m] =>
    match m.type with
    | .shiftedReg src =>
      if n.type = .register .xzr ∧ m.shiftAmount = 0 then some (d.recognizedRegister, src) else none
    | _ => none
  | _, _ => none

/-- `ldr Rt, [...]`: the target, the memory operand, and how it is encoded. -/
def ldr? (r : ParserResult) : Option (LinkedOperand × RmIndex × OpKind) :=
  match r.id, r.linkedOperands with
  | .ldr, [t, m] =>
    match m.type with
    | .index rm => some (t, rm, m.opKind)
    | _ => none
  | _, _ => none

/-- `ldr Rt, literal`: the target and the displacement. -/
def literal? (r : ParserResult) : Option (LinkedOperand × Value) :=
  match ldr? r with
  | some (t, rm, _) => if rm.reg = .pc then some (t, rm.dispValue) else none
  | none => none

/-- `ldr Rt, [Xn, #imm]` with a known register: the target and the address. -/
def offsetLoad? (s : Tracking) (r : ParserResult) : Option (LinkedOperand × Value × Bool) :=
  match ldr? r with
  | some (t, rm, .memUoff) =>
    match s.valueOf rm.reg with
    | some (base, relative) => some (t, base + rm.dispValue, relative)
    | none => none
  | _ => none

namespace Tracking

/-- An entry of a table is loaded: the bound goes to the table first, the load may
overwrite the index. -/
def beginTable (s : Tracking) (l : TableLoad) : Tracking :=
  { s.forgetArm64Registers (· = l.index) with
    tableReg := some l.index
    tableStage := 1
    tableAddress := l.base
    tableAddressRelative := l.relative
    tableEntrySize := l.size
    tableSigned := l.signed
    tableCount := s.boundCount }

/-- The base of the targets is added to an entry. -/
def addToTable (s : Tracking) (a : TableAdd) : Tracking :=
  { s.forgetArm64Registers (· = a.index) with
    tableReg := some a.index
    tableStage := 2
    tableBase := a.base
    tableBaseRelative := a.relative
    tableExtend := a.extend
    tableShift := a.shift }

/-- The registers a callee may change: x0..x18 and x30. -/
def callerSaved (n : Reg) : Bool := n.val ≤ 18 || n.val = 30

/-- What an operand makes the analysis forget. -/
def forgetOperand (s : Tracking) (op : LinkedOperand) : Tracking :=
  match op.type with
  | .register r | .shiftedReg r => s.dropArm64Register r
  | .index rm => if op.writeback then s.dropArm64Register rm.reg else s
  | _ => s

end Tracking

/-- `LoadArm64Value` -/
def loadArm64Value (E : Env) (s : Tracking) (target : LinkedOperand) (address : Value)
    (relative : Bool) : Except Status (Tracking × List Action) :=
  match target.type, readArm64Pointer E address relative with
  | .register (.x n), some value =>
    if value = 0 then .ok (s.dropArm64Register (.x n), [])
    else do
      let actions ← saveArm64AddressTaken E value false
      .ok (s.setArm64Value (.x n) value false, actions)
  | _, _ => .ok (s.dropArm64Register target.recognizedRegister, [])

/-- Loads and stores through a known base: the address is data. -/
def dataAccesses (E : Env) (s : Tracking) : List LinkedOperand → Except Status (List Action)
  | [] => .ok []
  | op :: ops =>
    match op.type with
    | .index rm =>
      match s.valueOf rm.reg with
      | some (base, relative) =>
        if op.opKind = .memUoff ∧ op.writeback = false then do
          let actions ← saveDataAccess E (base + rm.dispValue) !relative
          let rest ← dataAccesses E s ops
          .ok (actions ++ rest)
        else dataAccesses E s ops
      | none => dataAccesses E s ops
    | _ => dataAccesses E s ops

/-- What `TrackArm64` does with an instruction that is neither a call nor a table. -/
def trackValue (E : Env) (r : ParserResult) (instructionOffset nextOffset : Value) (s : Tracking) :
    Except Status (Tracking × List Action) :=
  match adrp? r with
  | some (d, imm) =>
    if E.imageBaseUnknown then .ok (s.dropArm64Register d, [])
    else
      let (base, relative) := getArm64ModuleAddress E instructionOffset
      .ok (s.setArm64Value d ((base &&& ~~~0xFFF) + imm) relative, [])
  | none =>
  match addImm? s r with
  | some (d, value, relative) => do
    let actions ← saveArm64AddressTaken E value relative
    .ok (s.setArm64Value d value relative, actions)
  | none =>
  match mov? r with
  | some (d, src) =>
    match s.getArm64Value { type := .register src } with
    | some (value, relative) => .ok (s.setArm64Value d value relative, [])
    | none => .ok (s.dropArm64Register d, [])
  | none =>
  match literal? r with
  | some (t, disp) =>
    let (base, relative) := getArm64ModuleAddress E (nextOffset + disp)
    loadArm64Value E s t base relative
  | none =>
  match offsetLoad? s r with
  | some (t, address, relative) => do
    let access ← saveDataAccess E address !relative
    let (t, taken) ← loadArm64Value E s t address relative
    .ok (t, access ++ taken)
  | none => do
    let accesses ← dataAccesses E s r.linkedOperands
    .ok (r.linkedOperands.foldl Tracking.forgetOperand s, accesses)

/-- `TrackArm64` -/
def trackArm64 (E : Env) (r : ParserResult) (instructionOffset nextOffset : Value) (s : Tracking) :
    Except Status (Tracking × List Action) :=
  let s := s.compares r
  match compared? r with
  | some (n, imm) => .ok ({ s with cmpReg := some n, cmpImm := imm }, [])
  | none =>
  match adr? r with
  | some (d, rel) =>
    let (base, relative) := getArm64ModuleAddress E (nextOffset + rel)
    .ok (s.setArm64Value d base relative, [])
  | none =>
  match tableLoad? s r with
  | some l => do
    let actions ← saveDataAccess E l.base !l.relative
    .ok (s.beginTable l, actions)
  | none =>
  match tableAdd? s r with
  | some a => .ok (s.addToTable a, [])
  | none =>
  if r.unsupported then .ok (s.forgetArm64Registers fun _ => true, [])
  else if r.isCall then .ok (s.forgetArm64Registers Tracking.callerSaved, [])
  else trackValue E r instructionOffset nextOffset s

/-! ## Branches to a register -/

/-- `GetArm64Target`: the target of `br Xn`. -/
def getArm64Target (s : Tracking) (r : ParserResult) : Option (Value × Bool) :=
  match r.linkedOperands with
  | op :: _ => s.getArm64Value op
  | [] => none

/-- `IsArm64JumpTable` -/
def isArm64JumpTable (s : Tracking) (r : ParserResult) : Bool :=
  match r.linkedOperands, s.tableReg with
  | op :: _, some n =>
    match op.type with
    | .register reg => reg.index? = some n && (s.tableStage = 2 || s.tableEntrySize = 8)
    | _ => false
  | _, _ => false

def DIANA_ARM64_MAX_JUMP_TABLE : Nat := 0x4000

/-- Where an entry leads. -/
def tableTarget (s : Tracking) (entry : Value) : Value :=
  if s.tableStage = 2 then s.tableBase + (extendArm64 entry s.tableExtend <<< s.tableShift)
    else entry

/-- The loop of `SaveArm64JumpTable` from an entry on. -/
def saveEntries (E : Env) (s : Tracking) (questionable : Bool) : (n i : Nat) → (previous : Value) →
    Except Status (List Action)
  | 0, _, _ => .ok []
  | n + 1, i, previous =>
    match readArm64Entry E (s.tableAddress + BitVec.ofNat 64 (i * s.tableEntrySize))
      s.tableAddressRelative
        s.tableEntrySize s.tableSigned with
    | none => .ok []
    | some entry =>
      let target := tableTarget s entry
      if i ≠ 0 ∧ target = previous then saveEntries E s questionable n (i + 1) previous
      else do
        let (offset, result) ← E.analyzeAddress target !(s.tableStage = 2 && s.tableBaseRelative)
        let rest ← saveEntries E s questionable n (i + 1) target
        if result = .normal then
          .ok (.saveNewRoute offset.toNat (alignedOffset E offset) questionable false :: rest)
        else .ok rest

/-- `SaveArm64JumpTable` -/
def saveArm64JumpTable (E : Env) (s : Tracking) (questionable : Bool) :
    Except Status (List Action) :=
  saveEntries E s questionable (min s.tableCount.toNat DIANA_ARM64_MAX_JUMP_TABLE) 0 0

/-- `br Xn` in `AnalyzeAndConstructInstruction`: a switch, or a register that is known. -/
def indirectJump (E : Env) (s : Tracking) (r : ParserResult) (questionable : Bool) :
    Except Status (List Action) :=
  if isArm64JumpTable s r then saveArm64JumpTable E s questionable
  else
    match getArm64Target s r with
    | none => .ok []
    | some (target, relative) => do
      match ← E.analyzeAddress target !relative with
      | (offset, .normal) =>
        .ok [.saveNewRoute offset.toNat (alignedOffset E offset) questionable false]
      | (offset, .external) => .ok [.saveNewExternalRoute offset.toNat false {}]
      | (_, .invalid) => .ok []

/-! ## What a step can do -/

section

variable (E : Env) (r : ParserResult) (instructionOffset nextOffset : Value) (s : Tracking)

/-- A load of a value: where it reads, through which register, and the accesses it reports. -/
inductive LoadsFrom : LinkedOperand → Value → Bool → List Action → Prop where
  | literal {t : LinkedOperand} {disp : Value} (h : literal? r = some (t, disp)) :
    LoadsFrom t (getArm64ModuleAddress E (nextOffset + disp)).1
    (getArm64ModuleAddress E (nextOffset + disp)).2 []
  | offset {t : LinkedOperand} {address : Value} {relative : Bool} {actions : List Action}
      (h : offsetLoad? s r = some (t, address, relative))
      (ha : saveDataAccess E address (!relative) = .ok actions) :
    LoadsFrom t address relative actions

/-- What `TrackArm64` makes of `s` once the compare is looked at, and the references it makes. -/
inductive Tracks : Tracking → List Action → Prop where
  | compare {n : Reg} {imm : Value} (h : compared? r = some (n, imm)) :
    Tracks { s with cmpReg := some n, cmpImm := imm } []
  | adr {d : Register} {rel : Value} (h : adr? r = some (d, rel)) :
    Tracks (s.setArm64Value d (getArm64ModuleAddress E (nextOffset + rel)).1
      (getArm64ModuleAddress E (nextOffset + rel)).2) []
  | tableLoad {l : TableLoad} {actions : List Action} (h : tableLoad? s r = some l)
      (ha : saveDataAccess E l.base (!l.relative) = .ok actions) : Tracks (s.beginTable l) actions
  | tableAdd {a : TableAdd} (h : tableAdd? s r = some a) : Tracks (s.addToTable a) []
  | unsupported (h : r.unsupported = true) : Tracks (s.forgetArm64Registers fun _ => true) []
  | call (h : r.isCall = true) : Tracks (s.forgetArm64Registers Tracking.callerSaved) []
  | adrpUnknown {d : Register} {imm : Value} (h : adrp? r = some (d, imm))
      (hE : E.imageBaseUnknown = true) (hr : r.isCall = false) : Tracks (s.dropArm64Register d) []
  | adrp {d : Register} {imm : Value} (h : adrp? r = some (d, imm))
      (hE : E.imageBaseUnknown = false) (hr : r.isCall = false) :
    Tracks (s.setArm64Value d (((getArm64ModuleAddress E instructionOffset).1 &&& ~~~0xFFF) + imm)
      (getArm64ModuleAddress E instructionOffset).2) []
  | addImm {d : Register} {value : Value} {relative : Bool} {actions : List Action}
      (h : addImm? s r = some (d, value, relative)) (ha : saveArm64AddressTaken E value relative =
        .ok actions)
      (hr : r.isCall = false) : Tracks (s.setArm64Value d value relative) actions
  | mov {d src : Register} {value : Value} {relative : Bool} (h : mov? r = some (d, src))
      (hv : s.getArm64Value { type := .register src } = some (value, relative))
      (hr : r.isCall = false) :
    Tracks (s.setArm64Value d value relative) []
  | movUnknown {d src : Register} (h : mov? r = some (d, src)) (hr : r.isCall = false) :
    Tracks (s.dropArm64Register d) []
  | load {t : LinkedOperand} {address : Value} {relative : Bool} {access taken : List Action}
      {s' : Tracking} (h : LoadsFrom E r nextOffset s t address relative access)
      (hl : loadArm64Value E s t address relative = .ok (s', taken)) (hr : r.isCall = false) :
    Tracks s' (access ++ taken)
  | other {actions : List Action} (ha : dataAccesses E s r.linkedOperands = .ok actions)
      (hr : r.isCall = false)
      (hu : r.unsupported = false) (hload : tableLoad? s r = none) (hadd : tableAdd? s r = none) :
    Tracks (r.linkedOperands.foldl Tracking.forgetOperand s) actions

end

variable {E : Env} {r : ParserResult} {instructionOffset nextOffset : Value} {s t : Tracking}
  {actions : List Action}

theorem trackValue_cases (h : trackValue E r instructionOffset nextOffset s = .ok (t, actions))
    (hr : r.isCall = false) (hu : r.unsupported = false) (hload : tableLoad? s r = none)
    (hadd : tableAdd? s r = none) : Tracks E r instructionOffset nextOffset s t actions := by
  unfold trackValue at h
  split at h
  · rename_i d imm hp
    split at h
    · rename_i hE
      cases h
      exact .adrpUnknown hp hE hr
    · rename_i hE
      cases h
      exact .adrp hp (by simpa using hE) hr
  split at h
  · rename_i d value relative ha
    obtain ⟨acts, hacts, heq⟩ := bind_eq_ok.1 h
    cases heq
    exact .addImm ha hacts hr
  split at h
  · rename_i d src hm
    split at h
    · rename_i value relative hv
      cases h
      exact .mov hm hv hr
    · cases h
      exact .movUnknown hm hr
  split at h
  · rename_i target disp hl
    exact @Tracks.load _ _ _ _ _ _ _ _ [] _ _ (.literal hl) h hr
  split at h
  · rename_i target address relative ho
    obtain ⟨access, hacc, h⟩ := bind_eq_ok.1 h
    obtain ⟨⟨t', taken⟩, hload, heq⟩ := bind_eq_ok.1 h
    cases heq
    exact .load (.offset ho hacc) hload hr
  · obtain ⟨acts, hacts, heq⟩ := bind_eq_ok.1 h
    cases heq
    exact .other hacts hr hu hload hadd

theorem trackArm64_cases (h : trackArm64 E r instructionOffset nextOffset s = .ok (t, actions)) :
    Tracks E r instructionOffset nextOffset (s.compares r) t actions := by
  unfold trackArm64 at h
  dsimp only at h
  split at h
  · rename_i n imm hc
    cases h
    exact .compare hc
  split at h
  · rename_i d rel ha
    cases h
    exact .adr ha
  split at h
  · rename_i l hl
    obtain ⟨acts, hacts, heq⟩ := bind_eq_ok.1 h
    cases heq
    exact .tableLoad hl hacts
  rename_i hload
  split at h
  · rename_i a ha
    cases h
    exact .tableAdd ha
  rename_i hadd
  split at h
  · rename_i hu
    cases h
    exact .unsupported hu
  split at h
  · rename_i hr
    cases h
    exact .call hr
  · rename_i hu hr
    exact trackValue_cases h (by simpa using hr) (by simpa using hu) hload hadd

end Diana.Analyze.Arm64
