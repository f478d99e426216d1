import Diana.A64.Machine

/-!
# Decoding A32 and T32

`diana_arm32.c`: the operands of an instruction from the fields of its word, by the operand
descriptors of its entry in the generated tables. The tables have some four thousand entries;
finding the entry of a word is a parameter (`Tables`), which knows the entries of the branches and
of the literal loads.

* `OperandDesc`, `CmdInfo`: the entries, as far as core registers and labels go;
* `fillOperand`, `fillResult`: the operands, `decode` the instruction;
* `branchCmds`: the entries of `b`, `bl`, `cbz` and `cbnz`.

A T32 word has the first halfword in its upper half; a 16-bit instruction leaves the lower half
zero.
-/

namespace Diana.A32

open Diana.Lib
open Diana.A64 (Word Byte)

/-- A core register; 15 is pc. -/
abbrev Reg := BitVec 4

def pc : Reg := 15

/-! ## Entries of the tables -/

/-- `DIANA_A32_OPK_...`: the kinds with core registers or a label. The others (immediates, special
operands, VFP and SIMD registers) are `plain`. -/
inductive OperandKind where
  | reg
  | shreg
  | shregReg
  | label
  | memImm
  | memReg
  | reglist
  | vmem
  | plain
  deriving DecidableEq, Repr

/-- `DIANA_A32_OPF_...`: the flags that change the kept part of an operand. -/
structure OperandFlags where
  writebackField : Bool := false
  writebackList : Bool := false
  thumb : Bool := false
  align : Bool := false
  unsigned : Bool := false
  jBits : Bool := false
  modimm : Bool := false
  subtract : Bool := false
  hasU : Bool := false
  always : Bool := false
  vmemPostReg : Bool := false
  deriving DecidableEq, Repr

/-- A field of the word. -/
structure Field where
  lsb : Nat
  width : Nat
  deriving DecidableEq, Repr

/-- `DianaA64OperandDesc` -/
structure OperandDesc where
  kind : OperandKind
  param : Nat := 0
  flags : OperandFlags := {}
  /-- a fixed register, plus 1 -/
  arr : Nat := 0
  fields : List Field
  deriving DecidableEq, Repr

/-- `m_commandId`: the commands the patcher tells apart, those that branch by a table and those that
store a register list. -/
inductive Command where
  | b
  | bl
  | cbz
  | cbnz
  | it
  | bx
  | bxj
  | tbb
  | tbh
  | stm
  | stmda
  | stmdb
  | stmib
  | push
  | other
  deriving DecidableEq, Repr

/-- `DianaA32CmdInfo` -/
structure CmdInfo where
  cmd : Command
  /-- the condition field; nothing is `DIANA_A32_NO_COND` -/
  condLsb : Option Nat := none
  /-- 2 or 4 bytes -/
  size : Nat
  operands : List OperandDesc
  deriving DecidableEq, Repr

/-! ## Results -/

/-- `DianaLinkedOperand`: the types with core registers or an offset. -/
inductive LinkedOperand where
  /-- `diana_register`, a core register -/
  | register (r : Reg)
  /-- `diana_arm_shifted_reg`: the register, and the register of the amount
  (`DIANA_ARM_QUAL_SHIFT_REG`) -/
  | shiftedReg (rm : Reg) (rs : Option Reg)
  /-- `diana_rel`: `m_value` -/
  | rel (value : BitVec 64)
  /-- `diana_index`: the base and the index register -/
  | index (base : Reg) (indexed : Option Reg)
  /-- `diana_arm_regmask`: bit n is rn -/
  | regmask (mask : BitVec 32)
  | other
  deriving DecidableEq, Repr

/-- `DianaParserResult`; `iFullCmdSize` is the number of bytes. -/
structure ParserResult where
  cmd : Command
  /-- `DianaA32_GetCondition` -/
  cond : BitVec 4
  /-- `DIANA_A32_PREFIX_IN_IT` -/
  inIt : Bool
  linkedOperands : List LinkedOperand
  bytes : List Byte
  deriving DecidableEq, Repr

/-! ## Fields -/

def Field.get (f : Field) (word : Word) : Word := (word.extractLsb' f.lsb f.width).setWidth 32

def fieldAt (desc : OperandDesc) (index : Nat) (word : Word) : Word :=
  (desc.fields[index]?.map (·.get word)).getD 0

/-- The fields concatenated, the first is the most significant. -/
def concatFields (fields : List Field) (word : Word) : Word :=
  fields.foldl (fun value f => (value <<< f.width) ||| f.get word) 0

def totalWidth (fields : List Field) : Nat := (fields.map (·.width)).sum

/-- `FieldsFrom`: the value and its width. -/
def fieldsFrom (desc : OperandDesc) (first : Nat) (word : Word) : Word × Nat :=
  (concatFields (desc.fields.drop first) word, totalWidth (desc.fields.drop first))

def signExtend32 (value : Word) (bits : Nat) : Word :=
  if bits = 0 ∨ 32 ≤ bits then value
  else
    let sign := 1#32 <<< (bits - 1)
    ((value &&& ((sign <<< 1) - 1)) ^^^ sign) - sign

def ror32 (value : Word) (amount : Nat) : Word := value.rotateRight (amount % 32)

def getR (index : Word) : Reg := index.setWidth 4

/-! ## Operands -/

/-- The offset of a label from the address the instruction reads as pc. -/
def labelOffset (desc : OperandDesc) (word : Word) : Word :=
  let value :=
    if desc.flags.jBits then
      -- S:J1:J2:rest, I1 = NOT(J1 EOR S), I2 = NOT(J2 EOR S)
      let s := fieldAt desc 0 word
      let i1 : Word := if fieldAt desc 1 word ^^^ s = 0 then 1 else 0
      let i2 : Word := if fieldAt desc 2 word ^^^ s = 0 then 1 else 0
      let (value, width) := fieldsFrom desc 3 word
      (value ||| (((s <<< 2) ||| (i1 <<< 1) ||| i2) <<< width), width + 3)
    else fieldsFrom desc 0 word
  let offset := if desc.flags.unsigned then value.1 else signExtend32 value.1 value.2
  let offset := offset <<< desc.param
  if desc.flags.subtract then 0 - offset else offset

/-- `DIANA_A32_OPK_LABEL`: relative to the next instruction. -/
def fillLabel (size : Nat) (desc : OperandDesc) (word : Word) : LinkedOperand :=
  let bias : Word := if desc.flags.thumb then 4 else 8
  let offset :=
    if desc.flags.modimm then
      -- ADR: the rotated imm12, added or subtracted
      let value := fieldAt desc 0 word
      let offset := ror32 (value &&& 0xFF) ((value >>> 8).toNat * 2)
      if desc.flags.subtract then 0 - offset else offset
    else labelOffset desc word
  .rel ((bias + offset - BitVec.ofNat 32 size).signExtend 64)

/-- `DIANA_A32_OPK_REG`: the flags that end the list of the register's fields come off first. -/
def fillReg (desc : OperandDesc) (word : Word) : LinkedOperand :=
  let count := desc.fields.length - (if desc.flags.writebackField then 1 else 0) -
    (if desc.flags.writebackList then 1 else 0)
  let value :=
    if desc.arr ≠ 0 then BitVec.ofNat 32 (desc.arr - 1)
    else concatFields (desc.fields.take count) word
  .register (getR (value + BitVec.ofNat 32 desc.param))

/-- `DIANA_A32_OPK_MEM_IMM` and `DIANA_A32_OPK_MEM_REG` -/
def fillMem (desc : OperandDesc) (word : Word) : LinkedOperand :=
  let base := if desc.arr ≠ 0 then getR (BitVec.ofNat 32 (desc.arr - 1))
      else getR (fieldAt desc 0 word)
  let next := (if desc.arr ≠ 0 then 0 else 1) + (if desc.flags.hasU then 1 else 0)
  .index base (if desc.kind = .memReg then some (getR (fieldAt desc next word)) else none)

/-- `DIANA_A32_OPK_REGLIST`: the extra bits are the registers `param & 15` and `param >> 4`. -/
def fillReglist (desc : OperandDesc) (word : Word) : LinkedOperand :=
  let value := fieldAt desc 0 word
  let value :=
    if (1 < desc.fields.length ∧ fieldAt desc 1 word ≠ 0) ∨ desc.flags.always then
      value ||| (1#32 <<< (desc.param % 16))
    else value
  let value :=
    if 2 < desc.fields.length ∧ fieldAt desc 2 word ≠ 0 then
      value ||| (1#32 <<< (desc.param / 16 % 16))
    else value
  .regmask value

/-- `FillOperand` -/
def fillOperand (size : Nat) (desc : OperandDesc) (word : Word) : LinkedOperand :=
  match desc.kind with
  | .reg => fillReg desc word
  | .shreg => .shiftedReg (getR (fieldAt desc 0 word)) none
  | .shregReg =>
    -- a fixed type: [Rm, Rs]
    let rs := if desc.param ≠ 0 then fieldAt desc 1 word else fieldAt desc 2 word
    .shiftedReg (getR (fieldAt desc 0 word)) (some (getR rs))
  | .label => fillLabel size desc word
  | .memImm => fillMem desc word
  | .memReg => fillMem desc word
  | .reglist => fillReglist desc word
  | .vmem =>
    .index (getR (fieldAt desc 0 word))
      (if desc.flags.vmemPostReg then some (getR (fieldAt desc (desc.fields.length - 1) word))
       else none)
  | .plain => .other

/-! ## Instructions -/

/-- `DianaA32_GetT32Size`, and 4 in A32: 0b11101, 0b11110, 0b11111 start a 32-bit instruction. -/
def instrSize (thumb : Bool) (word : Word) : Nat :=
  if thumb then (if 0x1D#5 ≤ word.extractLsb' 27 5 then 4 else 2) else 4

/-- The bytes of an instruction: halfword by halfword in T32. -/
def codeBytes (thumb : Bool) (word : Word) : List Byte :=
  if thumb then
    ([(word >>> 16).setWidth 8, (word >>> 24).setWidth 8, word.setWidth 8,
      (word >>> 8).setWidth 8] : List Byte).take (instrSize thumb word)
  else [word.setWidth 8, (word >>> 8).setWidth 8, (word >>> 16).setWidth 8,
    (word >>> 24).setWidth 8]

/-- `FillResult` on the entry of a word, then the condition: the instruction's own, or that of the
IT block (`itState`, always zero in A32). -/
def fillResult (thumb : Bool) (itState : BitVec 8) (info : CmdInfo) (word : Word) :
    ParserResult where
  cmd := info.cmd
  cond := match info.condLsb with
    | some lsb => word.extractLsb' lsb 4
    | none => if itState.extractLsb' 0 4 = 0 then 14 else itState.extractLsb' 4 4
  inIt := itState.extractLsb' 0 4 ≠ 0
  linkedOperands := info.operands.map (fillOperand info.size · word)
  bytes := codeBytes thumb word

/-! ## Operands that read pc -/

/-- The commands that store the registers of a list. -/
def storesList : Command → Bool
  | .stm | .stmda | .stmdb | .stmib | .push => true
  | _ => false

/-- The value of the operand depends on the address of the instruction. -/
def readsPc (cmd : Command) : LinkedOperand → Bool
  | .register r => r = pc
  | .shiftedReg rm rs => rm = pc || rs = some pc
  | .rel _ => true
  | .index base indexed => base = pc || indexed = some pc
  | .regmask mask => storesList cmd && mask.getLsbD 15
  | .other => false

/-- `tbb` and `tbh` branch from pc by an entry of their table. -/
def branchesByTable : Command → Bool
  | .tbb | .tbh => true
  | _ => false

/-- The instruction depends on its address: through an operand, or because it branches by a
table. -/
def ParserResult.readsPc (r : ParserResult) : Bool :=
  branchesByTable r.cmd || r.linkedOperands.any (A32.readsPc r.cmd)

/-! ## Branches -/

/-- A pattern of the tables: the word has the value under the mask, and none of the others. -/
structure Pattern where
  mask : Word
  value : Word
  excluded : List (Word × Word) := []
  deriving DecidableEq, Repr

def Pattern.matches (p : Pattern) (word : Word) : Bool :=
  word &&& p.mask = p.value && p.excluded.all fun (mask, value) => word &&& mask ≠ value

/-- The entries of `b`, `bl`, `cbz` and `cbnz` in A32. -/
def branchCmdsA32 : List (Pattern × CmdInfo) :=
  let label : OperandDesc := { kind := .label, param := 2, fields := [⟨0, 24⟩] }
  [({ mask := 0x0F000000, value := 0x0A000000, excluded := [(0xF0000000, 0xF0000000)] },
    { cmd := .b, condLsb := some 28, size := 4, operands := [label] }),
   ({ mask := 0x0F000000, value := 0x0B000000, excluded := [(0xF0000000, 0xF0000000)] },
    { cmd := .bl, condLsb := some 28, size := 4, operands := [label] })]

/-- The entries of `b`, `bl`, `cbz` and `cbnz` in T32. -/
def branchCmdsT32 : List (Pattern × CmdInfo) :=
  let rn : OperandDesc := { kind := .reg, fields := [⟨16, 3⟩] }
  let cbLabel : OperandDesc :=
    { kind := .label, param := 1, flags := { thumb := true, unsigned := true },
      fields := [⟨25, 1⟩, ⟨19, 5⟩] }
  let narrow (width : Nat) : OperandDesc :=
    { kind := .label, param := 1, flags := { thumb := true }, fields := [⟨16, width⟩] }
  let wideCond : OperandDesc :=
    { kind := .label, param := 1, flags := { thumb := true },
      fields := [⟨26, 1⟩, ⟨11, 1⟩, ⟨13, 1⟩, ⟨16, 6⟩, ⟨0, 11⟩] }
  let wide : OperandDesc :=
    { kind := .label, param := 1, flags := { thumb := true, jBits := true },
      fields := [⟨26, 1⟩, ⟨13, 1⟩, ⟨11, 1⟩, ⟨16, 10⟩, ⟨0, 11⟩] }
  [({ mask := 0xFD000000, value := 0xB9000000 },
    { cmd := .cbnz, size := 2, operands := [rn, cbLabel] }),
   ({ mask := 0xFD000000, value := 0xB1000000 },
     { cmd := .cbz, size := 2, operands := [rn, cbLabel] }),
   ({ mask := 0xF0000000, value := 0xD0000000, excluded := [(0x0E000000, 0x0E000000)] },
    { cmd := .b, condLsb := some 24, size := 2, operands := [narrow 8] }),
   ({ mask := 0xF8000000, value := 0xE0000000 }, { cmd := .b, size := 2, operands := [narrow 11] }),
   ({ mask := 0xF800D000, value := 0xF0008000, excluded := [(0x03800000, 0x03800000)] },
    { cmd := .b, condLsb := some 22, size := 4, operands := [wideCond] }),
   ({ mask := 0xF800D000, value := 0xF0009000 }, { cmd := .b, size := 4, operands := [wide] }),
   ({ mask := 0xF800D000, value := 0xF000D000 }, { cmd := .bl, size := 4, operands := [wide] })]

def branchCmds (thumb : Bool) : List (Pattern × CmdInfo) :=
  if thumb then branchCmdsT32 else branchCmdsA32

/-- The entries of the instructions that form addresses with pc in the emitted code: `ldr`
(literal), and `adr` in A32. -/
def literalCmds (thumb : Bool) : List (Pattern × CmdInfo) :=
  let rt : OperandDesc := { kind := .reg, fields := [⟨12, 4⟩] }
  let literal : OperandDesc :=
    { kind := .memImm, flags := { thumb := thumb, hasU := true }, arr := 16,
      fields := [⟨23, 1⟩, ⟨0, 12⟩] }
  if thumb then
    [({ mask := 0xFF7F0000, value := 0xF85F0000 },
      { cmd := .other, size := 4, operands := [rt, literal] })]
  else
    [({ mask := 0x0F7F0000, value := 0x051F0000, excluded := [(0xF0000000, 0xF0000000)] },
      { cmd := .other, condLsb := some 28, size := 4, operands := [rt, literal] }),
     ({ mask := 0x0FFF0000, value := 0x028F0000, excluded := [(0xF0000000, 0xF0000000)] },
      { cmd := .other, condLsb := some 28, size := 4,
        operands := [rt, { kind := .label, flags := { modimm := true }, fields := [⟨0, 12⟩] }] })]

def Command.isBranch : Command → Bool
  | .b | .bl | .cbz | .cbnz => true
  | _ => false

/-- The generated tables: the entry of a word. A branch and a literal load have their entries, and
nothing else is a branch. -/
structure Tables where
  lookup : Bool → Word → CmdInfo
  known : ∀ thumb word e, e ∈ branchCmds thumb ++ literalCmds thumb → e.1.matches word = true →
    lookup thumb word = e.2
  other : ∀ thumb word, (∀ e ∈ branchCmds thumb, e.1.matches word = false) →
    (lookup thumb word).cmd.isBranch = false

/-- `DianaA32_DecodeA32`, `DianaA32_DecodeT32` -/
def decode (tables : Tables) (thumb : Bool) (itState : BitVec 8) (word : Word) : ParserResult :=
  fillResult thumb itState (tables.lookup thumb word) word

end Diana.A32
