import Diana.Status
import Diana.A64.Machine

/-!
# Moving one A64 instruction

`diana_ultimate_patcher_a64.c`: the instructions a hook overwrites are moved into the work buffer of
the hook's message, rewritten so that they run at another address.

* `Emit`: code emission, a status and the message with its work buffer;
* `emitFarJump`, `emitLoadAddress`, `moveConditional`: the helpers;
* `moveInstructionA64`: the word at `src`, moved to `dst`.

The instruction decoder is generated from tables of some thousand entries; the mover only looks at
the kinds of the operands it links, so the decoder is a parameter (`Decoder`).
-/

namespace Diana.Patcher

open Diana.A64

/-! ## The message and its work buffer -/

/-- `DIANAHOOK_INTERNALMESSAGE_WORK_BUFFER_SIZE_RAW` -/
def workBufferSizeRaw : Nat := 256

/-- `DianaHook_InternalMessage`: the part the mover writes. -/
structure Message where
  workBufferRaw : List Byte
  size_le : workBufferRaw.length ≤ workBufferSizeRaw

/-- A fresh message. -/
def emptyMessage : Message := ⟨[], by decide⟩

/-- A function that emits code: its status, and the message as it left it. -/
abbrev Emit := ExceptT Status (StateM Message)

/-- `DianaHook_AllocateCmd`, with the bytes the caller then puts into the room it got. -/
def allocateCmd (bytes : List Byte) : Emit Unit := fun m =>
  if h0 : bytes.length > workBufferSizeRaw then (.error .error, m)
  else if h : m.workBufferRaw.length > workBufferSizeRaw - bytes.length then (.error .error, m)
  else (.ok (), ⟨m.workBufferRaw ++ bytes, by rw [List.length_append]; omega⟩)

def putWord (word : Word) : List Byte :=
  [word.setWidth 8, (word >>> 8).setWidth 8, (word >>> 16).setWidth 8, (word >>> 24).setWidth 8]

def putQword (value : BitVec 64) : List Byte :=
  putWord (value.setWidth 32) ++ putWord ((value >>> 32).setWidth 32)

def emitWord (word : Word) : Emit Unit := allocateCmd (putWord word)

def emitQword (value : BitVec 64) : Emit Unit := allocateCmd (putQword value)

/-! ## Signed values of the C code: `DI_INT64` as 64 bits -/

/-- `SignExtend` -/
def signExtend (value : BitVec 32) (bits : Nat) : BitVec 64 :=
  let sign := 1#64 <<< (bits - 1)
  let wide := value.setWidth 64 &&& ((sign <<< 1) - 1)
  (wide ^^^ sign) - sign

/-- `FitsSigned`: value is a signed number of that many bits -/
def fitsSigned (value : BitVec 64) (bits : Nat) : Bool :=
  let limit := 1#64 <<< (bits - 1)
  (-limit).sle value && value.slt limit

def distance (src dst : Addr) : BitVec 64 := dst - src

/-! ## Emission helpers -/

def emitFarJump (target : Addr) (link : Bool) : Emit Unit := do
  if link then
    emitWord 0x58000070   -- ldr x16, #12
    emitWord 0xD63F0200   -- blr x16
    emitWord 0x14000003   -- b #12: over a literal
  else
    emitWord 0x58000050   -- ldr x16, #8
    emitWord 0xD61F0200   -- br x16
  emitQword target

/-- `ldr xN, #8; b #12; .quad value` -/
def emitLoadAddress (reg : BitVec 32) (value : Addr) : Emit Unit := do
  emitWord (0x58000040 ||| reg)
  emitWord 0x14000003
  emitQword value

/-- `b.cond`, `cbz`/`cbnz`, `tbz`/`tbnz`: the offset field at bit 5, `fieldBits` wide. Out of range,
the opposite condition skips a far jump. -/
def moveConditional (word : Word) (src dst : Addr) (fieldBits : Nat) (invertMask : Word) :
    Emit Unit := do
  let fieldMask : BitVec 32 := ((1#32 <<< fieldBits) - 1) <<< 5
  let target := src + signExtend ((word &&& fieldMask) >>> 5) fieldBits * 4
  let delta := distance dst target
  if fitsSigned (delta.sdiv 4) fieldBits then
    emitWord ((word &&& ~~~fieldMask) ||| ((((delta.sdiv 4).setWidth 32) <<< 5) &&& fieldMask))
  else
    -- b.!cond #20, over ldr, br and the literal
    emitWord (((word ^^^ invertMask) &&& ~~~fieldMask) ||| (5#32 <<< 5))
    emitFarJump target false

/-! ## The decoder, as far as the mover looks at it -/

/-- The kind of a linked operand. -/
inductive LinkedOperand where
  /-- `diana_rel` -/
  | rel
  /-- `diana_index`, on `reg_A64_PC` or not -/
  | index (pc : Bool)
  | other
  deriving DecidableEq, Repr

/-- `DianaParserResult`: whether the word is undefined, and the linked operands. -/
structure ParserResult where
  undefined : Bool
  linkedOperands : List LinkedOperand
  deriving Repr

/-- `DianaA64_DecodeWord` on the message's context. -/
abbrev Decoder := Word → Except Status ParserResult

/-- The operand depends on the address of the instruction. -/
def LinkedOperand.dependsOnAddress : LinkedOperand → Bool
  | .rel => true
  | .index pc => pc
  | .other => false

/-! ## The mover -/

def simdLoads (opc : BitVec 32) : Word :=
  if opc = 0 then 0xBD400000 else if opc = 1 then 0xFD400000 else 0x3DC00000

def loads (opc : BitVec 32) : Word :=
  if opc = 0 then 0xB9400000 else if opc = 1 then 0xF9400000
  else if opc = 2 then 0xB9800000 else 0xF9800000

/-- The literal loads. -/
def moveLiteral (word : Word) (src dst : Addr) : Emit Unit := do
  let opc := word >>> 30
  let simd := (word >>> 26) &&& 1 != 0
  let rt := word &&& 31
  let address := src + signExtend ((word >>> 5) &&& 0x7FFFF) 19 * 4
  let delta := distance dst address
  if fitsSigned (delta.sdiv 4) 19 then
    emitWord ((word &&& ~~~(0x7FFFF#32 <<< 5)) ||| (((delta.sdiv 4).setWidth 32 &&& 0x7FFFF) <<< 5))
  else if simd then
    if opc = 3 then throw .error
    else
      emitLoadAddress 17 address
      emitWord (simdLoads opc ||| (17#32 <<< 5) ||| rt)
  else
    -- prfm has no register to load the address into, nor has xzr
    let base := if opc = 3 ∨ rt = 31 then 17 else rt
    emitLoadAddress base address
    emitWord (loads opc ||| (base <<< 5) ||| rt)

/-- `adr` and `adrp`. -/
def moveAdr (word : Word) (src dst : Addr) : Emit Unit := do
  let reg := word &&& 31
  let imm := signExtend ((((word >>> 5) &&& 0x7FFFF) <<< 2) ||| ((word >>> 29) &&& 3)) 21
  let target := if word >>> 31 != 0 then (src &&& ~~~0xFFF) + imm * 4096 else src + imm
  let delta :=
    if word >>> 31 != 0 then (distance (dst &&& ~~~0xFFF) target).sdiv 4096 else distance dst target
  if fitsSigned delta 21 then
    emitWord ((word &&& 0x9F00001F) ||| ((delta.setWidth 32 &&& 3) <<< 29) |||
      (((delta.setWidth 32 >>> 2) &&& 0x7FFFF) <<< 5))
  else emitLoadAddress reg target

/-- `MoveInstructionA64`: the word at `src`, moved to `dst`. The result is `*pbEndsFlow`: nothing
after it runs. -/
def moveInstructionA64 (decodeWord : Decoder) (word : Word) (src dst : Addr) : Emit Bool := do
  if word &&& 0x7C000000 = 0x14000000 then
    -- b, bl: imm26
    let link := word >>> 31 != 0
    let target := src + signExtend (word &&& 0x3FFFFFF) 26 * 4
    let delta := distance dst target
    if fitsSigned (delta.sdiv 4) 26 then
      emitWord ((word &&& 0xFC000000) ||| ((delta.sdiv 4).setWidth 32 &&& 0x3FFFFFF))
    else emitFarJump target link
    return !link
  else if word &&& 0xFF000000 = 0x54000000 then
    -- b.cond, bc.cond: imm19. Conditions al and nv always branch
    if word &&& 0xE = 0xE then
      let target := src + signExtend ((word >>> 5) &&& 0x7FFFF) 19 * 4
      let delta := distance dst target
      if fitsSigned (delta.sdiv 4) 19 then
        emitWord ((word &&& ~~~(0x7FFFF#32 <<< 5)) |||
          (((delta.sdiv 4).setWidth 32 &&& 0x7FFFF) <<< 5))
      else emitFarJump target false
      return true
    else
      moveConditional word src dst 19 1
      return false
  else if word &&& 0x7E000000 = 0x34000000 then
    moveConditional word src dst 19 0x01000000
    return false
  else if word &&& 0x7E000000 = 0x36000000 then
    moveConditional word src dst 14 0x01000000
    return false
  else if word &&& 0x1F000000 = 0x10000000 then
    moveAdr word src dst
    return false
  else if word &&& 0x3B000000 = 0x18000000 then
    moveLiteral word src dst
    return false
  else
    -- everything else is copied: no other operand may depend on the address
    let result ← ExceptT.mk (pure (decodeWord word))
    if result.undefined then throw .error
    if result.linkedOperands.any (·.dependsOnAddress) then throw .errorNotImplemented
    emitWord word
    return word &&& 0xFE000000 = 0xD6000000 ∧ (word >>> 21) &&& 7 ≠ 1

end Diana.Patcher
