import Diana.Lib.Cells
import Diana.Status

/-!
# The processor

The state a command of the emulator runs on (`DianaProcessor`) and the way it reads and writes
registers and flags.

* `Cell`: the registers with storage of their own in the register vector
  (`Diana_RegisterRegister`); a `Register` is a window of a cell (`Diana_RegisterSubRegister`).
* `Proc`: the register vector, the flags, the x87 and SSE control state, the fetch state and the
  memory behind the memory stream.
* `getValueEx`, `setValueEx`: `DianaProcessor_GetValueEx` and `DianaProcessor_SetValueEx`, with the
  side effects of the second: the RIP-changed flag, the flags of the written value, and the upper
  half of a 32-bit destination in 64-bit mode.
-/

namespace Diana.Processor

open Diana.Lib

abbrev Byte := BitVec 8

/-- `OPERAND_SIZE` -/
abbrev Value := BitVec 64

/-! ## Registers -/

inductive SegReg where
  | es | cs | ss | ds | fs | gs
  deriving DecidableEq, Repr

/-- A register with storage of its own. The general registers are numbered as encodings do (`rax`,
`rcx`, `rdx`, `rbx`, `rsp`, `rbp`, `rsi`, `rdi`, `r8`, ...). -/
inductive Cell where
  | gp (i : Fin 16)
  | rip
  | zmm (i : Fin 32)
  | k (i : Fin 8)
  | mmInternal (i : Fin 8)
  | seg (r : SegReg)
  | cr (i : Fin 8)
  | dr (i : Fin 8)
  | tr (i : Fin 8)
  deriving DecidableEq, Repr

def Cell.width : Cell → Nat
  | gp _ => 64
  | rip => 64
  | zmm _ => 512
  | k _ => 64
  | mmInternal _ => 80
  | seg _ => 16
  | cr _ => 32
  | dr _ => 32
  | tr _ => 32

/-- The cells that no scalar register but RIP lies in. -/
def Cell.isVector : Cell → Bool
  | zmm _ => true
  | k _ => true
  | mmInternal _ => true
  | rip => true
  | _ => false

/-- Sizes of scalar operands: 1, 2, 4 and 8 bytes; the last three are also the values of
`DIANA_MODE16`, `DIANA_MODE32` and `DIANA_MODE64`. -/
inductive Size where
  | byte | word | dword | qword
  deriving DecidableEq, Repr

def Size.bytes : Size → Nat
  | byte => 1
  | word => 2
  | dword => 4
  | qword => 8

/-- The scalar registers of `DianaUnifiedRegister`. `r8h` is `ah`, `ch`, `dh`, `bh`. -/
inductive Register where
  | r8 (i : Fin 16)
  | r8h (i : Fin 4)
  | r16 (i : Fin 16)
  | r32 (i : Fin 16)
  | r64 (i : Fin 16)
  | ip
  | rip
  | seg (r : SegReg)
  | cr (i : Fin 8)
  | dr (i : Fin 8)
  | tr (i : Fin 8)
  | mm (i : Fin 8)
  deriving DecidableEq, Repr

/-- The numbers of `r8` to `r64` and of `r8h` can be written as literals. -/
scoped instance neZero_gp : NeZero 16 := ⟨by decide⟩

scoped instance neZero_high : NeZero 4 := ⟨by decide⟩

namespace Register

def cell : Register → Cell
  | r8 i => .gp i
  | r8h i => .gp (i.castLE (by decide))
  | r16 i => .gp i
  | r32 i => .gp i
  | r64 i => .gp i
  | ip => .rip
  | rip => .rip
  | seg r => .seg r
  | cr i => .cr i
  | dr i => .dr i
  | tr i => .tr i
  | mm i => .mmInternal i.rev

/-- `m_offset`, in bytes from the start of the cell. -/
def offset : Register → Nat
  | r8h _ => 1
  | _ => 0

/-- `m_size` -/
def size : Register → Size
  | r8 _ => .byte
  | r8h _ => .byte
  | r16 _ => .word
  | r32 _ => .dword
  | r64 _ => .qword
  | ip => .dword
  | rip => .qword
  | seg _ => .word
  | cr _ => .dword
  | dr _ => .dword
  | tr _ => .dword
  | mm _ => .qword

abbrev rax : Register := r64 0
abbrev rcx : Register := r64 1
abbrev rbx : Register := r64 3
abbrev rsp : Register := r64 4
abbrev rbp : Register := r64 5
abbrev rsi : Register := r64 6

/-- The registers lie inside their cells. -/
theorem window_le (r : Register) : 8 * r.offset + 8 * r.size.bytes ≤ r.cell.width := by
  cases r <;> simp [offset, size, cell, Cell.width, Size.bytes]

end Register

/-! ## Flags -/

def flagCF : Value := 0x1
def flag1 : Value := 0x2
def flagPF : Value := 0x4
def flag3 : Value := 0x8
def flagAF : Value := 0x10
def flag5 : Value := 0x20
def flagZF : Value := 0x40
def flagSF : Value := 0x80
def flagIF : Value := 0x200
def flagDF : Value := 0x400
def flagOF : Value := 0x800
def flag15 : Value := 0x8000
def flagID : Value := 0x200000

def setFlag (flags flag : Value) : Value := flags ||| flag

def clearFlag (flags flag : Value) : Value := flags &&& ~~~flag

def queryFlag (flags flag : Value) : Bool := flags &&& flag != 0

/-- `g_diana_parityBuffer`: an even number of bits. -/
def isParity (v : Byte) : Bool := ((List.range 8).countP fun i => v.getLsbD i) % 2 == 0

/-- `DianaProcessor_CutValue` -/
def cutValue (v : Value) (size : Size) : Value := (v.setWidth (8 * size.bytes)).setWidth 64

/-- `DianaProcessor_GetSignMask` -/
def signMask (size : Size) : Value := 1#64 <<< (8 * size.bytes - 1)

/-- `UPDATE_PSZ`: the parity, sign and zero flags of `x`. -/
def pszOf (flags x mask : Value) : Value :=
  let f := clearFlag (clearFlag (clearFlag flags flagPF) flagSF) flagZF
  if x ≠ 0 then
    let f := if x &&& mask ≠ 0 then setFlag f flagSF else f
    if isParity (x.setWidth 8) then setFlag f flagPF else f
  else
    setFlag (setFlag f flagZF) flagPF

/-! ## State -/

/-- `DianaFPU` -/
structure Fpu where
  controlWord : BitVec 16
  statusWord : BitVec 16
  registerFlags : Fin 8 → Byte

/-- `m_stateFlags` -/
structure StateFlags where
  tempRipIsValid : Bool
  ripChanged : Bool
  updateFlagsPsz : Bool
  cmdUsesNormalRep : Bool
  deriving DecidableEq, Repr

def StateFlags.none : StateFlags := ⟨false, false, false, false⟩

/-- The mode the processor was initialized for (`Diana_InitContext`). -/
structure Mode where
  amd64 : Bool
  opsize : Size
  addressSize : Size
  deriving DecidableEq, Repr

/-- `DianaProcessor`, over the memory `μ` behind its memory stream. `lookahead` is the decoder's
cache between two instructions and `tempRIP` the address behind the bytes it was filled with. -/
structure Proc (μ : Type) where
  mode : Mode
  regs : Cells Cell.width
  flags : Value
  fpu : Fpu
  mxcsr : BitVec 32
  pkru : BitVec 32
  stateFlags : StateFlags
  stateFlagsToRemove : StateFlags
  tempRIP : Value
  lookahead : List Byte
  lastCallRIP : Value
  lastCallRSP : Value
  mem : μ

variable {μ : Type}

namespace Proc

/-- `DianaProcessor_GetValueEx` -/
def getValueEx (s : Proc μ) (r : Register) (size : Size) : Value :=
  (s.regs.get r.cell (8 * r.offset) (8 * size.bytes)).setWidth 64

/-- `DianaProcessor_GetValue` -/
def getValue (s : Proc μ) (r : Register) : Value := s.getValueEx r r.size

/-- `UPDATE_PSZ` on a written value. -/
def updatePsz (s : Proc μ) (x : Value) (size : Size) : Proc μ :=
  if s.stateFlags.updateFlagsPsz then { s with flags := pszOf s.flags x (signMask size) } else s

def setCell (s : Proc μ) (r : Register) (size : Size) (v : Value) : Proc μ :=
  { s with regs := s.regs.set r.cell (8 * r.offset) (8 * size.bytes) (v.setWidth _) }

/-- The general registers a 32-bit write of which clears the upper half in 64-bit mode. -/
def isGeneral32 : Option Register → Bool
  | some (.r32 _) => true
  | _ => false

/-- `DianaProcessor_SetValueEx`. `regId` is `none` where the source passes `reg_none` to skip the
check for writes to RIP. -/
def setValueEx (s : Proc μ) (regId : Option Register) (r : Register) (v : Value) (size : Size) :
    Proc μ :=
  let s :=
    if regId = some .rip ∨ regId = some .ip then
      { s with stateFlags := { s.stateFlags with ripChanged := true } }
    else s
  let s :=
    if size = .dword ∧ s.mode.amd64 ∧ isGeneral32 regId then
      s.setCell r .qword (cutValue v .dword)
    else s.setCell r size v
  s.updatePsz (cutValue v size) size

/-- `DianaProcessor_SetValue` -/
def setValue (s : Proc μ) (r : Register) (v : Value) : Proc μ :=
  s.setValueEx (some r) r v r.size

/-- `DianaProcessor_UpdatePSZ` -/
def updatePSZ (s : Proc μ) (v : Value) (size : Size) : Proc μ :=
  { s with
    flags := pszOf s.flags (cutValue v size) (signMask size)
    stateFlags := { s.stateFlags with updateFlagsPsz := false } }

/-- `DianaProcessor_SetResetDefaultFlags` -/
def resetDefaultFlags (flags : Value) : Value :=
  let f := setFlag (setFlag (setFlag flags flag1) flagID) flagIF
  clearFlag (clearFlag (clearFlag f flag3) flag5) flag15

/-- `DianaProcessor_Init`: zeroed registers, the x87 control word and MXCSR at their defaults. -/
def init (mode : Mode) (mem : μ) : Proc μ where
  mode := mode
  regs _ := 0
  flags := resetDefaultFlags 0
  fpu := { controlWord := 0x037F, statusWord := 0, registerFlags := fun _ => 0 }
  mxcsr := 0x1F80
  pkru := 0
  stateFlags := .none
  stateFlagsToRemove := .none
  tempRIP := 0
  lookahead := []
  lastCallRIP := 0
  lastCallRSP := 0
  mem := mem

/-- `DianaProcessor_ClearCache` -/
def clearCache (s : Proc μ) : Proc μ := { s with stateFlags := .none, lookahead := [] }

/-! ### What a register write changes -/

section

variable (s : Proc μ) (regId : Option Register) (r : Register) (v : Value) (size : Size)

/-- The parts of the processor that no register write reaches. -/
structure SameRest (s t : Proc μ) : Prop where
  mode : t.mode = s.mode
  fpu : t.fpu = s.fpu
  mxcsr : t.mxcsr = s.mxcsr
  pkru : t.pkru = s.pkru
  toRemove : t.stateFlagsToRemove = s.stateFlagsToRemove
  tempRIP : t.tempRIP = s.tempRIP
  lookahead : t.lookahead = s.lookahead
  lastCallRIP : t.lastCallRIP = s.lastCallRIP
  lastCallRSP : t.lastCallRSP = s.lastCallRSP
  mem : t.mem = s.mem

theorem SameRest.refl : SameRest s s := by constructor <;> rfl

theorem SameRest.trans {s t u : Proc μ} (h : SameRest s t) (h' : SameRest t u) : SameRest s u where
  mode := h'.mode.trans h.mode
  fpu := h'.fpu.trans h.fpu
  mxcsr := h'.mxcsr.trans h.mxcsr
  pkru := h'.pkru.trans h.pkru
  toRemove := h'.toRemove.trans h.toRemove
  tempRIP := h'.tempRIP.trans h.tempRIP
  lookahead := h'.lookahead.trans h.lookahead
  lastCallRIP := h'.lastCallRIP.trans h.lastCallRIP
  lastCallRSP := h'.lastCallRSP.trans h.lastCallRSP
  mem := h'.mem.trans h.mem

theorem sameRest_setValueEx : SameRest s (s.setValueEx regId r v size) := by
  unfold setValueEx updatePsz setCell
  constructor <;> (dsimp only; split_ifs <;> rfl)

@[simp] theorem updatePsz_regs (x : Value) : (s.updatePsz x size).regs = s.regs := by
  unfold updatePsz
  split <;> rfl

theorem setValueEx_regs (h : ¬ (size = .dword ∧ s.mode.amd64 ∧ isGeneral32 regId)) :
    (s.setValueEx regId r v size).regs =
      s.regs.set r.cell (8 * r.offset) (8 * size.bytes) (v.setWidth _) := by
  unfold setValueEx
  dsimp only
  rw [updatePsz_regs]
  split_ifs <;> rfl

end

end Proc

end Diana.Processor
