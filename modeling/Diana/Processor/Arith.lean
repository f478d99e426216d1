import Diana.Processor.Operands

/-!
# Arithmetic of the commands

What the commands compute, as functions of values and flags: the carry, overflow and adjust flags
of additions and subtractions (`DianaProcessor_SetCOA_Add` and its siblings), the bit-by-bit shift
and rotate loops, and the 128-bit products and quotients.
-/

namespace Diana.Processor

/-! ## Carry, overflow and adjust flags -/

/-- `DI_START_UPDATE_COA_FLAGS` -/
def clearCOA (flags : Value) : Value := clearFlag (clearFlag (clearFlag flags flagAF) flagOF) flagCF

/-- `DI_START_UPDATE_OA_FLAGS` -/
def clearOA (flags : Value) : Value := clearFlag (clearFlag flags flagAF) flagOF

/-- Which of the three flags a command updates: all of them, or (`DI_END_UPDATE_OA_FLAGS`) all but
the carry. -/
inductive Updates where
  | coa | oa
  deriving DecidableEq, Repr

def setIf (flags flag : Value) (c : Bool) : Value := if c then setFlag flags flag else flags

/-- `DianaProcessor_SetCOA_Add` (`less` strict) and `DianaProcessor_SetCOA_AddCF` (not strict). -/
def setCOA_AddWith (less : Value → Value → Bool) (u : Updates) (flags old new operand : Value)
    (size : Size) : Value :=
  let m := signMask size
  let f := setIf flags flagOF (old &&& m == operand &&& m && old &&& m != new &&& m)
  let f := setIf f flagAF (less (new &&& 0xF) (old &&& 0xF))
  match u with
  | .coa => setIf f flagCF (less (cutValue new size) old)
  | .oa => f

def setCOA_Add : Updates → Value → Value → Value → Value → Size → Value :=
  setCOA_AddWith fun a b => a < b

def setCOA_AddCF : Updates → Value → Value → Value → Value → Size → Value :=
  setCOA_AddWith fun a b => a ≤ b

/-- `DianaProcessor_SetCOA_Sub` (`greater` strict) and `DianaProcessor_SetCOA_SubCF` (not
strict). -/
def setCOA_SubWith (greater : Value → Value → Bool) (u : Updates) (flags old new operand : Value)
    (size : Size) : Value :=
  let m := signMask size
  let f := setIf flags flagOF (old &&& m != operand &&& m && old &&& m != new &&& m)
  let f := setIf f flagAF (greater (new &&& 0xF) (old &&& 0xF))
  match u with
  | .coa => setIf f flagCF (greater (cutValue new size) old)
  | .oa => f

def setCOA_Sub : Updates → Value → Value → Value → Value → Size → Value :=
  setCOA_SubWith fun a b => b < a

def setCOA_SubCF : Updates → Value → Value → Value → Value → Size → Value :=
  setCOA_SubWith fun a b => b ≤ a

/-- `GET_FLAG_CF` as a number. -/
def carryOf (flags : Value) : Value := if queryFlag flags flagCF then 1 else 0

/-! ## Shifts -/

/-- The sign bit of `v` at a size, as the code tests it. -/
def hasBit (v mask : Value) : Bool := v &&& mask != 0

/-- `CLEAR_FLAG_CF; if (c) SET_FLAG_CF` -/
def withCF (flags : Value) (c : Bool) : Value := setIf (clearFlag flags flagCF) flagCF c

/-- The count of `shl`, `shr`, `sar`, `rol`, `ror`, `shld` and `shrd`. -/
def shiftCount (amd64 rexW : Bool) (src : Value) : Value :=
  if amd64 ∧ rexW then src &&& 0x3F else src &&& 0x1F

/-- The count of `rcl` and `rcr`. -/
def rotateCount (size : Size) (src : Value) : Value :=
  match size with
  | .byte => (src &&& 0x1F) % 9
  | .word => (src &&& 0x1F) % 17
  | .dword => src &&& 0x1F
  | .qword => src &&& 0x3F

/-- One turn of a loop on the flags and the destination. -/
abbrev Turn := Value × Value → Value × Value

def Turn.times (t : Turn) : Nat → Turn
  | 0, x => x
  | n + 1, x => t.times n (t x)

def shlTurn (size : Size) : Turn := fun (flags, dest) =>
  (withCF flags (hasBit dest (signMask size)), dest <<< 1)

def sarTurn (prevSign : Value) : Turn := fun (flags, dest) =>
  (withCF flags (hasBit dest 1), dest >>> 1 ||| prevSign)

def shrTurn : Turn := fun (flags, dest) => (withCF flags (hasBit dest 1), dest >>> 1)

def rolTurn (size : Size) : Turn := fun (flags, dest) =>
  (flags, (dest <<< 1) + if hasBit dest (signMask size) then 1 else 0)

def rorTurn (size : Size) : Turn := fun (flags, dest) =>
  (flags, dest >>> 1 ||| if hasBit dest 1 then signMask size else 0)

def rclTurn (size : Size) : Turn := fun (flags, dest) =>
  (withCF flags (hasBit dest (signMask size)), (dest <<< 1) + carryOf flags)

def rcrTurn (size : Size) : Turn := fun (flags, dest) =>
  (withCF flags (hasBit dest 1),
    dest >>> 1 ||| if queryFlag flags flagCF then signMask size else 0)

/-- The overflow flag of a shift by one. -/
def setOFOnce (count : Value) (flags : Value) (c : Bool) :
    Value := setIf flags flagOF (count == 1 && c)

/-- What a shift or rotate by a count other than 0 does to the flags and the destination. -/
abbrev ShiftBody := (flags dest count : Value) → (size : Size) → Value × Value

def shlBody : ShiftBody := fun flags dest count size =>
  let (f, d) := (shlTurn size).times count.toNat (clearFlag flags flagOF, dest)
  (setOFOnce count f (queryFlag f flagCF != hasBit d (signMask size)), d)

def sarBody : ShiftBody := fun flags dest count size =>
  (sarTurn (signMask size &&& dest)).times count.toNat (clearFlag flags flagOF, dest)

def shrBody : ShiftBody := fun flags dest count size =>
  let (f, d) := shrTurn.times count.toNat (clearFlag flags flagOF, dest)
  (setOFOnce count f (hasBit dest (signMask size)), d)

def rolBody : ShiftBody := fun flags dest count size =>
  let (f, d) := (rolTurn size).times count.toNat (clearFlag flags flagOF, dest)
  let f := withCF f (hasBit d 1)
  (setOFOnce count f (hasBit d 1 != hasBit d (signMask size)), d)

def rorBody : ShiftBody := fun flags dest count size =>
  let (f, d) := (rorTurn size).times count.toNat (clearFlag flags flagOF, dest)
  let f := withCF f (hasBit d (signMask size))
  (setOFOnce count f (hasBit d (signMask size) != hasBit d (signMask size >>> 1)), d)

def rclBody : ShiftBody := fun flags dest count size =>
  let (f, d) := (rclTurn size).times count.toNat (clearFlag flags flagOF, dest)
  (setOFOnce count f (queryFlag f flagCF != hasBit d (signMask size)), d)

def rcrBody : ShiftBody := fun flags dest count size =>
  let f := clearFlag flags flagOF
  let f := setOFOnce count f (queryFlag f flagCF != hasBit dest (signMask size))
  (rcrTurn size).times count.toNat (f, dest)

/-- One turn of `shld`: the destination takes the top bit of the source. -/
def shldTurn (size : Size) (flags dest src : Value) : Value × Value × Value :=
  (withCF flags (hasBit dest (signMask size)),
    (dest <<< 1) + (if hasBit src (signMask size) then 1 else 0), src <<< 1)

/-- The loop of `shrd`, with the last bit shifted out. -/
def shrdLoop (size : Size) : Nat → (dest src lastBit : Value) → Value × Value
  | 0, dest, _, lastBit => (dest, lastBit)
  | n + 1, dest, src, _ =>
    let lastBit := if hasBit dest 1 then signMask size else 0
    let dest := if hasBit src 1 then dest >>> 1 ||| signMask size else dest >>> 1
    shrdLoop size n dest ((src >>> 1) + lastBit) lastBit

/-! ## 128 bits -/

/-- `add128`, low word first. -/
def add128 (low high a b : Value) : Value × Value :=
  let low := low + a
  (low, (if low < a then high + 1 else high) + b)

def neg128 (low high : Value) : Value × Value := add128 (~~~low) (~~~high) 1 0

def mul64 (a b : Value) : Value × Value :=
  let a0 := cutValue a .dword
  let a1 := a >>> 32
  let b0 := cutValue b .dword
  let b1 := b >>> 32
  let (low, high) := (a0 * b0, (0 : Value))
  let v := a0 * b1
  let (low, high) := add128 low high (v <<< 32) (v >>> 32)
  let v := a1 * b0
  let (low, high) := add128 low high (v <<< 32) (v >>> 32)
  (low, high + a1 * b1)

def imul64 (a b : Value) : Value × Value :=
  let sa := a.msb
  let sb := b.msb
  let (low, high) := mul64 (if sa then -a else a) (if sb then -b else b)
  if sa != sb then neg128 low high else (low, high)

/-- The loop of `div64`: quotient bits enter `a0` as the remainder builds up in `a1`. -/
def div64Loop (b : Value) : Nat → (a0 a1 : Value) → Value × Value
  | 0, a0, a1 => (a0, a1)
  | n + 1, a0, a1 =>
    let ab := a1.msb
    let a1 := (a1 <<< 1) ||| (a0 >>> 63)
    if ab ∨ b ≤ a1 then div64Loop b n ((a0 <<< 1) ||| 1) (a1 - b)
    else div64Loop b n (a0 <<< 1) a1

/-- `div64`: quotient and remainder, `none` where the quotient does not fit. -/
def div64 (low high b : Value) : Option (Value × Value) :=
  if high = 0 then some (low / b, low % b)
  else if b ≤ high then none
  else some (div64Loop b 64 low high)

def idiv64 (low high b : Value) : Option (Value × Value) := do
  let sa := high.msb
  let (low, high) := if sa then neg128 low high else (low, high)
  let sb := b.msb
  let (q, r) ← div64 low high (if sb then -b else b)
  let q ←
    if sa != sb then (if 0x8000000000000000 < q then none else some (-q))
    else (if 0x8000000000000000 ≤ q then none else some q)
  some (q, if sa then -r else r)

end Diana.Processor
