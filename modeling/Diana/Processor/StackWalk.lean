import Diana.Lib.Chain
import Diana.Processor.ExecOnce
import Diana.Processor.Memory

/-!
# Stack walking

`DianaProcessor_QueryCurrentStack`: in 32-bit mode along the saved frame pointers, else along the
instructions from RIP on to the next return. The observer of the walk always asks to continue;
`frames` is what it was told.

* `ebpTurn`, `scanTurn`: one turn of the two loops;
* `queryCurrentStack`: the walk, its loops followed for a number of turns;
* `scan_left`: the walk along the instructions ends, with at most one frame for each instruction;
* `walk_returns_iff`: when the walk ends.
-/

namespace Diana.Processor

open Diana.Lib

/-! ## What the walk works on -/

/-- What is looked at in a decoded instruction, next to its operands. -/
structure WalkInsn where
  insn : Insn
  /-- `diana_cmd_int` -/
  isInt : Bool
  /-- `diana_cmd_jmp` -/
  isJmp : Bool
  /-- `DIANA_GT_IS_JUMP` -/
  isJump : Bool
  /-- `DIANA_GT_IS_CALL` -/
  isCall : Bool
  /-- `DIANA_GT_RET` -/
  isRet : Bool
  /-- `dispSize` of the first operand -/
  dispSize : Nat

/-- The memory, and a decoder of its own with its context `κ`. -/
structure Walker (μ κ : Type) where
  stream : MemoryStream μ
  /-- `Diana_InitContext` -/
  initContext : κ
  /-- `Diana_ClearCache` -/
  clearCache : κ → κ
  /-- `iCurrentCmd_addressSize` -/
  addressSize : κ → Size
  /-- `Diana_ParseCmd` on the stream at a position, with the context and the position afterwards. -/
  parse : Proc μ → κ → Value → Except Status WalkInsn × κ × Value
  /-- `iCurrentCmd_addressSize` of the processor's own context -/
  currentAddressSize : Size

abbrev WalkResult := Except Status Unit × List Value

variable {μ κ : Type} (W : Walker μ κ) (s : Proc μ)

/-! ## Calls and jumps -/

def isFrameRegister (r : Register) : Bool := r == .r64 5 || r == .r32 5
def isStackRegister (r : Register) : Bool := r == .r64 4 || r == .r32 4

/-- `DianaProcessor_AnalyzeCallJmpInstruction` -/
def analyzeCallJmp (w : WalkInsn) (rip : Value) : Option Value :=
  let size := BitVec.ofNat 64 w.insn.fullCmdSize
  let readAt (selector address : Value) (seg : SegReg) : Option Value :=
    match s.readMem W.stream selector address w.insn.addressSize seg with
    | (v, none) => some v
    | (_, some _) => none
  if ¬ (w.isCall ∨ w.isJump) then none
  else
    match w.insn.operands with
    | [op] =>
      match op.value with
      | .rel v => some (rip + v + size)
      | .imm v => some v
      | .index x =>
        if x.reg = some .rip ∧ (x.indexedReg = none ∨ x.index = 0) then
          match s.calcIndex w.insn x with
          | .ok (selector, _) => readAt selector (rip + size + x.dispValue) x.segReg
          | .error _ => none
        else if (x.indexedReg = none ∨ x.index = 0) ∧ w.dispSize ≠ 0 then
          match s.calcIndex w.insn x with
          | .ok (selector, address) => readAt selector address x.segReg
          | .error _ => none
        else if (x.reg = some .rip ∨ x.indexedReg = some .rip) ∧
            ((x.indexedReg = none ∨ x.index = 0) ∨ (x.reg = none ∧ x.index = 1)) then
          some (rip + x.dispValue + size)
        else none
      | _ => none
    | _ => none

/-- `jmp 0x33:...`, the way from 32-bit into 64-bit code. -/
def isWoW64 (w : WalkInsn) : Bool :=
  w.isJmp && match w.insn.operands with
    | [⟨.callPtr segment _, _, _⟩] => segment == 0x33
    | _ => false

/-- The immediate operand of a `ret`, `none` for what is no `ret`. -/
def retImm (w : WalkInsn) : Option (Option Value) :=
  if w.insn.command = .general .ret then
    match w.insn.operands with
    | [] => some (some 0)
    | [⟨.imm v, _, _⟩] => some (some v)
    | _ => some none
  else none

/-- The loop of `DianaProcessor_QueryFunctionDiff`, `n` turns before its end. -/
def functionDiffFrom : Nat → κ → Value → Value → Option Value
  | 0, _, _, _ => some 0
  | n + 1, context, streamPointer, rip =>
    match W.parse s context streamPointer with
    | (.error _, _, _) => none
    | (.ok w, context, streamPointer) =>
      let straight :=
        if isWoW64 w then some 0
        else if w.isInt then some 0
        else
          match retImm w with
          | some diff => diff
          | none =>
            functionDiffFrom n context streamPointer (rip + BitVec.ofNat 64 w.insn.fullCmdSize)
      if w.isJump then
        match analyzeCallJmp W s w rip with
        | none => none
        | some newRIP =>
          if w.isJmp ∨ rip < newRIP then functionDiffFrom n (W.clearCache context) newRIP newRIP
            else straight
      else straight

/-- `g_scanSize` -/
def scanSize : Nat := 0x1000

/-- `DianaProcessor_QueryFunctionDiff` -/
def queryFunctionDiff (rip : Value) :
    Option Value := functionDiffFrom W s scanSize W.initContext rip rip

/-- `Diana_AnalyzeInstructionStackDiff`: how the instruction moves the stack pointer, and
whether it is a call. -/
def stackDiff (w : WalkInsn) : Value × Bool :=
  let opsize := BitVec.ofNat 64 w.insn.opsize.bytes
  let operand : Value :=
    match w.insn.operands with
    | [⟨.register r, _, _⟩, ⟨.imm v, _, _⟩] => if isStackRegister r ∨ r = .r16 4 then v else 0
    | _ => 0
  if w.isCall then (-opsize, true)
  else if w.isJump then (0, false)
  else if w.isRet then
    match w.insn.operands with
    | ⟨.imm v, _, _⟩ :: _ => (opsize + v, false)
    | _ => (opsize, false)
  else
    match w.insn.command with
    | .general .push => (-opsize, false)
    | .general .pop => (opsize, false)
    | .general .pusha => (-(opsize * 8), false)
    | .general .popa => (opsize * 8, false)
    | .general .sub => (-operand, false)
    | .general .add => (operand, false)
    | _ => (0, false)

/-! ## Return addresses -/

/-- The bytes before a return address are a call. -/
def endsInCall : List Byte → Bool
  | [p0, p1, p2, p3, p4, p5, p6] =>
    p2 == 0xE8 ||
    (p1 == 0xFF && p2 &&& 0xF8 == 0x90 && p2 &&& 7 != 4) ||
    (p1 == 0xFF && p2 == 0x15) ||
    (p4 == 0xFF && p5 &&& 0xF8 == 0x50 && p5 &&& 7 != 4) ||
    (p0 == 0xFF && p1 == 0x94) ||
    (p3 == 0xFF && p4 == 0x54) ||
    (p4 == 0xFF && p5 == 0x14) ||
    (p5 == 0xFF && (p6 &&& 0xF8 == 0xD0 || (p6 &&& 0xF8 == 0x10 && p6 &&& 7 != 4 && p6 &&& 7 != 5)))
  | _ => false

/-- `DianaProcessor_IsAfterCall` -/
def isAfterCall (address : Value) : Bool :=
  if address < 7 then false
  else
    match W.stream.read s.mem (s.getValue (.seg .cs)) (address - 7) 7 .cs with
    | .ok bs => endsInCall bs
    | .error _ => false

/-- The loop of `AnalyzeStack`, `n` turns before its end. The status of a read that fails
is taken for success. -/
def analyzeStackFrom (rsp : Value) : Nat → Value → Option (Value × Value)
  | 0, _ => none
  | n + 1, ptr =>
    let size := BitVec.ofNat 64 W.currentAddressSize.bytes
    match s.readMem W.stream (s.getValue (.seg .ss)) ptr W.currentAddressSize .ss with
    | (_, some _) => some (0, rsp)
    | (value, none) =>
      if value = 0 then analyzeStackFrom rsp n (ptr + size)
      else
        match W.stream.read s.mem (s.getValue (.seg .ds)) (value - 5) 5 .ds with
        | .ok bs =>
          if bs.length = 5 ∧ bs.head? = some 0xE8 then some (value - 5, ptr + size)
          else analyzeStackFrom rsp n (ptr + size)
        | .error _ => analyzeStackFrom rsp n (ptr + size)

/-- `AnalyzeStack` -/
def analyzeStack (rsp diff : Value) : Option (Value × Value) :=
  analyzeStackFrom W s rsp 0x10 (rsp + if diff.msb then 0 else diff)

/-! ## The walk along the instructions -/

/-- The stack at an unconditional jump, where it may have been a tail call. -/
structure JumpSlot where
  slot : Value
  rbp : Value
  isRBPKnown : Bool

/-- The state of `DianaProcessor_QueryCurrentStack_Impl`; the latest jump comes first. -/
structure Walk (κ : Type) where
  i : Nat
  rip : Value
  rsp : Value
  diff : Value
  frameBase : Value
  knownRBP : Value
  isRBPKnown : Bool
  takenJumps : List Value
  jumpSlots : List JumpSlot
  context : κ
  streamPointer : Value
  frames : List Value

/-- `DIANA_STACK_WALK_TAKEN_JUMPS` -/
def takenJumpsMax : Nat := 64

/-- `DIANA_STACK_WALK_JUMP_SLOTS` -/
def jumpSlotsMax : Nat := 16

namespace Walk

/-- The stack pointer in the current function. -/
def stack (w : Walk κ) : Value := w.rsp + w.diff

/-- A value on the stack, of the size of the addresses of the current instruction. -/
def readStack (w : Walk κ) (address : Value) : Value × Option Status :=
  s.readMem W.stream (s.getValue (.seg .ss)) address (W.addressSize w.context) .ss

/-- The address size in bytes. -/
def slotSize (w : Walk κ) : Value := BitVec.ofNat 64 (W.addressSize w.context).bytes

/-- Decoding goes on at another address. -/
def goTo (w : Walk κ) (rip : Value) : Walk κ :=
  { w with rip := rip, streamPointer := rip, context := W.clearCache w.context }

/-- The next instruction. -/
def pass (w : Walk κ) (I : WalkInsn) :
    Walk κ := { w with rip := w.rip + BitVec.ofNat 64 I.insn.fullCmdSize }

/-- A function starts with the stack at `rsp`. -/
def startFrame (w : Walk κ) (rsp : Value) : Walk κ :=
  { w with rsp := rsp, frameBase := rsp, diff := 0, takenJumps := [], jumpSlots := [] }

/-- `report_return` -/
def reportReturn (w : Walk κ) (retSlot newRIP retSize : Value) : Walk κ :=
  { (w.startFrame (retSlot + w.slotSize W + retSize)).goTo W newRIP
    with frames := w.frames ++ [newRIP] }

/-- The return address in a slot of the stack, where there is one. -/
def returnAt (w : Walk κ) (retSlot : Value) : Option Value :=
  if retSlot < w.frameBase then none
  else
    match w.readStack W s retSlot with
    | (newRIP, none) => if isAfterCall W s newRIP then some newRIP else none
    | (_, some _) => none

/-- `frame_failed`: the slots that may hold the return address, one after the other. -/
def frameFailed (w : Walk κ) (retSize retSlot : Value) : List JumpSlot → Walk κ ⊕ WalkResult
  | [] =>
    match w.returnAt W s retSlot with
    | some newRIP => .inl (w.reportReturn W retSlot newRIP retSize)
    | none => .inr (.error .error, w.frames)
  | j :: slots =>
    match w.returnAt W s retSlot with
    | some newRIP => .inl (w.reportReturn W retSlot newRIP retSize)
    | none =>
      { w with knownRBP := j.rbp, isRBPKnown := j.isRBPKnown }.frameFailed retSize j.slot slots

def failed (w : Walk κ) : Walk κ ⊕ WalkResult := w.frameFailed W s 0 w.stack w.jumpSlots

/-- What `pop rbp` and `mov rbp, rsp` make of RBP. -/
def trackRBP (w : Walk κ) (I : WalkInsn) : Walk κ :=
  match I.insn.command, I.insn.operands with
  | .general .pop, [⟨.register r, _, _⟩] =>
    if isFrameRegister r then
      match w.readStack W s w.stack with
      | (v, none) => { w with knownRBP := v, isRBPKnown := true }
      | (v, some _) => { w with knownRBP := v, isRBPKnown := false }
    else w
  | .general .mov, [⟨.register r, _, _⟩, ⟨.register r', _, _⟩] =>
    if isFrameRegister r ∧ isStackRegister r' then
      { w with knownRBP := w.stack, isRBPKnown := true } else w
  | _, _ => w

/-- `int`: a call in the stack that may have led here. -/
def interrupt (w : Walk κ) : Walk κ ⊕ WalkResult :=
  match analyzeStack W s w.rsp w.diff with
  | some (newRIP, newRSP) => .inl ((w.startFrame newRSP).goTo W newRIP)
  | none => w.failed W s

/-- `leave` with a known RBP. -/
def leave (w : Walk κ) (I : WalkInsn) : Walk κ ⊕ WalkResult :=
  match w.readStack W s w.knownRBP with
  | (savedRBP, none) =>
    .inl ({ w with rsp := w.knownRBP + w.slotSize W, diff := 0, knownRBP := savedRBP }.pass I)
  | (_, some _) => w.failed W s

/-- `ret` and the jump into 64-bit code. -/
def ret (w : Walk κ) (I : WalkInsn) : Walk κ ⊕ WalkResult :=
  let retSize : Value :=
    match I.insn.command, I.insn.operands with
    | .general .ret, [⟨.imm v, _, _⟩] => (v.setWidth 32).signExtend 64
    | _, _ => 0
  match w.readStack W s w.stack with
  | (newRIP, none) =>
    if ¬ isWoW64 I ∧ (w.stack < w.frameBase ∨ ¬ isAfterCall W s newRIP) then w.failed W s
    else .inl (w.reportReturn W w.stack newRIP retSize)
  -- `retSize` is kept for the slot that is found instead
  | (_, some _) => w.frameFailed W s retSize w.stack w.jumpSlots

/-- A jump that is followed. -/
def jump (w : Walk κ) (I : WalkInsn) (newRIP : Value) : Walk κ :=
  let w' : Walk κ :=
    if I.isJmp then
      if w.jumpSlots.length < jumpSlotsMax then
        { w with jumpSlots := ⟨w.stack, w.knownRBP, w.isRBPKnown⟩ :: w.jumpSlots }
      else w
    else if w.takenJumps.length < takenJumpsMax then
      { w with takenJumps := w.takenJumps ++ [w.rip] }
    else w
  w'.goTo W newRIP

/-- An instruction the walk passes. -/
def straight (w : Walk κ) (I : WalkInsn) : Walk κ :=
  let (diff, isCall) := stackDiff I
  let diff :=
    if isCall then
      ((analyzeCallJmp W s I w.rip).bind (queryFunctionDiff W s)).getD 0
    else diff
  { w with diff := w.diff + diff }.pass I

/-- The body of the loop. -/
def body (w : Walk κ) : Walk κ ⊕ WalkResult :=
  match W.parse s w.context w.streamPointer with
  | (.error _, context, streamPointer) => { w with context, streamPointer }.failed W s
  | (.ok I, context, streamPointer) =>
    let w := { w with context, streamPointer }
    if I.isInt then w.interrupt W s
    else
      let w := if isWoW64 I then { w with diff := 0 } else w
      if I.insn.command = .general .leave ∧ w.isRBPKnown then w.leave W s I
      else
        let w := w.trackRBP W s I
        if isWoW64 I ∨ I.insn.command = .general .ret then w.ret W s I
        else if I.isJump then
          match analyzeCallJmp W s I w.rip with
          | none =>
            if I.isJmp then w.failed W s else .inl (w.straight W s I)
          | some newRIP =>
            if I.isJmp ∨ (w.rip < newRIP ∧ w.rip ∉ w.takenJumps) then .inl (w.jump W I newRIP)
            else .inl (w.straight W s I)
        else .inl (w.straight W s I)

end Walk

/-- One turn of `DianaProcessor_QueryCurrentStack_Impl`. -/
def scanTurn (w : Walk κ) : Walk κ ⊕ WalkResult :=
  if w.i < scanSize then { w with i := w.i + 1 }.body W s else .inr (.error .ended, w.frames)

/-- The start of the walk. -/
def startWalk (rip rsp : Value) : Walk κ where
  i := 0
  rip := rip
  rsp := rsp
  diff := 0
  frameBase := rsp
  knownRBP := s.getValue .rbp
  isRBPKnown := s.getValue .rbp != 0
  takenJumps := []
  jumpSlots := []
  context := W.initContext
  streamPointer := rip
  frames := []

/-- `DianaProcessor_QueryCurrentStack_Impl`, for `fuel` turns at most. -/
def queryCurrentStackImpl (fuel : Nat) (rip rsp : Value) : Option WalkResult :=
  (runFrom (fun _ => scanTurn W s) 0 fuel (startWalk W s rip rsp)).getRight?

/-! ## The walk along the frame pointers -/

/-- A frame: the saved EBP, and a return address that can be read. -/
def readFrame (ebp : Value) : Except Status (Value × Value) :=
  match W.stream.read s.mem (s.getValue (.seg .ss)) ebp 8 .ss with
  | .error e => .error e
  | .ok frame =>
    if frame.length ≠ 8 then .error .error
    else
      let returnAddress := leValue (frame.drop 4)
      match s.readMem W.stream (s.getValue (.seg .cs)) returnAddress W.currentAddressSize .ss with
      | (_, some e) => .error e
      | (_, none) => .ok (leValue (frame.take 4), returnAddress)

/-- The saved EBP of the frame at an address, where there is a frame. -/
def savedEbp (ebp : Value) : Option Value :=
  match readFrame W s ebp with
  | .ok (saved, _) => some saved
  | .error _ => none

/-- One turn of `DianaProcessor_QueryCurrentStack_EBP_32`. -/
def ebpTurn : Value × List Value → (Value × List Value) ⊕ WalkResult
  | (currentEbp, frames) =>
    match readFrame W s currentEbp with
    | .ok (saved, returnAddress) => .inl (saved, frames ++ [returnAddress])
    | .error e => .inr (.error e, frames)

/-- `DianaProcessor_QueryCurrentStack_EBP_32`, for `fuel` turns at most. -/
def queryCurrentStackEbp32 (fuel : Nat) : Option WalkResult :=
  (runFrom (fun _ => ebpTurn W s) 0 fuel (s.getValue .rbp, [])).getRight?

/-- `DianaProcessor_QueryCurrentStack`, with `fuel` turns for each loop. -/
def queryCurrentStack (fuel : Nat) : Option WalkResult :=
  let walked :=
    if s.mode.addressSize = .dword then queryCurrentStackEbp32 W s fuel
    else queryCurrentStackImpl W s fuel (s.getValue .rip) (s.getValue .rsp)
  match walked with
  | none => none
  | some r =>
    -- try saved information
    if r.2 = [] ∧ s.lastCallRSP ≠ 0 then queryCurrentStackImpl W s fuel s.lastCallRIP s.lastCallRSP
      else some r

/-! ## The walk along the instructions ends -/

variable {W : Walker μ κ} {s : Proc μ}

namespace Walk

variable {w : Walk κ}

/-- What the body of the loop makes of the walk: the counter is left alone, and one frame is
reported at most. -/
def Bounded (w : Walk κ) : Walk κ ⊕ WalkResult → Prop
  | .inl w' => w'.i = w.i ∧ w'.frames.length ≤ w.frames.length + 1
  | .inr r => r.2 = w.frames

theorem bounded_of_kept {w' : Walk κ} (hi : w'.i = w.i) (hframes : w'.frames = w.frames) :
    w.Bounded (.inl w') :=
  ⟨hi, by rw [hframes]; exact Nat.le_succ _⟩

theorem bounded_reportReturn (retSlot newRIP retSize : Value) :
    w.Bounded (.inl (w.reportReturn W retSlot newRIP retSize)) :=
  ⟨rfl, by simp [reportReturn, goTo, startFrame]⟩

theorem bounded_frameFailed (slots : List JumpSlot) (retSize retSlot : Value) :
    w.Bounded (w.frameFailed W s retSize retSlot slots) := by
  induction slots generalizing w retSlot with
  | nil =>
    unfold frameFailed
    cases w.returnAt W s retSlot with
    | some newRIP => exact bounded_reportReturn _ _ _
    | none => rfl
  | cons j slots ih =>
    unfold frameFailed
    cases w.returnAt W s retSlot with
    | some newRIP => exact bounded_reportReturn _ _ _
    | none => exact ih (w := { w with knownRBP := j.rbp, isRBPKnown := j.isRBPKnown }) j.slot

theorem bounded_failed : w.Bounded (w.failed W s) := bounded_frameFailed _ _ _

theorem bounded_interrupt : w.Bounded (w.interrupt W s) := by
  unfold interrupt
  cases analyzeStack W s w.rsp w.diff with
  | some found => exact bounded_of_kept rfl rfl
  | none => exact bounded_failed

theorem bounded_leave (I : WalkInsn) : w.Bounded (w.leave W s I) := by
  unfold leave
  split
  · exact bounded_of_kept rfl rfl
  · exact bounded_failed

theorem bounded_ret (I : WalkInsn) : w.Bounded (w.ret W s I) := by
  unfold ret
  dsimp only
  split
  · split
    · exact bounded_failed
    · exact bounded_reportReturn _ _ _
  · exact bounded_frameFailed _ _ _

theorem trackRBP_kept (I : WalkInsn) :
    (w.trackRBP W s I).i = w.i ∧ (w.trackRBP W s I).frames = w.frames := by
  unfold trackRBP
  split
  · split
    · split <;> exact ⟨rfl, rfl⟩
    · exact ⟨rfl, rfl⟩
  · split <;> exact ⟨rfl, rfl⟩
  · exact ⟨rfl, rfl⟩

theorem bounded_jump (I : WalkInsn) (newRIP : Value) : w.Bounded (.inl (w.jump W I newRIP)) := by
  unfold jump
  refine bounded_of_kept ?_ ?_ <;> (dsimp only; split <;> split <;> rfl)

theorem bounded_straight (I : WalkInsn) :
    w.Bounded (.inl (w.straight W s I)) := bounded_of_kept rfl rfl

/-- What is bounded from a state with the same counter and frames. -/
theorem Bounded.of_kept {w' : Walk κ} {r : Walk κ ⊕ WalkResult} (h : w'.Bounded r) (hi : w'.i = w.i)
    (hframes : w'.frames = w.frames) : w.Bounded r := by
  cases r with
  | inl w'' => exact ⟨h.1.trans hi, hframes ▸ h.2⟩
  | inr r => exact Eq.trans h hframes

theorem bounded_body : w.Bounded (w.body W s) := by
  unfold body
  split
  · exact bounded_failed.of_kept rfl rfl
  · rename_i I context streamPointer _
    dsimp only
    split
    · exact bounded_interrupt.of_kept rfl rfl
    · generalize hd : (if isWoW64 I = true then
        ({ w with context, streamPointer, diff := 0 } : Walk κ)
          else { w with context, streamPointer }) = v
      have hv : v.i = w.i ∧ v.frames = w.frames := by
        rw [← hd]
        split <;> exact ⟨rfl, rfl⟩
      refine Bounded.of_kept ?_ hv.1 hv.2
      split
      · exact bounded_leave I
      · have ht := trackRBP_kept (W := W) (s := s) (w := v) I
        refine Bounded.of_kept ?_ ht.1 ht.2
        split
        · exact bounded_ret I
        · split
          · split
            · split
              · exact bounded_failed
              · exact bounded_straight I
            · split
              · exact bounded_jump I _
              · exact bounded_straight I
          · exact bounded_straight I

end Walk

/-- The walk along the instructions ends, with at most one frame for each instruction. -/
theorem scan_left (rip rsp : Value) :
    ∃ n r, runFrom (fun _ => scanTurn W s) 0 n (startWalk W s rip rsp) = .inr r ∧
    r.2.length ≤ scanSize := by
  -- no more frames than turns so far
  have hturn : ∀ (w : Walk κ) (r : Walk κ ⊕ WalkResult), w.frames.length ≤ w.i → w.i ≤ scanSize →
      scanTurn W s w = r → match r with
        | .inl w' => w'.frames.length ≤ w'.i ∧ w'.i ≤ scanSize ∧ w'.i = w.i + 1
        | .inr r => r.2.length ≤ scanSize := by
    intro w r hframes hi hr
    unfold scanTurn at hr
    by_cases hlt : w.i < scanSize
    · rw [if_pos hlt] at hr
      have hb := Walk.bounded_body (W := W) (s := s) (w := { w with i := w.i + 1 })
      rw [hr] at hb
      cases r with
      | inl w' =>
        obtain ⟨hi', hf'⟩ := hb
        change w'.i = w.i + 1 at hi'
        change w'.frames.length ≤ w.frames.length + 1 at hf'
        exact ⟨by omega, by omega, hi'⟩
      | inr r =>
        change r.2 = w.frames at hb
        change r.2.length ≤ scanSize
        rw [hb]
        exact hframes.trans hi
    · rw [if_neg hlt] at hr
      cases hr
      exact hframes.trans hi
  have hstart : (startWalk W s rip rsp).frames.length ≤ (startWalk W s rip rsp).i ∧
      (startWalk W s rip rsp).i ≤ scanSize := ⟨Nat.le_refl 0, Nat.zero_le _⟩
  have hstep : ∀ (k : Nat) (w w' : Walk κ), w.frames.length ≤ w.i ∧ w.i ≤ scanSize →
    scanTurn W s w = .inl w' →
      w'.frames.length ≤ w'.i ∧ w'.i ≤ scanSize := by
    intro k w w' hw h
    obtain ⟨hf, hi, -⟩ := hturn w _ hw.1 hw.2 h
    exact ⟨hf, hi⟩
  have hlt : ∀ (k : Nat) (w w' : Walk κ), w.frames.length ≤ w.i ∧ w.i ≤ scanSize →
    scanTurn W s w = .inl w' →
      scanSize - w'.i < scanSize - w.i := by
    intro k w w' hw h
    obtain ⟨-, hle, hi⟩ := hturn w _ hw.1 hw.2 h
    omega
  obtain ⟨n, r, hrun⟩ : ∃ n r,
      runFrom (fun _ => scanTurn W s) 0 n (startWalk W s rip rsp) = .inr r :=
    exists_runFrom_inr Nat.lt_wfRel.wf (fun w => scanSize - w.i) hstep hlt hstart
  refine ⟨n, r, hrun, ?_⟩
  obtain ⟨m, w, -, hm, hlast⟩ := exists_last hrun
  obtain ⟨hf, hi⟩ := runFrom_inv hstep hstart hm
  exact hturn w _ hf hi hlast

theorem impl_returns (rip rsp : Value) :
    ∃ n r, ∀ k, queryCurrentStackImpl W s (n + k) rip rsp = some r := by
  obtain ⟨n, r, hrun, -⟩ := scan_left (W := W) (s := s) rip rsp
  refine ⟨n, r, fun k => ?_⟩
  unfold queryCurrentStackImpl
  rw [runFrom_inr_mono hrun k]
  rfl

/-! ## When the walk ends -/

/-- The loop along the frame pointers is left just where they are not cyclic. -/
theorem ebp32_returns_iff :
    (∃ n r, queryCurrentStackEbp32 W s n = some r) ↔ ¬ Cyclic (savedEbp W s) (s.getValue .rbp) := by
  have hgo : ∀ w w', ebpTurn W s w = .inl w' → savedEbp W s w.1 = some w'.1 := by
    rintro ⟨ebp, frames⟩ w' h
    unfold ebpTurn at h
    unfold savedEbp
    dsimp only at h ⊢
    split at h
    · cases h
      rfl
    · cases h
  have hout : ∀ w r, ebpTurn W s w = .inr r → savedEbp W s w.1 = none := by
    rintro ⟨ebp, frames⟩ r h
    unfold ebpTurn at h
    unfold savedEbp
    dsimp only at h ⊢
    split at h
    · cases h
    · rfl
  rw [← left_iff_not_cyclic Prod.fst hgo hout (s.getValue .rbp, [])]
  unfold queryCurrentStackEbp32
  constructor
  · rintro ⟨n, r, h⟩
    exact ⟨n, r, Sum.getRight?_eq_some_iff.1 h⟩
  · rintro ⟨n, r, h⟩
    exact ⟨n, r, Sum.getRight?_eq_some_iff.2 h⟩

/-- The walk returns outside of 32-bit mode, and in 32-bit mode just where the saved frame pointers
do not come back. -/
theorem walk_returns_iff :
    (∃ fuel r, queryCurrentStack W s fuel = some r) ↔
      (s.mode.addressSize = .dword → ¬ Cyclic (savedEbp W s) (s.getValue .rbp)) := by
  constructor
  · rintro ⟨fuel, r, h⟩ hmode
    rw [← ebp32_returns_iff]
    unfold queryCurrentStack at h
    rw [if_pos hmode] at h
    cases hw : queryCurrentStackEbp32 W s fuel with
    | none =>
      rw [hw] at h
      cases h
    | some r' => exact ⟨fuel, r', hw⟩
  · intro hcyclic
    -- the first walk, from some number of turns on
    have hfirst : ∃ n r, ∀ k,
        (if s.mode.addressSize = .dword then queryCurrentStackEbp32 W s (n + k)
          else queryCurrentStackImpl W s (n + k) (s.getValue .rip) (s.getValue .rsp)) = some r := by
      by_cases hmode : s.mode.addressSize = .dword
      · obtain ⟨n, r, hrun⟩ := ebp32_returns_iff.2 (hcyclic hmode)
        refine ⟨n, r, fun k => ?_⟩
        rw [if_pos hmode]
        unfold queryCurrentStackEbp32 at hrun ⊢
        rw [runFrom_inr_mono (Sum.getRight?_eq_some_iff.1 hrun) k]
        rfl
      · obtain ⟨n, r, hrun⟩ := impl_returns (W := W) (s := s) (s.getValue .rip) (s.getValue .rsp)
        refine ⟨n, r, fun k => ?_⟩
        rw [if_neg hmode]
        exact hrun k
    obtain ⟨n, r, hn⟩ := hfirst
    obtain ⟨m, r', hm⟩ := impl_returns (W := W) (s := s) s.lastCallRIP s.lastCallRSP
    have hm' : queryCurrentStackImpl W s (n + m) s.lastCallRIP s.lastCallRSP = some r' := by
      rw [Nat.add_comm]
      exact hm n
    refine ⟨n + m, if r.2 = [] ∧ s.lastCallRSP ≠ 0 then r' else r, ?_⟩
    unfold queryCurrentStack
    rw [hn m]
    dsimp only
    by_cases hagain : r.2 = [] ∧ s.lastCallRSP ≠ 0
    · rw [if_pos hagain, if_pos hagain, hm']
    · rw [if_neg hagain, if_neg hagain]

/-- A frame whose saved EBP is its own address: 32-bit code, EBP = 0x1000 and [0x1000] = 0x1000. -/
def loopedFrame : Proc (Value → Byte) :=
  (Proc.init ⟨false, .dword, .dword⟩ fun offset => if offset = 0x1001 then 0x10
    else 0).setValue .rbp 0x1000

/-- Flat memory, and a decoder that knows no instruction: no 32-bit walk asks for one here. -/
def flatWalker : Walker (Value → Byte) Unit where
  stream := flatStream
  initContext := ()
  clearCache := id
  addressSize _ := .dword
  parse _ _ pointer := (.error .error, (), pointer)
  currentAddressSize := .dword

theorem not_returns : ¬ ∀ s, ∃ fuel r, queryCurrentStack flatWalker s fuel = some r := by
  intro h
  refine walk_returns_iff.1 (h loopedFrame) rfl ⟨0, 1, 0x1000, ?_, Nat.one_pos, ?_⟩
  · decide +kernel
  · decide +kernel

end Diana.Processor
