import Diana.Processor.Commands

/-!
# One step of the emulator

`DianaProcessor_ExecOnce`: fire points, the fetch position, the decoder, the command under its
prefix, and the resynchronisation of the fetch position afterwards. The decoder is a parameter of
the step here, as a tree of the reads it asks for; the handlers outside the general-purpose set are
one too.
-/

namespace Diana.Processor

open Diana.Lib

variable {μ : Type}

/-! ## Commands under a prefix -/

/-- `m_stateFlags &= ~flags` -/
def StateFlags.remove (f g : StateFlags) : StateFlags where
  tempRipIsValid := f.tempRipIsValid && !g.tempRipIsValid
  ripChanged := f.ripChanged && !g.ripChanged
  updateFlagsPsz := f.updateFlagsPsz && !g.updateFlagsPsz
  cmdUsesNormalRep := f.cmdUsesNormalRep && !g.cmdUsesNormalRep

/-- What `Call` does after its command, whether it failed or not. -/
def Proc.removeFlags (s : Proc μ) : Proc μ :=
  { s with
    stateFlags := s.stateFlags.remove s.stateFlagsToRemove
    stateFlagsToRemove := .none }

/-- A change of the state at every exit of `x`. -/
def atExit (f : Proc μ → Proc μ) (x : Exec μ Unit) : Exec μ Unit := fun s =>
  match x s with
  | .ok a t => .ok a (f t)
  | .error e t => .error e (f t)

/-- `Call` -/
def call (command : Exec μ Unit) : Exec μ Unit := atExit Proc.removeFlags command

/-- The counter of a REP loop. -/
def repRegister : Size → Option Register
  | .qword => some (.r64 1)
  | .dword => some (.r32 1)
  | .word => some (.r16 1)
  | .byte => none

/-- The loop of `CallWithRep`, followed for at most `fuel` turns. -/
def repLoop (command : Exec μ Unit) (repn : Bool) (usedReg : Register) : Nat → Exec μ Unit
  | 0 => throw .unfinished
  | fuel + 1 => do
    let s ← get
    if s.getValue usedReg = 0 then return
    call command
    let s ← get
    if s.stateFlags.ripChanged then return
    modify fun s => s.setValue .rcx (s.getValue .rcx - 1)
    let s ← get
    if repn then
      if queryFlag s.flags flagZF then return
    else
      if ¬ s.stateFlags.cmdUsesNormalRep ∧ ¬ queryFlag s.flags flagZF then return
    repLoop command repn usedReg fuel

/-- `CallWithRep` -/
def callWithRep (fuel : Nat) (I : Insn) (command : Exec μ Unit) (repn : Bool) : Exec μ Unit :=
  if I.command.isString then
    match repRegister I.addressSize with
    | none => throw (.command .error)
    | some usedReg => repLoop command repn usedReg fuel
  else call command

/-- The commands a LOCK prefix may stand before. -/
def Insn.takesLock (I : Insn) : Bool :=
  I.lockable && match I.operands with
    | ⟨.index _, _, _⟩ :: _ => true
    | ⟨.memory _, _, _⟩ :: _ => true
    | _ => false

/-- The switch of `DianaProcessor_ExecOnce` on `iPrefix`. -/
def callPrefixed (fuel : Nat) (I : Insn) (command : Exec μ Unit) : Exec μ Unit :=
  match I.iPrefix with
  | .rep => callWithRep fuel I command false
  | .repn => callWithRep fuel I command true
  | .lock => if I.takesLock then call command else throw (.command .invalidOpcode)
  | .none => call command

/-! ## MMX -/

def LinkedOperand.isMM (op : LinkedOperand) : Bool :=
  match op.value with
  | .register (.mm _) => true
  | _ => false

/-- The registers of the x87 stack marked in use. -/
def Fpu.mmxMode (f : Fpu) : Fpu where
  controlWord := f.controlWord
  statusWord := f.statusWord &&& ~~~0x3800#16
  registerFlags i := f.registerFlags i ||| 1

/-- The exponent of an MMX register that was written is all ones. -/
def Proc.setExponent (s : Proc μ) (I : Insn) : Proc μ :=
  match I.registerOperand 0 with
  | some (.mm i) =>
    if I.command = .maskmovq then s
    else { s with regs := s.regs.set (.mmInternal i.rev) 64 16 0xFFFF }
  | _ => s

/-- `Diana_FPU_MmxTransition` -/
def Proc.mmxTransition (s : Proc μ) (I : Insn) : Proc μ :=
  if I.operands.any LinkedOperand.isMM then
    { s with fpu := s.fpu.mmxMode }.setExponent I
  else s

/-! ## The decoder -/

/-- `Diana_ParseCmd`, as far as its stream and its cache go: it reads, each time at most `size`
bytes, and then has its result and leaves the cache to the next call. The size of the instruction
is not in that result yet. -/
inductive Decoding where
  | read (size : Nat) (next : Except Status (List Byte) → Decoding)
  | done (result : Except Status Insn) (cache : List Byte)

namespace Decoding

/-- Where the decoder succeeds, it leaves the end of the bytes it was given in the cache. -/
def Leaves : Decoding → (given : List Byte) → Prop
  | read _ next, given =>
    (∀ bs, (next (.ok bs)).Leaves (given ++ bs)) ∧ ∀ e, (next (.error e)).Leaves given
  | done (.ok _) cache, given => cache <:+ given
  | done (.error _) _, _ => True

/-- The decoder on the code stream (`ProcessorReadStream`), which goes on from `m_tempRIP`: the
result, the bytes that were read and the state behind them. -/
def run (S : MemoryStream μ) : Decoding → Proc μ → Except Status Insn × List Byte × Proc μ
  | done result cache, s => (result, [], { s with lookahead := cache })
  | read size next, s =>
    match S.read s.mem (s.getValue (.seg .cs)) s.tempRIP size .cs with
    | .error e => (next (.error e)).run S s
    | .ok bs =>
      let r := (next (.ok bs)).run S { s with tempRIP := s.tempRIP + BitVec.ofNat 64 bs.length }
      (r.1, bs ++ r.2.1, r.2.2)

end Decoding

/-- `m_result`: the instruction and the bytes it was decoded from. -/
structure ParserResult where
  insn : Insn
  bytes : List Byte

/-- `DI_MAX_INSTRUCTION_SIZE` -/
def maxInstructionSize : Nat := 15

/-- `Diana_ParseCmd` on the code stream. The instruction is what is gone from the cache and from the
stream. -/
def parseCmd (S : MemoryStream μ) (decoder : List Byte → Decoding) : Exec μ ParserResult := fun s =>
  match (decoder s.lookahead).run S s with
  | (.error e, _, t) => .error (.command e) t
  | (.ok I, bytes, t) =>
    let size := s.lookahead.length + bytes.length - t.lookahead.length
    if maxInstructionSize < size then .error (.command .error) t
    else .ok ⟨{ I with fullCmdSize := size }, (s.lookahead ++ bytes).take size⟩ t

/-! ## The step -/

/-- What a processor is set up with. -/
structure Env (μ : Type) where
  stream : MemoryStream μ
  /-- The decoder, with what is in its cache. -/
  decoder : List Byte → Decoding
  decoder_leaves : ∀ cache, (decoder cache).Leaves cache
  /-- The handlers outside the general-purpose set, `none` for what is not supported. -/
  others : Insn → Option (Exec μ Unit)
  /-- `m_firePoints` -/
  firePoints : List (Value × (Proc μ → Proc μ))
  /-- `m_customProvider` -/
  customProvider : Option (Insn → Exec μ (Option (Exec μ Unit)))

namespace Env

variable (E : Env μ)

/-- The handler of an instruction (`DIANA_QUERY_PROCESSOR_TAG`). -/
def handler (I : Insn) : Option (Exec μ Unit) :=
  if I.isEvex then E.others I
  else
    match I.command with
    | .general c => some (callGeneral E.stream I c)
    | _ => E.others I

/-- The actions of the fire points at `rip`. -/
def fire (rip : Value) (s : Proc μ) : Proc μ :=
  E.firePoints.foldl (fun s p => if p.1 = rip then p.2 s else s) s

/-- The state the decoder starts from. -/
def startFetch (s : Proc μ) : Proc μ :=
  let s :=
    if s.stateFlags.tempRipIsValid then s
    else { s with
      tempRIP := s.getValue .rip
      stateFlags := { s.stateFlags with tempRipIsValid := true } }
  { s with stateFlags := { s.stateFlags with ripChanged := false } }

/-- The command the custom rules give, if they give one. -/
def queryCustom (I : Insn) : Exec μ (Option (Exec μ Unit)) :=
  match E.customProvider with
  | some provider => provider I
  | none => pure none

/-- The command to run, the custom rules applied. -/
def queryCommand (I : Insn) : Exec μ (Exec μ Unit) := do
  let custom ← E.queryCustom I
  match custom <|> E.handler I with
  | some command => pure command
  | none => throw (.command .unsupportedCommand)

/-- The fetch position is to be taken from RIP again. -/
def resync (s : Proc μ) : Proc μ :=
  { s with
    stateFlags := { s.stateFlags with tempRipIsValid := false, ripChanged := false }
    lookahead := [] }

def clearNormalRep (s : Proc μ) : Proc μ :=
  { s with stateFlags := { s.stateFlags with cmdUsesNormalRep := false } }

/-- `DianaProcessor_ExecOnce` from its command on; `rip` is the address of the instruction. -/
def runCommand (fuel : Nat) (rip : Value) (I : Insn) (command : Exec μ Unit) : Exec μ Unit :=
  fun s =>
    match callPrefixed fuel I command s with
    | .error e t => .error e (resync (clearNormalRep t))
    | .ok _ t =>
      let t := clearNormalRep (t.mmxTransition I)
      .ok () (if t.stateFlags.ripChanged then resync t
        else t.setValueEx none .rip (rip + BitVec.ofNat 64 I.fullCmdSize) .qword)

/-- `DianaProcessor_ExecOnce`. The exits before the command leave the fetch position as it is. -/
def execOnce (fuel : Nat) : Exec μ Unit := do
  modify fun s => E.fire (s.getValue .rip) s
  let s ← get
  let rip := s.getValue .rip
  modify startFetch
  let result ← parseCmd E.stream E.decoder
  let command ← E.queryCommand result.insn
  runCommand fuel rip result.insn command

end Env

end Diana.Processor
