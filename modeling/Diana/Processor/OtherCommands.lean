import Diana.Processor.Decimal
import Diana.Processor.Extensions
import Diana.Processor.FlagCommands
import Diana.Processor.Jumps
import Diana.Processor.Steps
import Diana.Processor.StringCommands

/-!
# The other commands

The handlers beside those of the general-purpose set: the control transfers, the string commands,
the flags, the decimal corrections and the extensions of `diana_processor_cmd_ext.c`. They are made
of the same steps.

* `OtherCommand.call`: the handlers;
* `otherCommand_steps`: they are made of steps.
-/

namespace Diana.Processor

open Diana.Lib Relation

variable {μ : Type} (S : MemoryStream μ) (I : Insn)

inductive OtherCommand where
  | branch (b : Branch)
  | string (c : StringCommand) (seg : SegReg)
  | lahf | sahf | cli | daa | das
  | popcnt
  | countZeros (leading : Bool)
  | andn | bextr
  | bls (operation : BlsOperation)
  | bzhi | mulx
  | bits (deposit : Bool)
  | rorx
  | shiftX (operation : ShiftOperation)
  | crc32 | movbe
  | addCarry (overflowFlag : Bool)
  deriving DecidableEq

def OtherCommand.call : OtherCommand → Exec μ Unit
  | branch b => b.handler S I
  | string c seg => c.call S I seg
  | lahf => callLahf
  | sahf => callSahf
  | cli => callCli
  | daa => callDaa
  | das => callDas
  | popcnt => callPopcnt S I
  | countZeros leading => callCountZeros S I leading
  | andn => callAndn S I
  | bextr => callBextr S I
  | bls operation => callBls S I operation
  | bzhi => callBzhi S I
  | mulx => callMulx S I
  | bits deposit => callBitsDepositExtract S I deposit
  | rorx => callRorx S I
  | shiftX operation => callShiftX S I operation
  | crc32 => callCrc32 S I
  | movbe => callMovbe S I
  | addCarry overflowFlag => callAddCarry S I overflowFlag

/-! ## Control transfers -/

theorem jccImpl_steps (opCount relOp : Nat) :
    Keeps Steps (jccImpl I opCount relOp : Exec μ Unit) := by
  unfold jccImpl
  refine Keeps.ite (Keeps.throw _) ?_
  split
  · exact Keeps.modify fun s => .single (.register s _ _ _)
  · exact Keeps.throw _

theorem callJcc_steps (c : Condition) : Keeps Steps (callJcc I c : Exec μ Unit) := by
  rw [callJcc_eq]
  exact Keeps.get.bind fun s => Keeps.ite (jccImpl_steps I _ _) (Keeps.pure _)

theorem callLoopOf_steps (c : LoopCondition) : Keeps Steps (callLoopOf I c : Exec μ Unit) := by
  rw [callLoopOf_eq]
  refine Keeps.get.bind fun s =>
    Keeps.bind (Keeps.modify fun s => .single (.register s _ _ _)) fun _ => ?_
  exact Keeps.get.bind fun s => Keeps.ite (jccImpl_steps I _ _) (Keeps.pure _)

theorem callJecxz_steps : Keeps Steps (callJecxz S I) := by
  unfold callJecxz
  exact (getOperand_steps S I 0).bind fun _ => Keeps.ite (jccImpl_steps I _ _) (Keeps.pure _)

theorem callJmp_steps : Keeps Steps (callJmp S I) := by
  have htarget : Keeps Steps (jmpTarget S I) := by
    unfold jmpTarget
    refine Keeps.get.bind fun s => ?_
    split
    · exact Keeps.pure _
    · exact callTarget_steps S I
  unfold callJmp
  refine htarget.bind fun (newRIP, newSegment) => (setRegs_steps _).bind fun _ => ?_
  split
  · exact setRegs_steps _
  · exact Keeps.pure _

theorem branch_steps (b : Branch) : Keeps Steps (b.handler S I) := by
  cases b with
  | jmp => exact callJmp_steps S I
  | call => exact callCall_steps S I
  | jecxz => exact callJecxz_steps S I
  | jcc c => exact callJcc_steps I c
  | loop c => exact callLoopOf_steps I c

/-! ## String commands -/

theorem setValue_steps (r : Register) (v : Value) :
    Keeps Steps (modify fun t => t.setValue r v : Exec μ Unit) :=
  Keeps.modify fun s => steps_setValue s r v

theorem element_steps : Element (@Steps μ) where
  flags s f := .single (.flags s f)
  memory s mem := .single (.memory s mem)
  register s r _ _ v size := .single (.register s r v size)
  updatePSZ := steps_updatePSZ

theorem stringCommand_steps (c : StringCommand) (seg : SegReg) : Keeps Steps (c.call S I seg) := by
  have hmark : ∀ s : Proc μ, Steps s (c.mark s) := by
    intro s
    unfold StringCommand.mark
    split
    · exact .single (.normalRep s)
    · exact .refl
  intro s
  unfold Post
  rw [c.call_apply]
  have h := body_keeps (S := S) (I := I) element_steps c seg (c.mark s)
  unfold Post at h
  revert h
  cases c.body S I seg (c.mark s) <;> exact (hmark s).trans

/-! ## Decimal corrections -/

theorem callDaa_steps : Keeps Steps (callDaa : Exec μ Unit) := by
  unfold callDaa
  refine Keeps.get.bind fun s => (modifyFlags_steps _).bind fun _ => ?_
  refine (updateFlagsPsz_steps (setValue_steps _ _)).bind fun _ => ?_
  exact (modifyFlags_steps _).bind fun _ => modifyFlags_steps _

theorem callDas_steps : Keeps Steps (callDas : Exec μ Unit) := by
  unfold callDas
  refine Keeps.get.bind fun s => (modifyFlags_steps _).bind fun _ => ?_
  refine (updateFlagsPsz_steps (setValue_steps _ _)).bind fun _ => ?_
  exact (modifyFlags_steps _).bind fun _ => modifyFlags_steps _

/-! ## Extensions -/

/-- The operands from the second one on, and the rest of the handler. -/
theorem sources_steps {f : Value × Size → Value × Size → Exec μ Unit}
    (hf : ∀ p q, Keeps Steps (f p q)) :
    Keeps Steps (getOperand S I 0 >>= fun p => getOperand S I 1 >>= fun q => f p q) :=
  (getOperand_steps S I 0).bind fun p => (getOperand_steps S I 1).bind fun q => hf p q

/-- Flags, and the result in the destination. -/
theorem result_steps (flags : Value → Value) (v : Value) :
    Keeps Steps (modifyFlags flags >>= fun _ => setOperand S I 0 v) :=
  (modifyFlags_steps flags).bind fun _ => setOperand_steps S I 0 v

theorem callMulx_steps : Keeps Steps (callMulx S I) := by
  refine sources_steps S I fun _ _ => (getOperand_steps S I 2).bind fun _ =>
    Keeps.get.bind fun s => ?_
  exact (setOperand_steps S I 1 _).bind fun _ => setOperand_steps S I 0 _

/-! ## Every handler -/

/-- The other handlers are made of steps, too. -/
theorem otherCommand_steps (c : OtherCommand) : Keeps Steps (c.call S I) := by
  cases c with
  | branch b => exact branch_steps S I b
  | string c seg => exact stringCommand_steps S I c seg
  | lahf => exact Keeps.modify fun s => steps_setValue s _ _
  | sahf => exact Keeps.modify fun s => .single (.flags s _)
  | cli => exact modifyFlags_steps fun f => clearFlag f flagIF
  | daa => exact callDaa_steps
  | das => exact callDas_steps
  | popcnt | countZeros _ | bls _ => exact sources_steps S I fun _ _ => result_steps S I _ _
  | andn | bextr | bzhi =>
    exact sources_steps S I fun _ _ => (getOperand_steps S I 2).bind fun _ => result_steps S I _ _
  | mulx => exact callMulx_steps S I
  | bits _ | rorx | shiftX _ =>
    exact sources_steps S I fun _ _ => (getOperand_steps S I 2).bind fun _ =>
      setOperand_steps S I 0 _
  | crc32 | movbe => exact sources_steps S I fun _ _ => setOperand_steps S I 0 _
  | addCarry _ => exact sources_steps S I fun _ _ => Keeps.get.bind fun s => result_steps S I _ _

end Diana.Processor
