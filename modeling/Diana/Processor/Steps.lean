import Mathlib.Logic.Relation
import Diana.Processor.Effects

/-!
# What a command can do

Every command of the general-purpose set is made of a few kinds of steps: it writes the flags, a
register under its own name, the memory, or the request for PF, SF and ZF. What each of these steps
keeps, every command keeps.

* `callGeneral_steps`: the commands are made of such steps;
* `keeps_of_steps`: so they keep every preorder that the steps keep.
-/

namespace Diana.Processor

open Diana.Lib Relation

variable {μ : Type}

/-- One step of a command. -/
inductive Step : Proc μ → Proc μ → Prop
  | flags (s : Proc μ) (f : Value) : Step s { s with flags := f }
  | register (s : Proc μ) (r : Register) (v : Value) (size : Size) :
  Step s (s.setValueEx (some r) r v size)
  /-- `Diana_ProcessorSetGetOperand_register` on a 32-bit register in 64-bit mode -/
  | upperHalf (s : Proc μ) (i : Fin 16) : Step s { s with regs := s.regs.set (.gp i) 32 32 0 }
  | memory (s : Proc μ) (mem : μ) : Step s { s with mem }
  /-- `m_lastCallRIP` and `m_lastCallRSP` -/
  | lastCall (s : Proc μ) (rip rsp : Value) :
  Step s { s with lastCallRIP := rip, lastCallRSP := rsp }
  /-- `DI_UPDATE_FLAGS_PSZ` before a write -/
  | request (s : Proc μ) : Step s
      { s with
        stateFlags := { s.stateFlags with updateFlagsPsz := true }
        stateFlagsToRemove := { s.stateFlagsToRemove with updateFlagsPsz := true } }
  | answer (s : Proc μ) : Step s
  { s with stateFlags := { s.stateFlags with updateFlagsPsz := false } }
  /-- `DianaProcessor_CmdUsesNormalRep` -/
  | normalRep (s : Proc μ) :
  Step s { s with stateFlags := { s.stateFlags with cmdUsesNormalRep := true } }

/-- The steps of a command, one after the other. -/
abbrev Steps : Proc μ → Proc μ → Prop := ReflTransGen Step

instance : Std.Refl (@Steps μ) := ⟨fun _ => .refl⟩

instance : IsTrans (Proc μ) Steps := ⟨fun _ _ _ => ReflTransGen.trans⟩

/-- What the steps keep is kept by all that is made of them. -/
theorem keeps_of_steps {α : Type} {R : Proc μ → Proc μ → Prop} [Std.Refl R] [IsTrans (Proc μ) R]
    (hR : ∀ s t, Step s t → R s t) {x : Exec μ α} (hx : Keeps Steps x) : Keeps R x := by
  refine hx.mono fun s t h => ?_
  induction h with
  | refl => exact refl_of R s
  | tail _ hstep ih => exact trans_of R ih (hR _ _ hstep)

/-! ## Parts of commands -/

theorem steps_setValue (s : Proc μ) (r : Register) (v : Value) : Steps s (s.setValue r v) :=
  .single (.register s r v r.size)

theorem steps_updatePSZ (s : Proc μ) (v : Value) (size : Size) : Steps s (s.updatePSZ v size) :=
  let f := pszOf s.flags (cutValue v size) (signMask size)
  .tail (.single (.flags s f)) (.answer { s with flags := f })

theorem steps_setRegisterOperand (s : Proc μ) (r : Register) (v : Value) :
    Steps s (s.setRegisterOperand r v) := by
  have hset := steps_setValue s r v
  unfold Proc.setRegisterOperand
  cases r with
  | r32 i =>
    dsimp only
    split
    · exact hset.tail (.upperHalf _ i)
    · exact hset
  | _ => exact hset

variable (S : MemoryStream μ) (I : Insn)

theorem modifyFlags_steps (f : Value → Value) : Keeps Steps (modifyFlags f : Exec μ Unit) :=
  Keeps.modify fun s => .single (.flags s _)

theorem setMemValue_steps (selector offset : Value) (size : Size) (v : Value) (seg : SegReg) :
    Keeps Steps (setMemValue S selector offset size v seg) := by
  intro s
  have hwrite : ∀ mem : μ, Steps s { s with mem } := fun mem => .single (.memory s mem)
  unfold setMemValue
  rw [post_bind, post_get]
  dsimp only
  rw [post_bind, post_set]
  split
  · exact post_throw.2 (hwrite _)
  · exact post_ite (fun _ => post_throw.2 (hwrite _)) fun _ => post_pure.2 (hwrite _)

theorem getOperand_steps (n : Nat) :
    Keeps Steps (getOperand S I n) := (getOperand_keeps S I n).of_eq

theorem getMemValue_steps (selector offset : Value) (size : Size) (seg : SegReg) :
    Keeps Steps (getMemValue S selector offset size seg) :=
  (getMemValue_keeps S selector offset size seg).of_eq

theorem calcIndexM_steps (x : RmIndex) :
    Keeps Steps (calcIndexM I x : Exec μ _) := (calcIndexM_keeps I x).of_eq

theorem setIndex_steps (size : Size) (x : RmIndex) (v : Value) :
    Keeps Steps (setIndex S I size x v) := by
  unfold setIndex
  refine (calcIndexM_steps I x).bind fun (selector, address) => ?_
  refine Keeps.bind (Keeps.modify fun s => ?_) fun _ => setMemValue_steps S _ _ _ _ _
  split
  · exact steps_updatePSZ s v size
  · exact .refl

theorem setOperand_steps (n : Nat) (v : Value) : Keeps Steps (setOperand S I n v) := by
  unfold setOperand
  split
  · exact Keeps.throw _
  · split
    · exact Keeps.modify fun s => steps_setRegisterOperand s _ v
    · exact setIndex_steps S I _ _ v
    · exact setIndex_steps S I _ _ v
    · exact Keeps.throw _

theorem updateFlagsPsz_steps {x : Exec μ Unit} (hx : Keeps Steps x) :
    Keeps Steps (updateFlagsPsz x) := by
  unfold updateFlagsPsz
  refine Keeps.bind (Keeps.modify fun s => .single (.request s)) fun _ => ?_
  exact hx.bind fun _ => Keeps.modify fun s => .single (.answer s)

theorem checkZeroExtendsAt_steps (n : Nat) (dest : Value) (srcSize : Size) :
    Keeps Steps (checkZeroExtendsAt I n dest srcSize : Exec μ Value) := by
  intro s
  rw [post_of_ok (checkZeroExtendsAt_eq I n dest srcSize s)]
  unfold Proc.zeroExtended
  split
  · split
    · exact steps_setValue s _ 0
    · exact .refl
  · exact .refl

theorem clearUpperHalf_steps : Keeps Steps (clearUpperHalf I : Exec μ Unit) := by
  unfold clearUpperHalf
  refine Keeps.get.bind fun s => Keeps.ite (Keeps.pure _) ?_
  split
  · exact Keeps.modify fun s => steps_setValue s _ _
  · exact Keeps.pure _

theorem setRegs_steps (l : List (Register × Value)) : Keeps Steps (setRegs l : Exec μ Unit) := by
  refine Keeps.modify fun s => ?_
  induction l generalizing s with
  | nil => exact .refl
  | cons p l ih => exact (steps_setValue s p.1 p.2).trans (ih _)

theorem setCFOF_steps (c : Bool) : Keeps Steps (setCFOF c : Exec μ Unit) := modifyFlags_steps _

theorem setStackPointer_steps (v : Value) : Keeps Steps (setStackPointer I v : Exec μ Unit) :=
  Keeps.modify fun s => .single (.register s _ _ _)

theorem internalPush_steps (v : Value) : Keeps Steps (internalPush S I v) := by
  unfold internalPush
  refine Keeps.get.bind fun s => Keeps.ite ?_ ?_
  · exact (Keeps.throw _).bind fun _ => (setMemValue_steps S _ _ _ _ _).bind fun _ =>
      setStackPointer_steps I _
  · exact (setMemValue_steps S _ _ _ _ _).bind fun _ => setStackPointer_steps I _

theorem internalPop_steps : Keeps Steps (internalPop S I) := by
  unfold internalPop
  refine Keeps.get.bind fun s => (getMemValue_steps S _ _ _ _).bind fun v => ?_
  exact (setStackPointer_steps I _).bind fun _ => Keeps.pure v

/-! ## Arithmetic and logic -/

theorem callArith_steps (op : Value → Value → Value)
    (coa : Updates → Value → Value → Value → Value → Size → Value) :
    Keeps Steps (callArith S I op coa) := by
  unfold callArith
  refine (getOperand_steps S I 0).bind fun (dest, destSize) => ?_
  refine (getOperand_steps S I 1).bind fun (src, srcSize) => ?_
  refine (modifyFlags_steps _).bind fun _ => (checkZeroExtendsAt_steps I 0 _ _).bind fun new => ?_
  exact (modifyFlags_steps _).bind fun _ => updateFlagsPsz_steps (setOperand_steps S I 0 new)

theorem callArithCarry_steps (op : Value → Value → Value)
    (coa coaCF : Updates → Value → Value → Value → Value → Size → Value) :
    Keeps Steps (callArithCarry S I op coa coaCF) := by
  unfold callArithCarry
  refine (getOperand_steps S I 0).bind fun (dest, destSize) => ?_
  refine (getOperand_steps S I 1).bind fun (src, srcSize) => Keeps.get.bind fun s => ?_
  refine (modifyFlags_steps _).bind fun _ => (checkZeroExtendsAt_steps I 0 _ _).bind fun new => ?_
  exact (modifyFlags_steps _).bind fun _ => updateFlagsPsz_steps (setOperand_steps S I 0 new)

theorem callCmp_steps : Keeps Steps (callCmp S I) := by
  unfold callCmp
  refine (getOperand_steps S I 0).bind fun (dest, destSize) => ?_
  refine (getOperand_steps S I 1).bind fun (src, srcSize) => (modifyFlags_steps _).bind fun _ => ?_
  exact (modifyFlags_steps _).bind fun _ => Keeps.modify fun s => steps_updatePSZ s _ _

theorem callIncDec_steps (op : Value → Value → Value)
    (coa : Updates → Value → Value → Value → Value → Size → Value) :
    Keeps Steps (callIncDec S I op coa) := by
  unfold callIncDec
  refine (getOperand_steps S I 0).bind fun (dest, destSize) =>
    (modifyFlags_steps _).bind fun _ => ?_
  exact (modifyFlags_steps _).bind fun _ => updateFlagsPsz_steps (setOperand_steps S I 0 _)

theorem callNeg_steps : Keeps Steps (callNeg S I) := by
  unfold callNeg
  refine (getOperand_steps S I 0).bind fun (src, srcSize) => (modifyFlags_steps _).bind fun _ => ?_
  refine (modifyFlags_steps _).bind fun _ => ?_
  exact (updateFlagsPsz_steps (setOperand_steps S I 0 _)).bind fun _ => modifyFlags_steps _

theorem callLogic_steps (op : Value → Value → Value) : Keeps Steps (callLogic S I op) := by
  unfold callLogic
  refine (getOperand_steps S I 0).bind fun (dest, destSize) => ?_
  refine (getOperand_steps S I 1).bind fun (src, srcSize) => ?_
  refine (checkZeroExtendsAt_steps I 0 _ _).bind fun new => (modifyFlags_steps _).bind fun _ => ?_
  exact (updateFlagsPsz_steps (setOperand_steps S I 0 new)).bind fun _ => modifyFlags_steps _

theorem callXor_steps : Keeps Steps (callXor S I) := by
  unfold callXor
  refine (getOperand_steps S I 0).bind fun (dest, destSize) => ?_
  refine (getOperand_steps S I 1).bind fun (src, srcSize) => (modifyFlags_steps _).bind fun _ => ?_
  exact (checkZeroExtendsAt_steps I 0 _ _).bind fun new =>
    updateFlagsPsz_steps (setOperand_steps S I 0 new)

theorem callNot_steps : Keeps Steps (callNot S I) := by
  unfold callNot
  refine (getOperand_steps S I 0).bind fun (dest, _) => ?_
  exact (clearUpperHalf_steps I).bind fun _ => setOperand_steps S I 0 _

theorem callTest_steps : Keeps Steps (callTest S I) := by
  unfold callTest
  refine (getOperand_steps S I 0).bind fun (dest, _) =>
    (getOperand_steps S I 1).bind fun (src, _) => ?_
  refine (modifyFlags_steps _).bind fun _ => ?_
  exact Keeps.bind (Keeps.modify fun s => steps_updatePSZ s _ _) fun _ => modifyFlags_steps _

/-! ## Multiplication and division -/

theorem callMul_steps : Keeps Steps (callMul S I) := by
  unfold callMul
  refine (getOperand_steps S I 0).bind fun (argument, _) => (modifyFlags_steps _).bind fun _ => ?_
  refine Keeps.get.bind fun s => ?_
  split <;> exact (setCFOF_steps _).bind fun _ => setRegs_steps _

theorem callImul1_steps : Keeps Steps (callImul1 S I) := by
  unfold callImul1
  refine (getOperand_steps S I 0).bind fun (argument, _) => Keeps.get.bind fun s => ?_
  split <;> exact (setCFOF_steps _).bind fun _ => setRegs_steps _

theorem imulImpl_steps (op1 op2 : Value) (size1 size2 : Size) :
    Keeps Steps (imulImpl I op1 op2 size1 size2 : Exec μ Value) := by
  unfold imulImpl
  dsimp only
  split <;> exact (setCFOF_steps _).bind fun _ => Keeps.pure _

theorem callImul_steps : Keeps Steps (callImul S I) := by
  unfold callImul
  refine (modifyFlags_steps _).bind fun _ => ?_
  split
  · exact callImul1_steps S I
  · refine (getOperand_steps S I 0).bind fun (dest, destSize) => ?_
    refine (getOperand_steps S I 1).bind fun (src, srcSize) => ?_
    exact (imulImpl_steps I _ _ _ _).bind fun dest => setOperand_steps S I 0 dest
  · refine (getOperand_steps S I 0).bind fun _ =>
      (getOperand_steps S I 1).bind fun (src1, size1) => ?_
    refine (getOperand_steps S I 2).bind fun (src2, size2) => ?_
    exact (imulImpl_steps I _ _ _ _).bind fun dest => setOperand_steps S I 0 dest
  · exact Keeps.throw _

/-- A check before the rest of a command. -/
theorem check_steps {c : Prop} [Decidable c] (e : Fault) {x : Exec μ Unit} (hx : Keeps Steps x) :
    Keeps Steps (if c then (throw e : Exec μ PUnit) >>= fun _ => x else x) :=
  Keeps.ite ((Keeps.throw e).bind fun _ => hx) hx

theorem callDiv_steps : Keeps Steps (callDiv S I) := by
  unfold callDiv
  refine (getOperand_steps S I 0).bind fun (divisor, _) => Keeps.get.bind fun s => ?_
  dsimp only
  split
  · refine check_steps _ ?_
    split
    · exact Keeps.throw _
    · exact setRegs_steps _
  · exact check_steps _ (check_steps _ (setRegs_steps _))
  · exact check_steps _ (check_steps _ (setRegs_steps _))
  · exact check_steps _ (check_steps _ (setRegs_steps _))

theorem idivWith_steps (dividend divisor : Value) (bound : Int) (failure : Status) (size : Size)
    (low high : Register) :
    Keeps Steps (idivWith dividend divisor bound failure size low high : Exec μ Unit) :=
  check_steps _ (check_steps _ (setRegs_steps _))

theorem callIdiv_steps : Keeps Steps (callIdiv S I) := by
  unfold callIdiv
  refine (getOperand_steps S I 0).bind fun (divisor, _) => Keeps.get.bind fun s => ?_
  dsimp only
  split
  · refine check_steps _ ?_
    split
    · exact Keeps.throw _
    · exact setRegs_steps _
  · exact idivWith_steps _ _ _ _ _ _ _
  · exact idivWith_steps _ _ _ _ _ _ _
  · exact idivWith_steps _ _ _ _ _ _ _

/-! ## Shifts and bit strings -/

theorem callShift_steps (count : Proc μ → Value → Size → Value) (body : ShiftBody) (psz : Bool) :
    Keeps Steps (callShift S I count body psz) := by
  unfold callShift
  refine (getOperand_steps S I 1).bind fun (src, srcSize) => ?_
  refine (getOperand_steps S I 0).bind fun (dest, destSize) => Keeps.get.bind fun s =>
    Keeps.ite ?_ ?_
  · exact (checkZeroExtendsAt_steps I 0 _ _).bind fun new => setOperand_steps S I 0 new
  · refine (modifyFlags_steps _).bind fun _ => (checkZeroExtendsAt_steps I 0 _ _).bind fun new => ?_
    exact Keeps.ite (updateFlagsPsz_steps (setOperand_steps S I 0 new)) (setOperand_steps S I 0 new)

theorem shldLoop_steps (size : Size) (n i : Nat) (dest src : Value) :
    Keeps Steps (shldLoop S I size n i dest src) := by
  induction n generalizing i dest src with
  | zero => exact Keeps.pure _
  | succ n ih =>
    unfold shldLoop
    refine (shldSource_keeps S I size i src).of_eq.bind fun src => Keeps.get.bind fun s => ?_
    exact (modifyFlags_steps _).bind fun _ => ih _ _ _

theorem callShld_steps : Keeps Steps (callShld S I) := by
  unfold callShld
  refine (getOperand_steps S I 2).bind fun (src2, _) =>
    (getOperand_steps S I 1).bind fun (src1, size1) => ?_
  refine (getOperand_steps S I 0).bind fun (dest, destSize) => Keeps.get.bind fun s =>
    Keeps.ite ?_ ?_
  · exact (checkZeroExtendsAt_steps I 0 _ _).bind fun new => setOperand_steps S I 0 new
  · refine (modifyFlags_steps _).bind fun _ => (shldLoop_steps S I _ _ _ _ _).bind fun d => ?_
    refine (modifyFlags_steps _).bind fun _ => (checkZeroExtendsAt_steps I 0 _ _).bind fun new => ?_
    exact updateFlagsPsz_steps (setOperand_steps S I 0 new)

theorem callShrd_steps : Keeps Steps (callShrd S I) := by
  unfold callShrd
  refine (getOperand_steps S I 2).bind fun (src2, _) =>
    (getOperand_steps S I 1).bind fun (src1, size1) => ?_
  refine (getOperand_steps S I 0).bind fun (dest, destSize) => Keeps.get.bind fun s =>
    Keeps.ite ?_ ?_
  · exact (checkZeroExtendsAt_steps I 0 _ _).bind fun new => setOperand_steps S I 0 new
  · refine (modifyFlags_steps _).bind fun _ => (modifyFlags_steps _).bind fun _ => ?_
    refine (modifyFlags_steps _).bind fun _ => (checkZeroExtendsAt_steps I 0 _ _).bind fun new => ?_
    exact updateFlagsPsz_steps (setOperand_steps S I 0 new)

theorem bitOp_steps (op : Value → Value → Value) : Keeps Steps (bitOp S I op) := by
  unfold bitOp
  refine (getOperand_steps S I 0).bind fun (dest, _) =>
    (getOperand_steps S I 1).bind fun (src, srcSize) => ?_
  refine (modifyFlags_steps _).bind fun _ => ?_
  split
  · exact Keeps.throw _
  · refine (modifyFlags_steps _).bind fun _ => (checkZeroExtendsAt_steps I 0 _ _).bind fun new => ?_
    exact setOperand_steps S I 0 new

theorem callBitOp_steps (op : Value → Value → Value) : Keeps Steps (callBitOp S I op) :=
  Keeps.get.bind fun s => bitOp_steps S (bitStringAddress s I) op

theorem callBt_steps : Keeps Steps (callBt S I) := by
  unfold callBt
  refine Keeps.get.bind fun s => (getOperand_steps S _ 0).bind fun (dest, _) => ?_
  refine (getOperand_steps S _ 1).bind fun (src, _) => (modifyFlags_steps _).bind fun _ => ?_
  split
  · exact Keeps.throw _
  · exact modifyFlags_steps _

/-! ## Moves and exchanges -/

theorem callMov_steps : Keeps Steps (callMov S I) := by
  have hsize : Keeps Steps (getOperandSize I 0 : Exec μ Size) := by
    unfold getOperandSize
    split
    · exact Keeps.throw _
    · exact Keeps.pure _
  unfold callMov
  refine hsize.bind fun _ => (getOperand_steps S I 1).bind fun (src, srcSize) => ?_
  exact (checkZeroExtendsAt_steps I 0 _ _).bind fun new => setOperand_steps S I 0 new

theorem callMovzx_steps : Keeps Steps (callMovzx S I) := by
  unfold callMovzx
  refine (getOperand_steps S I 0).bind fun _ =>
    (getOperand_steps S I 1).bind fun (src, srcSize) => ?_
  exact (checkZeroExtendsAt_steps I 0 _ _).bind fun new => setOperand_steps S I 0 new

theorem callMovsx_steps : Keeps Steps (callMovsx S I) := by
  unfold callMovsx
  refine (getOperand_steps S I 0).bind fun (_, destSize) => ?_
  exact (getOperand_steps S I 1).bind fun (src, srcSize) => setOperand_steps S I 0 _

theorem callMovsxd_steps : Keeps Steps (callMovsxd S I) := by
  unfold callMovsxd
  refine (getOperand_steps S I 0).bind fun (dest, destSize) => ?_
  refine (getOperand_steps S I 1).bind fun (src, srcSize) => ?_
  exact (clearUpperHalf_steps I).bind fun _ => setOperand_steps S I 0 _

theorem callXchg_steps : Keeps Steps (callXchg S I) := by
  unfold callXchg
  refine (getOperand_steps S I 0).bind fun (dest, destSize) => ?_
  refine (getOperand_steps S I 1).bind fun (src, srcSize) => ?_
  refine (checkZeroExtendsAt_steps I 0 _ _).bind fun newDest => ?_
  refine (checkZeroExtendsAt_steps I 1 _ _).bind fun newSrc => ?_
  exact (setOperand_steps S I 0 newDest).bind fun _ => setOperand_steps S I 1 newSrc

theorem callXadd_steps : Keeps Steps (callXadd S I) := by
  unfold callXadd
  refine (getOperand_steps S I 0).bind fun (dest, destSize) => ?_
  refine (getOperand_steps S I 1).bind fun (src, srcSize) => (modifyFlags_steps _).bind fun _ => ?_
  refine (checkZeroExtendsAt_steps I 0 _ _).bind fun newDest => ?_
  refine (checkZeroExtendsAt_steps I 1 _ _).bind fun newSrc =>
    (modifyFlags_steps _).bind fun _ => ?_
  exact (setOperand_steps S I 1 newSrc).bind fun _ =>
    updateFlagsPsz_steps (setOperand_steps S I 0 newDest)

theorem callCmpxchg_steps : Keeps Steps (callCmpxchg S I) := by
  unfold callCmpxchg
  refine (getOperand_steps S I 0).bind fun (dest, destSize) => ?_
  refine (getOperand_steps S I 1).bind fun (src, srcSize) => Keeps.get.bind fun s => ?_
  refine (modifyFlags_steps _).bind fun _ => (modifyFlags_steps _).bind fun _ => ?_
  refine Keeps.bind (Keeps.modify fun s => steps_updatePSZ s _ _) fun _ => Keeps.ite ?_ ?_
  · refine (checkZeroExtendsAt_steps I 0 _ _).bind fun new => ?_
    exact (setOperand_steps S I 0 new).bind fun _ => modifyFlags_steps _
  · exact Keeps.bind (Keeps.modify fun s => steps_setValue s _ _) fun _ => modifyFlags_steps _

theorem callCmpxchg8bImpl_steps : Keeps Steps (callCmpxchg8bImpl S I) := by
  unfold callCmpxchg8bImpl
  split
  · exact Keeps.throw _
  · refine (calcIndexM_steps I _).bind fun (selector, address) => ?_
    refine (getMemValue_steps S _ _ _ _).bind fun mem => Keeps.get.bind fun s => Keeps.ite ?_ ?_
    · exact (modifyFlags_steps _).bind fun _ => setRegs_steps _
    · exact (modifyFlags_steps _).bind fun _ => setMemValue_steps S _ _ _ _ _

theorem callCmpxchg16b_steps : Keeps Steps (callCmpxchg16b S I) := by
  refine Keeps.ite (callCmpxchg8bImpl_steps S I) ?_
  unfold callCmpxchg16bImpl
  split
  · exact Keeps.throw _
  · refine (calcIndexM_steps I _).bind fun (selector, address) =>
      (getMemValue_steps S _ _ _ _).bind fun low => ?_
    refine (getMemValue_steps S _ _ _ _).bind fun high => Keeps.get.bind fun s => Keeps.ite ?_ ?_
    · exact (modifyFlags_steps _).bind fun _ => setRegs_steps _
    · refine (modifyFlags_steps _).bind fun _ => (setMemValue_steps S _ _ _ _ _).bind fun _ => ?_
      exact setMemValue_steps S _ _ _ _ _

/-! ## The stack -/

theorem callPush_steps : Keeps Steps (callPush S I) := by
  unfold callPush
  refine (getOperand_steps S I 0).bind fun (src, srcSize) => Keeps.ite ?_ (internalPush_steps S I _)
  refine Keeps.get.bind fun s => check_steps _ ?_
  exact (setMemValue_steps S _ _ _ _ _).bind fun _ => setStackPointer_steps I _

theorem callPushf_steps : Keeps Steps (callPushf S I) := by
  unfold callPushf
  refine Keeps.get.bind fun s => check_steps _ ?_
  exact (setMemValue_steps S _ _ _ _ _).bind fun _ => Keeps.modify fun s => steps_setValue s _ _

theorem callPop_steps : Keeps Steps (callPop S I) := by
  unfold callPop
  refine (getOperand_steps S I 0).bind fun _ => (internalPop_steps S I).bind fun dest => ?_
  exact setOperand_steps S I 0 dest

theorem popaLoop_steps (l : List (Option Register)) : Keeps Steps (popaLoop S I l) := by
  induction l with
  | nil => exact Keeps.pure _
  | cons r rs ih =>
    unfold popaLoop
    refine (internalPop_steps S I).bind fun dest => ?_
    cases r with
    | some r => exact Keeps.bind (Keeps.modify fun s => steps_setValue s r dest) fun _ => ih
    | none => exact ih

theorem callPopa_steps : Keeps Steps (callPopa S I) := by
  unfold callPopa
  split
  · exact Keeps.throw _
  · exact popaLoop_steps S I _
  · exact popaLoop_steps S I _
  · exact Keeps.throw _

theorem pushaLoop_steps (sp : Value) (l : List (Option Register)) :
    Keeps Steps (pushaLoop S I sp l) := by
  induction l with
  | nil => exact Keeps.pure _
  | cons r rs ih =>
    unfold pushaLoop
    exact Keeps.get.bind fun s => (internalPush_steps S I _).bind fun _ => ih

theorem callPusha_steps : Keeps Steps (callPusha S I) := by
  unfold callPusha
  refine Keeps.get.bind fun s => ?_
  split
  · exact Keeps.throw _
  · exact pushaLoop_steps S I _ _
  · exact pushaLoop_steps S I _ _
  · exact Keeps.throw _

theorem callPopf_steps : Keeps Steps (callPopf S I) := by
  unfold callPopf
  refine Keeps.get.bind fun s => Keeps.ite ?_ ?_
  · dsimp only
    refine (modifyFlags_steps _).bind fun _ => ?_
    split
    · refine (Keeps.throw _).bind fun _ => (setStackPointer_steps I _).bind fun _ =>
        modifyFlags_steps _
    · exact (Keeps.pure _).bind fun _ => (setStackPointer_steps I _).bind fun _ =>
        modifyFlags_steps _
  · split
    · exact (internalPop_steps S I).bind fun dest => modifyFlags_steps _
    · exact (internalPop_steps S I).bind fun dest => modifyFlags_steps _
    · exact Keeps.throw _

theorem enterLoop_steps (selector : Value) (n : Nat) (tmp : Value) :
    Keeps Steps (enterLoop S I selector n tmp) := by
  induction n generalizing tmp with
  | zero => exact Keeps.pure _
  | succ n ih =>
    unfold enterLoop
    refine (getMemValue_steps S _ _ _ _).bind fun value => ?_
    exact (internalPush_steps S I value).bind fun _ => ih _

theorem enterImpl_steps (op1 op2 : Value) : Keeps Steps (enterImpl S I op1 op2) := by
  have hend : ∀ tempRBP : Value, Keeps Steps (do
      modify fun s => s.setValueEx (some .rbp) .rbp tempRBP I.opsize
      modify fun s => s.setValueEx (some .rsp) .rsp (s.getValueEx .rsp I.opsize - op1) I.opsize :
        Exec μ Unit) :=
    fun tempRBP => Keeps.bind (Keeps.modify fun s => .single (.register s _ _ _)) fun _ =>
      Keeps.modify fun s => .single (.register s _ _ _)
  unfold enterImpl
  refine Keeps.get.bind fun s => (internalPush_steps S I _).bind fun _ => Keeps.get.bind fun s => ?_
  refine Keeps.ite ?_ (hend _)
  refine (enterLoop_steps S I _ _ _).bind fun _ => (internalPush_steps S I _).bind fun _ => hend _

theorem callEnter_steps : Keeps Steps (callEnter S I) := by
  unfold callEnter
  refine (getOperand_steps S I 0).bind fun (op1, _) =>
    (getOperand_steps S I 1).bind fun (op2, _) => ?_
  exact Keeps.get.bind fun s => enterImpl_steps S _ op1 op2

theorem callLeave_steps : Keeps Steps (callLeave S I) := by
  unfold callLeave
  refine Keeps.bind (Keeps.modify fun s => .single (.register s _ _ _)) fun _ => ?_
  exact (internalPop_steps S I).bind fun value => Keeps.modify fun s => .single (.register s _ _ _)

/-! ## Calls and returns -/

theorem callTarget_steps : Keeps Steps (callTarget S I) := (callTarget_keeps S I).of_eq

theorem pushCS_steps (far : Bool) (rsp : Value) : Keeps Steps (pushCS S I far rsp) := by
  unfold pushCS
  refine Keeps.get.bind fun s => Keeps.ite ?_ (Keeps.pure _)
  exact (setMemValue_steps S _ _ _ _ _).bind fun _ => Keeps.pure _

theorem callCall_steps : Keeps Steps (callCall S I) := by
  unfold callCall
  refine Keeps.get.bind fun s => (callTarget_steps S I).bind fun (newRIP, newSegment) => ?_
  refine (pushCS_steps S I _ _).bind fun rsp => (setMemValue_steps S _ _ _ _ _).bind fun _ => ?_
  refine Keeps.bind (Keeps.modify fun s => .single (.lastCall s _ _)) fun _ =>
    (setRegs_steps _).bind fun _ => ?_
  split
  · exact setRegs_steps _
  · exact Keeps.pure _

theorem internalRet_steps (popCS : Bool) : Keeps Steps (internalRet S I popCS) := by
  have hdrop : Keeps Steps (retDropBytes S I) := by
    unfold retDropBytes
    split
    · exact Keeps.pure _
    · refine (getOperand_steps S I 0).bind fun _ => ?_
      split
      · exact Keeps.pure _
      · exact Keeps.throw _
    · exact Keeps.throw _
  unfold internalRet
  refine hdrop.bind fun dropBytes => Keeps.get.bind fun s =>
    (getMemValue_steps S _ _ _ _).bind fun newRIP => ?_
  refine Keeps.ite ?_ (setRegs_steps _)
  exact (getMemValue_steps S _ _ _ _).bind fun newCS => setRegs_steps _

/-! ## Every command -/

/-- The commands of the general-purpose set are made of steps. -/
theorem callGeneral_steps (c : General) : Keeps Steps (callGeneral S I c) := by
  cases c with
  | adc | sbb => exact callArithCarry_steps S I _ _ _
  | add | sub => exact callArith_steps S I _ _
  | cmp => exact callCmp_steps S I
  | inc | dec => exact callIncDec_steps S I _ _
  | neg => exact callNeg_steps S I
  | mul => exact callMul_steps S I
  | imul => exact callImul_steps S I
  | div => exact callDiv_steps S I
  | idiv => exact callIdiv_steps S I
  | and | or => exact callLogic_steps S I _
  | xor => exact callXor_steps S I
  | not => exact callNot_steps S I
  | test => exact callTest_steps S I
  | shl => exact callShift_steps S I (shiftCountOf I) shlBody true
  | shr => exact callShift_steps S I (shiftCountOf I) shrBody true
  | sar => exact callShift_steps S I (shiftCountOf I) sarBody true
  | rol => exact callShift_steps S I (shiftCountOf I) rolBody false
  | ror => exact callShift_steps S I (shiftCountOf I) rorBody false
  | rcl => exact callShift_steps S I rotateCountOf rclBody false
  | rcr => exact callShift_steps S I rotateCountOf rcrBody false
  | shld => exact callShld_steps S I
  | shrd => exact callShrd_steps S I
  | bt => exact callBt_steps S I
  | btc | btr | bts => exact callBitOp_steps S I _
  | mov => exact callMov_steps S I
  | movzx => exact callMovzx_steps S I
  | movsx => exact callMovsx_steps S I
  | movsxd => exact callMovsxd_steps S I
  | xchg => exact callXchg_steps S I
  | xadd => exact callXadd_steps S I
  | cmpxchg => exact callCmpxchg_steps S I
  | cmpxchg16b => exact callCmpxchg16b_steps S I
  | push => exact callPush_steps S I
  | pop => exact callPop_steps S I
  | pusha => exact callPusha_steps S I
  | popa => exact callPopa_steps S I
  | pushf => exact callPushf_steps S I
  | popf => exact callPopf_steps S I
  | enter => exact callEnter_steps S I
  | leave => exact callLeave_steps S I
  | call => exact callCall_steps S I
  | ret | retf => exact internalRet_steps S I _

end Diana.Processor
