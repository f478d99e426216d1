import Diana.Lib.Post
import Diana.Processor.Commands

/-!
# What the operand accesses change

Reads change nothing; the steps of a command between its reads and its writes change flags and
state flags only (`Quiet`).
-/

namespace Diana.Processor

open Diana.Lib

variable {μ : Type} (S : MemoryStream μ) (I : Insn)

/-! ## Reads -/

theorem getMemValue_keeps (selector offset : Value) (size : Size) (seg : SegReg) :
    Keeps Eq (getMemValue S selector offset size seg) := by
  intro s
  unfold getMemValue
  rw [post_bind, post_get]
  split
  · exact post_pure.2 rfl
  · exact post_throw.2 rfl

theorem calcIndexM_of_ok {s : Proc μ} {x : RmIndex} {a : Value × Value}
    (h : s.calcIndex I x = .ok a) : calcIndexM I x s = .ok a s := by
  unfold calcIndexM
  rw [get_bind, h]
  rfl

theorem calcIndexM_of_error {s : Proc μ} {x : RmIndex} {e : Status}
    (h : s.calcIndex I x = .error e) : calcIndexM I x s = .error (.command e) s := by
  unfold calcIndexM
  rw [get_bind, h]
  rfl

theorem calcIndexM_keeps (x : RmIndex) : Keeps Eq (calcIndexM I x : Exec μ _) := by
  intro s
  cases h : s.calcIndex I x with
  | ok a => exact (post_of_ok (calcIndexM_of_ok I h)).2 rfl
  | error e => exact (post_of_error (calcIndexM_of_error I h)).2 rfl

theorem getIndex_keeps (size : Size) (x : RmIndex) : Keeps Eq (getIndex S I size x) :=
  (calcIndexM_keeps I x).bind fun _ => getMemValue_keeps S _ _ _ _

theorem getOperand_keeps (n : Nat) : Keeps Eq (getOperand S I n) := by
  unfold getOperand
  split
  · exact Keeps.throw _
  · split
    · exact Keeps.get.bind fun _ => Keeps.pure _
    · exact (getIndex_keeps S I _ _).bind fun _ => Keeps.pure _
    · exact Keeps.pure _
    · exact (getIndex_keeps S I _ _).bind fun _ => Keeps.pure _
    · exact Keeps.throw _

theorem callTarget_keeps : Keeps Eq (callTarget S I) := by
  unfold callTarget
  refine Keeps.get.bind fun s => ?_
  split
  · split
    · exact Keeps.pure _
    · exact (getOperand_keeps S I 0).bind fun _ => Keeps.pure _
    · exact (getOperand_keeps S I 0).bind fun _ => Keeps.pure _
    · exact (calcIndexM_keeps I _).bind fun _ => (getMemValue_keeps S _ _ _ _).bind fun _ =>
        (getMemValue_keeps S _ _ _ _).bind fun _ => Keeps.pure _
    · exact Keeps.pure _
    · exact Keeps.throw _
  · exact Keeps.throw _

/-! ## Kinds of operands -/

/-- The memory operand at a place, with its size. -/
def Insn.memoryAt (I : Insn) (n : Nat) : Option (RmIndex × Size) :=
  match I.operands[n]? with
  | some ⟨.index x, size, _⟩ => some (x, size)
  | some ⟨.memory x, size, _⟩ => some (x, size)
  | _ => none

variable {I}

theorem getOperand_of_memoryAt {n : Nat} {x : RmIndex} {size : Size}
    (h : I.memoryAt n = some (x, size)) :
    getOperand S I n = getIndex S I size x >>= fun v => pure (v, size) := by
  unfold Insn.memoryAt at h
  unfold getOperand
  split at h
  · rename_i hop
    cases h
    rw [hop]
  · rename_i hop
    cases h
    rw [hop]
  · cases h

theorem setOperand_of_memoryAt {n : Nat} {p : RmIndex × Size} (h : I.memoryAt n = some p)
    (v : Value) : setOperand S I n v = setIndex S I p.2 p.1 v := by
  unfold Insn.memoryAt at h
  unfold setOperand
  split at h
  · rename_i hop
    cases h
    rw [hop]
  · rename_i hop
    cases h
    rw [hop]
  · cases h

theorem setOperand_of_register {n : Nat} {r : Register} (h : I.registerOperand n = some r)
    (v : Value) : setOperand S I n v = modify fun s => s.setRegisterOperand r v := by
  unfold Insn.registerOperand at h
  unfold setOperand
  split at h
  · rename_i hop
    cases h
    rw [hop]
  · cases h

theorem setRegisterOperand_mem (s : Proc μ) (r : Register) (v : Value) :
    (s.setRegisterOperand r v).mem = s.mem := by
  have h := (Proc.sameRest_setValueEx s (some r) r v r.size).mem
  unfold Proc.setRegisterOperand Proc.setValue
  cases r with
  | r32 i =>
    dsimp only
    split <;> exact h
  | _ => exact h

/-- A write to an operand that is not in memory never fails on a memory access. -/
theorem setOperand_of_not_memory {n : Nat} (h : I.memoryAt n = none) (v : Value) (s : Proc μ) :
    Post (setOperand S I n v) s (fun _ t => t.mem = s.mem)
      (fun e t => e.isMemory = false ∧ t.mem = s.mem) := by
  unfold Insn.memoryAt at h
  unfold setOperand
  split
  · exact ⟨rfl, rfl⟩
  · rename_i op hop
    obtain ⟨value, size, asize⟩ := op
    cases value with
    | register r => exact setRegisterOperand_mem s r v
    | index x =>
      rw [hop] at h
      cases h
    | memory x =>
      rw [hop] at h
      cases h
    | _ => exact ⟨rfl, rfl⟩

theorem getOperand_of_register {n : Nat} {r : Register} (h : I.registerOperand n = some r)
    (s : Proc μ) : ∃ a, getOperand S I n s = .ok a s := by
  unfold Insn.registerOperand at h
  unfold getOperand
  split at h
  · rename_i hop
    cases h
    rw [hop]
    exact ⟨_, rfl⟩
  · cases h

/-- There is nothing to write but registers and memory. -/
theorem setOperand_throws {n : Nat} (hm : I.memoryAt n = none) (hr : I.registerOperand n = none)
    (v : Value) (s : Proc μ) : setOperand S I n v s = .error (.command .error) s := by
  unfold Insn.memoryAt at hm
  unfold Insn.registerOperand at hr
  unfold setOperand
  cases hop : I.operands[n]? with
  | none => rfl
  | some op =>
    obtain ⟨value, size, asize⟩ := op
    rw [hop] at hm hr
    cases value with
    | register r => cases hr
    | index x => cases hm
    | memory x => cases hm
    | _ => rfl

theorem registerOperand_of_memoryAt {n : Nat} {p : RmIndex × Size} (h : I.memoryAt n = some p) :
    I.registerOperand n = none := by
  unfold Insn.memoryAt at h
  unfold Insn.registerOperand
  split at h
  · rename_i hop
    rw [hop]
  · rename_i hop
    rw [hop]
  · cases h

variable (I)

/-! ## Zero extension -/

/-- The state `Di_CheckZeroExtends` leaves. -/
def Proc.zeroExtended (s : Proc μ) (n : Nat) (srcSize : Size) : Proc μ :=
  if s.mode.amd64 ∧ srcSize ≠ .qword ∧ I.opsize = .dword then
    match (I.registerOperand n).bind query64RegisterFor32 with
    | some r => s.setValue r 0
    | none => s
  else s

/-- The value `Di_CheckZeroExtends` leaves. -/
def zeroExtendedValue (amd64 : Bool) (dest : Value) (srcSize : Size) : Value :=
  if amd64 ∧ srcSize ≠ .qword ∧ I.opsize = .qword ∧ I.signExtends then
    signExtend dest srcSize .qword
  else dest

theorem checkZeroExtendsAt_eq (n : Nat) (dest : Value) (srcSize : Size) (s : Proc μ) :
    checkZeroExtendsAt I n dest srcSize s =
      .ok (zeroExtendedValue I s.mode.amd64 dest srcSize) (s.zeroExtended I n srcSize) := by
  unfold checkZeroExtendsAt zeroExtendedValue Proc.zeroExtended
  rw [get_bind]
  cases s.mode.amd64 <;> cases srcSize <;> cases I.opsize <;> cases I.signExtends <;>
    cases (I.registerOperand n).bind query64RegisterFor32 <;> rfl

theorem checkZeroExtendsAt_of_not_register {n : Nat} (h : I.registerOperand n = none) (dest : Value)
    (srcSize : Size) (s : Proc μ) :
    checkZeroExtendsAt I n dest srcSize s =
      .ok (zeroExtendedValue I s.mode.amd64 dest srcSize) s := by
  rw [checkZeroExtendsAt_eq]
  unfold Proc.zeroExtended
  rw [h]
  exact congrArg _ (ite_self s)

theorem zeroExtended_mem (s : Proc μ) (n : Nat) (srcSize : Size) :
    (s.zeroExtended I n srcSize).mem = s.mem := by
  unfold Proc.zeroExtended
  split
  · cases (I.registerOperand n).bind query64RegisterFor32 with
    | none => rfl
    | some r => exact (Proc.sameRest_setValueEx s _ _ _ _).mem
  · rfl

/-! ## Registers -/

/-- Two processors, perhaps on different memories, with the same registers. -/
structure SameRegs {ν : Type} (s : Proc μ) (t : Proc ν) : Prop where
  mode : t.mode = s.mode
  regs : t.regs = s.regs

namespace SameRegs

variable {ν : Type} {s : Proc μ} {t : Proc ν} (h : SameRegs s t)
include h

theorem getValueEx (r : Register) (size : Size) : t.getValueEx r size = s.getValueEx r size := by
  unfold Proc.getValueEx
  rw [h.regs]

theorem getValue (r : Register) : t.getValue r = s.getValue r := h.getValueEx r r.size

theorem calcIndex (x : RmIndex) : t.calcIndex I x = s.calcIndex I x := by
  have hr : ∀ r, t.getOptional r = s.getOptional r := by
    intro r
    cases r with
    | none => rfl
    | some r => exact h.getValue r
  unfold Proc.calcIndex
  rw [hr, hr, h.mode, h.getValue]

theorem setValue (r : Register) (v : Value) : SameRegs (s.setValue r v) (t.setValue r v) := by
  have hm := (Proc.sameRest_setValueEx t (some r) r v r.size).mode
  refine ⟨hm.trans (h.mode.trans (Proc.sameRest_setValueEx s _ _ _ _).mode.symm), ?_⟩
  unfold Proc.setValue Proc.setValueEx
  dsimp only
  rw [Proc.updatePsz_regs, Proc.updatePsz_regs]
  split_ifs <;> simp_all [Proc.setCell, h.regs, h.mode]

theorem setRegisterOperand (r : Register) (v : Value) :
    SameRegs (s.setRegisterOperand r v) (t.setRegisterOperand r v) := by
  have h' := h.setValue r v
  unfold Proc.setRegisterOperand
  cases r with
  | r32 i =>
    dsimp only
    rw [h'.mode, h'.regs]
    split
    · exact ⟨rfl, rfl⟩
    · exact h'
  | _ => exact h'

theorem zeroExtended (n : Nat) (srcSize : Size) :
    SameRegs (s.zeroExtended I n srcSize) (t.zeroExtended I n srcSize) := by
  unfold Proc.zeroExtended
  rw [h.mode]
  split
  · cases (I.registerOperand n).bind query64RegisterFor32 with
    | none => exact h
    | some r => exact h.setValue r 0
  · exact h

end SameRegs

/-! ## Between reads and writes -/

/-- Only the flags and the state flags have changed. -/
structure Quiet (s t : Proc μ) : Prop extends SameRegs s t where
  mem : t.mem = s.mem

instance : Std.Refl (@Quiet μ) := ⟨fun _ => ⟨⟨rfl, rfl⟩, rfl⟩⟩

instance : IsTrans (Proc μ) Quiet :=
  ⟨fun _ _ _ h h' => ⟨⟨h'.mode.trans h.mode, h'.regs.trans h.regs⟩, h'.mem.trans h.mem⟩⟩

theorem modifyFlags_quiet (f : Value → Value) : Keeps Quiet (modifyFlags f : Exec μ Unit) :=
  Keeps.modify fun _ => ⟨⟨rfl, rfl⟩, rfl⟩

theorem checkZeroExtendsAt_keeps {n : Nat} (h : I.registerOperand n = none) (dest : Value)
    (srcSize : Size) : Keeps Eq (checkZeroExtendsAt I n dest srcSize : Exec μ Value) := by
  intro s
  exact (post_of_ok (checkZeroExtendsAt_of_not_register I h dest srcSize s)).2 rfl

theorem clearUpperHalf_keeps (h : I.registerOperand 0 = none) :
    Keeps Eq (clearUpperHalf I : Exec μ Unit) := by
  intro s
  unfold clearUpperHalf
  rw [post_bind, post_get, h]
  exact post_ite (fun _ => rfl) fun _ => rfl

theorem shldSource_keeps (size : Size) (i : Nat) (src : Value) :
    Keeps Eq (shldSource S I size i src) := by
  unfold shldSource
  refine Keeps.ite ?_ (Keeps.pure _)
  exact (getOperand_keeps S I 0).bind fun _ => Keeps.pure _

theorem shldLoop_quiet (size : Size) (n i : Nat) (dest src : Value) :
    Keeps Quiet (shldLoop S I size n i dest src) := by
  induction n generalizing i dest src with
  | zero => exact Keeps.pure _
  | succ n ih =>
    unfold shldLoop
    refine (shldSource_keeps S I size i src).of_eq.bind fun src => ?_
    refine Keeps.get.bind fun s => ?_
    exact (modifyFlags_quiet _).bind fun _ => ih _ _ _

end Diana.Processor
