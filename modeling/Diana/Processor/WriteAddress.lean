import Diana.Processor.Effects

/-!
# Where read-modify-write instructions write

An instruction with a memory destination computes its effective address twice, once to read and
once to write. `writesWhereItReads_iff` says when the second is the address the registers had
before the instruction: always, but for `xchg` and `xadd`, which may have changed the source
register by then.
-/

namespace Diana.Processor

open Diana.Lib

/-! ## Observed writes -/

/-- A write as the memory stream sees it. -/
structure Access where
  selector : Value
  offset : Value
  size : Nat
  segReg : SegReg
  deriving DecidableEq, Repr

variable {μ : Type}

/-- The memory stream `S` with a record of the writes, the last one first. -/
def MemoryStream.logged (S : MemoryStream μ) : MemoryStream (μ × List Access) where
  read m := S.read m.1
  write m selector offset bs seg :=
    ((S.write m.1 selector offset bs seg).1,
      (S.write m.1 selector offset bs seg).2, ⟨selector, offset, bs.length, seg⟩ :: m.2)

/-- The processor over the recording stream, nothing written yet. -/
def Proc.withLog (s : Proc μ) : Proc (μ × List Access) := { s with mem := (s.mem, []) }

/-- The writes of a command. -/
def writes (x : Exec (μ × List Access) Unit) (s : Proc μ) : List Access :=
  match x s.withLog with
  | .ok _ t => t.mem.2
  | .error _ t => t.mem.2

/-- The access to the memory operand at a place, `none` where there is none or its address cannot
be computed. -/
def Proc.access (s : Proc μ) (I : Insn) (n : Nat) : Option Access :=
  (I.memoryAt n).bind fun (x, size) =>
    match s.calcIndex I x with
    | .ok (selector, offset) => some ⟨selector, offset, size.bytes, x.segReg⟩
    | .error _ => none

/-- The read-modify-write commands. -/
def General.isReadModifyWrite : General → Bool
  | adc | add | sub | sbb | inc | dec | neg | and | or | xor | not => true
  | shl | shr | sar | rol | ror | rcl | rcr | shld | shrd => true
  | btc | btr | bts => true
  | xchg | xadd | cmpxchg => true
  | _ => false

/-- The instruction whose destination a command writes: a bit string's is displaced by the bit
offset. -/
def Proc.target (s : Proc μ) (c : General) (I : Insn) : Insn :=
  match c with
  | .btc | .btr | .bts => bitStringAddress s I
  | _ => I

/-- Every write goes to the address the destination had before the instruction. -/
def WritesWhereItReads (S : MemoryStream μ) (c : General) (I : Insn) (s : Proc μ) : Prop :=
  ∀ a ∈ writes (callGeneral S.logged I c) s, s.access (s.target c I) 0 = some a

/-! ## Commands that keep their address -/

/-- Every new write goes to the memory operand at a place. -/
def WritesOperand (I : Insn) (n : Nat) (s t : Proc (μ × List Access)) : Prop :=
  ∀ a ∈ t.mem.2, a ∈ s.mem.2 ∨ s.access I n = some a

theorem access_of_ok {s : Proc μ} {I : Insn} {n : Nat} {x : RmIndex} {size : Size}
    {selector offset : Value} (hn : I.memoryAt n = some (x, size))
    (h : s.calcIndex I x = .ok (selector, offset)) :
    s.access I n = some ⟨selector, offset, size.bytes, x.segReg⟩ := by
  unfold Proc.access
  rw [hn, Option.bind_some]
  dsimp only
  rw [h]

theorem access_of_error {s : Proc μ} {I : Insn} {n : Nat} {x : RmIndex} {size : Size} {e : Status}
    (hn : I.memoryAt n = some (x, size)) (h : s.calcIndex I x = .error e) :
    s.access I n = none := by
  unfold Proc.access
  rw [hn, Option.bind_some]
  dsimp only
  rw [h]

theorem SameRegs.access {ν : Type} {s : Proc μ} {t : Proc ν} (h : SameRegs s t)
    (I : Insn) (n : Nat) : t.access I n = s.access I n := by
  unfold Proc.access
  simp only [h.calcIndex]

section Keeps

variable {S : MemoryStream μ} {I : Insn} {n : Nat} {α β : Type} {x : Exec (μ × List Access) α}
  {f : α → Exec (μ × List Access) β}

theorem writesOperand_of_mem {s t : Proc (μ × List Access)} (h : t.mem = s.mem) :
    WritesOperand I n s t := by
  intro a ha
  rw [h] at ha
  exact .inl ha

theorem quiet_then (hx : Keeps Quiet x) (hf : ∀ a, Keeps (WritesOperand I n) (f a)) :
    Keeps (WritesOperand I n) (x >>= f) := by
  refine hx.comp hf (fun s t h => writesOperand_of_mem h.mem) ?_
  intro s t u h h' a ha
  rcases h' a ha with h' | h'
  · exact .inl (h.mem ▸ h')
  · exact .inr (h.access I n ▸ h')

theorem read_then (hx : Keeps Eq x) (hf : ∀ a, Keeps (WritesOperand I n) (f a)) :
    Keeps (WritesOperand I n) (x >>= f) := quiet_then hx.of_eq hf

theorem then_quiet (hx : Keeps (WritesOperand I n) x) (hf : ∀ a, Keeps Quiet (f a)) :
    Keeps (WritesOperand I n) (x >>= f) :=
  hx.comp hf (fun _ _ h => h) fun _ _ _ h h' a ha => h a (h'.mem ▸ ha)

theorem setMemValue_writes (selector offset : Value) (size : Size) (v : Value) (seg : SegReg)
    (s : Proc (μ × List Access)) :
    Post (setMemValue S.logged selector offset size v seg) s
      (fun _ t => t.mem.2 = ⟨selector, offset, size.bytes, seg⟩ :: s.mem.2)
      (fun _ t => t.mem.2 = ⟨selector, offset, size.bytes, seg⟩ :: s.mem.2) := by
  have hl : (S.logged.write s.mem selector offset (leBytes size.bytes v) seg).2.2 =
      ⟨selector, offset, size.bytes, seg⟩ :: s.mem.2 := by
    unfold MemoryStream.logged
    dsimp only
    rw [length_leBytes]
  unfold setMemValue
  rw [post_bind, post_get, post_bind, post_set]
  split
  · exact hl
  · exact post_ite (fun _ => hl) fun _ => hl

/-- The new writes are `a`, or none. -/
def Logs (a : Option Access) (s t : Proc (μ × List Access)) : Prop :=
  t.mem.2 = a.toList ++ s.mem.2

/-- The one new write is the access to the memory operand at a place, if there is one. -/
def LogsOperand (I : Insn) (n : Nat) (s t : Proc (μ × List Access)) : Prop :=
  Logs (s.access I n) s t

theorem LogsOperand.writes {s t : Proc (μ × List Access)} (h : LogsOperand I n s t) :
    WritesOperand I n s t := by
  intro a ha
  rw [h, List.mem_append, Option.mem_toList] at ha
  exact ha.symm

theorem logsOperand_of_none {s t : Proc (μ × List Access)} (ha : s.access I n = none)
    (h : t.mem = s.mem) : LogsOperand I n s t := by
  unfold LogsOperand Logs
  rw [ha, h]
  rfl

theorem setIndex_logs {size : Size} {y : RmIndex} (hn : I.memoryAt n = some (y, size)) (v : Value) :
    Keeps (LogsOperand I n) (setIndex S.logged I size y v) := by
  intro s
  unfold setIndex
  cases h : s.calcIndex I y with
  | error e =>
    rw [post_of_error (bind_of_error (calcIndexM_of_error I h))]
    exact logsOperand_of_none (access_of_error hn h) rfl
  | ok a =>
    obtain ⟨selector, address⟩ := a
    rw [post_bind, post_of_ok (calcIndexM_of_ok I h), post_bind, post_modify]
    set t := if s.stateFlags.updateFlagsPsz then s.updatePSZ v size else s with ht
    have hm : t.mem = s.mem := by
      rw [ht]
      split <;> rfl
    have hw : ∀ u : Proc (μ × List Access),
        u.mem.2 = ⟨selector, address, size.bytes, y.segReg⟩ :: t.mem.2 → LogsOperand I n s u := by
      intro u hu
      unfold LogsOperand Logs
      rw [hu, hm, access_of_ok hn h]
      rfl
    exact (setMemValue_writes selector address size v y.segReg t).mono (fun _ => hw) fun _ => hw

theorem setOperand_logs (v : Value) : Keeps (LogsOperand I n) (setOperand S.logged I n v) := by
  cases hm : I.memoryAt n with
  | some p =>
    rw [setOperand_of_memoryAt S.logged hm]
    exact setIndex_logs hm v
  | none =>
    intro s
    have ha : s.access I n = none := by
      unfold Proc.access
      rw [hm, Option.bind_none]
    exact (setOperand_of_not_memory S.logged hm v s).mono (fun _ _ => logsOperand_of_none ha)
      fun _ _ h => logsOperand_of_none ha h.2

theorem setOperand_writes (v : Value) : Keeps (WritesOperand I n) (setOperand S.logged I n v) :=
  (setOperand_logs v).mono fun _ _ h => h.writes

theorem updateFlagsPsz_writes {x : Exec (μ × List Access) Unit}
    (hx : Keeps (WritesOperand I n) x) : Keeps (WritesOperand I n) (updateFlagsPsz x) := by
  refine quiet_then (Keeps.modify fun s => ⟨⟨rfl, rfl⟩, rfl⟩) fun _ => ?_
  exact then_quiet hx fun _ => Keeps.modify fun s => ⟨⟨rfl, rfl⟩, rfl⟩

theorem updateFlagsPsz_logs {x : Exec (μ × List Access) Unit} (hx : Keeps (LogsOperand I n) x) :
    Keeps (LogsOperand I n) (updateFlagsPsz x) := by
  intro s
  unfold updateFlagsPsz
  rw [post_bind, post_modify, post_bind]
  refine (hx _).mono (fun _ t ht => ?_) fun _ t ht => ht
  exact post_modify.2 ht

end Keeps

section Commands

variable (S : MemoryStream μ) {I : Insn} (h0 : I.registerOperand 0 = none)
include h0

theorem callArith_writes (op : Value → Value → Value)
    (coa : Updates → Value → Value → Value → Value → Size → Value) :
    Keeps (WritesOperand I 0) (callArith S.logged I op coa) := by
  unfold callArith
  refine read_then (getOperand_keeps S.logged I 0) fun (dest, destSize) => ?_
  refine read_then (getOperand_keeps S.logged I 1) fun (src, srcSize) => ?_
  refine quiet_then (modifyFlags_quiet _) fun _ => ?_
  refine read_then (checkZeroExtendsAt_keeps I h0 _ _) fun new => ?_
  refine quiet_then (modifyFlags_quiet _) fun _ => ?_
  exact updateFlagsPsz_writes (setOperand_writes new)

theorem callArithCarry_writes (op : Value → Value → Value)
    (coa coaCF : Updates → Value → Value → Value → Value → Size → Value) :
    Keeps (WritesOperand I 0) (callArithCarry S.logged I op coa coaCF) := by
  unfold callArithCarry
  refine read_then (getOperand_keeps S.logged I 0) fun (dest, destSize) => ?_
  refine read_then (getOperand_keeps S.logged I 1) fun (src, srcSize) => ?_
  refine read_then Keeps.get fun s => ?_
  refine quiet_then (modifyFlags_quiet _) fun _ => ?_
  refine read_then (checkZeroExtendsAt_keeps I h0 _ _) fun new => ?_
  refine quiet_then (modifyFlags_quiet _) fun _ => ?_
  exact updateFlagsPsz_writes (setOperand_writes new)

omit h0 in
theorem callIncDec_writes (op : Value → Value → Value)
    (coa : Updates → Value → Value → Value → Value → Size → Value) :
    Keeps (WritesOperand I 0) (callIncDec S.logged I op coa) := by
  unfold callIncDec
  refine read_then (getOperand_keeps S.logged I 0) fun (dest, destSize) => ?_
  refine quiet_then (modifyFlags_quiet _) fun _ => ?_
  refine quiet_then (modifyFlags_quiet _) fun _ => ?_
  exact updateFlagsPsz_writes (setOperand_writes _)

omit h0 in
theorem callNeg_writes : Keeps (WritesOperand I 0) (callNeg S.logged I) := by
  unfold callNeg
  refine read_then (getOperand_keeps S.logged I 0) fun (src, srcSize) => ?_
  refine quiet_then (modifyFlags_quiet _) fun _ => ?_
  refine quiet_then (modifyFlags_quiet _) fun _ => ?_
  exact then_quiet (updateFlagsPsz_writes (setOperand_writes _)) fun _ => modifyFlags_quiet _

theorem callLogic_writes (op : Value → Value → Value) :
    Keeps (WritesOperand I 0) (callLogic S.logged I op) := by
  unfold callLogic
  refine read_then (getOperand_keeps S.logged I 0) fun (dest, destSize) => ?_
  refine read_then (getOperand_keeps S.logged I 1) fun (src, srcSize) => ?_
  refine read_then (checkZeroExtendsAt_keeps I h0 _ _) fun new => ?_
  refine quiet_then (modifyFlags_quiet _) fun _ => ?_
  exact then_quiet (updateFlagsPsz_writes (setOperand_writes _)) fun _ => modifyFlags_quiet _

theorem callXor_writes : Keeps (WritesOperand I 0) (callXor S.logged I) := by
  unfold callXor
  refine read_then (getOperand_keeps S.logged I 0) fun (dest, destSize) => ?_
  refine read_then (getOperand_keeps S.logged I 1) fun (src, srcSize) => ?_
  refine quiet_then (modifyFlags_quiet _) fun _ => ?_
  refine read_then (checkZeroExtendsAt_keeps I h0 _ _) fun new => ?_
  exact updateFlagsPsz_writes (setOperand_writes _)

theorem callNot_writes : Keeps (WritesOperand I 0) (callNot S.logged I) := by
  unfold callNot
  refine read_then (getOperand_keeps S.logged I 0) fun (dest, destSize) => ?_
  refine read_then (clearUpperHalf_keeps I h0) fun _ => ?_
  exact setOperand_writes _

theorem callShift_writes (count : Proc (μ × List Access) → Value → Size → Value) (body : ShiftBody)
    (psz : Bool) : Keeps (WritesOperand I 0) (callShift S.logged I count body psz) := by
  unfold callShift
  refine read_then (getOperand_keeps S.logged I 1) fun (src, srcSize) => ?_
  refine read_then (getOperand_keeps S.logged I 0) fun (dest, destSize) => ?_
  refine read_then Keeps.get fun s => ?_
  refine Keeps.ite ?_ ?_
  · refine read_then (checkZeroExtendsAt_keeps I h0 _ _) fun new => ?_
    exact setOperand_writes _
  · refine quiet_then (modifyFlags_quiet _) fun _ => ?_
    refine read_then (checkZeroExtendsAt_keeps I h0 _ _) fun new => ?_
    exact Keeps.ite (updateFlagsPsz_writes (setOperand_writes _)) (setOperand_writes _)

theorem callShld_writes : Keeps (WritesOperand I 0) (callShld S.logged I) := by
  unfold callShld
  refine read_then (getOperand_keeps S.logged I 2) fun (src2, _) => ?_
  refine read_then (getOperand_keeps S.logged I 1) fun (src1, size1) => ?_
  refine read_then (getOperand_keeps S.logged I 0) fun (dest, destSize) => ?_
  refine read_then Keeps.get fun s => ?_
  refine Keeps.ite ?_ ?_
  · refine read_then (checkZeroExtendsAt_keeps I h0 _ _) fun new => ?_
    exact setOperand_writes _
  · refine quiet_then (modifyFlags_quiet _) fun _ => ?_
    refine quiet_then (shldLoop_quiet S.logged I _ _ _ _ _) fun d => ?_
    refine quiet_then (modifyFlags_quiet _) fun _ => ?_
    refine read_then (checkZeroExtendsAt_keeps I h0 _ _) fun new => ?_
    exact updateFlagsPsz_writes (setOperand_writes _)

theorem callShrd_writes : Keeps (WritesOperand I 0) (callShrd S.logged I) := by
  unfold callShrd
  refine read_then (getOperand_keeps S.logged I 2) fun (src2, _) => ?_
  refine read_then (getOperand_keeps S.logged I 1) fun (src1, size1) => ?_
  refine read_then (getOperand_keeps S.logged I 0) fun (dest, destSize) => ?_
  refine read_then Keeps.get fun s => ?_
  refine Keeps.ite ?_ ?_
  · refine read_then (checkZeroExtendsAt_keeps I h0 _ _) fun new => ?_
    exact setOperand_writes _
  · refine quiet_then (modifyFlags_quiet _) fun _ => ?_
    refine quiet_then (modifyFlags_quiet _) fun _ => ?_
    refine quiet_then (modifyFlags_quiet _) fun _ => ?_
    refine read_then (checkZeroExtendsAt_keeps I h0 _ _) fun new => ?_
    exact updateFlagsPsz_writes (setOperand_writes _)

theorem callCmpxchg_writes : Keeps (WritesOperand I 0) (callCmpxchg S.logged I) := by
  unfold callCmpxchg
  refine read_then (getOperand_keeps S.logged I 0) fun (dest, destSize) => ?_
  refine read_then (getOperand_keeps S.logged I 1) fun (src, srcSize) => ?_
  refine read_then Keeps.get fun s => ?_
  refine quiet_then (modifyFlags_quiet _) fun _ => ?_
  refine quiet_then (modifyFlags_quiet _) fun _ => ?_
  refine quiet_then (Keeps.modify fun s => ⟨⟨rfl, rfl⟩, rfl⟩) fun _ => ?_
  refine Keeps.ite ?_ ?_
  · refine read_then (checkZeroExtendsAt_keeps I h0 _ _) fun new => ?_
    exact then_quiet (setOperand_writes _) fun _ => modifyFlags_quiet _
  · refine then_quiet ?_ fun _ => modifyFlags_quiet _
    exact Keeps.modify fun s => writesOperand_of_mem (Proc.sameRest_setValueEx s _ _ _ _).mem

theorem bitOp_writes (op : Value → Value → Value) :
    Keeps (WritesOperand I 0) (bitOp S.logged I op) := by
  unfold bitOp
  refine read_then (getOperand_keeps S.logged I 0) fun (dest, destSize) => ?_
  refine read_then (getOperand_keeps S.logged I 1) fun (src, srcSize) => ?_
  refine quiet_then (modifyFlags_quiet _) fun _ => ?_
  cases bitIndex I.opsize src with
  | none => exact fun s => writesOperand_of_mem rfl
  | some b =>
    refine quiet_then (modifyFlags_quiet _) fun _ => ?_
    refine read_then (checkZeroExtendsAt_keeps I h0 _ _) fun new => ?_
    exact setOperand_writes _

omit h0 in
theorem setOperand_keeps {n : Nat} (hm : I.memoryAt n = none) (hr : I.registerOperand n = none)
    (v : Value) : Keeps Eq (setOperand S I n v) := by
  intro s
  exact (post_of_error (setOperand_throws S hm hr v s)).2 rfl

theorem callXchg_writes (h1 : I.memoryAt 1 = none) (hr : I.registerOperand 1 = none) :
    Keeps (WritesOperand I 0) (callXchg S.logged I) := by
  unfold callXchg
  refine read_then (getOperand_keeps S.logged I 0) fun (dest, destSize) => ?_
  refine read_then (getOperand_keeps S.logged I 1) fun (src, srcSize) => ?_
  refine read_then (checkZeroExtendsAt_keeps I h0 _ _) fun newDest => ?_
  refine read_then (checkZeroExtendsAt_keeps I hr _ _) fun newSrc => ?_
  exact then_quiet (setOperand_writes _) fun _ => (setOperand_keeps S.logged h1 hr _).of_eq

theorem callXadd_writes (h1 : I.memoryAt 1 = none) (hr : I.registerOperand 1 = none) :
    Keeps (WritesOperand I 0) (callXadd S.logged I) := by
  unfold callXadd
  refine read_then (getOperand_keeps S.logged I 0) fun (dest, destSize) => ?_
  refine read_then (getOperand_keeps S.logged I 1) fun (src, srcSize) => ?_
  refine quiet_then (modifyFlags_quiet _) fun _ => ?_
  refine read_then (checkZeroExtendsAt_keeps I h0 _ _) fun newDest => ?_
  refine read_then (checkZeroExtendsAt_keeps I hr _ _) fun newSrc => ?_
  refine quiet_then (modifyFlags_quiet _) fun _ => ?_
  refine read_then (setOperand_keeps S.logged h1 hr _) fun _ => ?_
  exact updateFlagsPsz_writes (setOperand_writes _)

end Commands

/-! ## Exchanges -/

/-- The processor as `xchg` and `xadd` have it when they compute the address to write, `dest` being
what they read there. -/
def Proc.atWrite (s : Proc μ) (c : General) (I : Insn) (dest : Value) (destSize : Size) : Proc μ :=
  match c, I.registerOperand 1 with
  | .xchg, _ => s.zeroExtended I 1 destSize
  | .xadd, some r =>
    (s.zeroExtended I 1 destSize).setRegisterOperand r
      (zeroExtendedValue I s.mode.amd64 dest destSize)
  | _, _ => s

/-- The source register, once it has changed, gives the destination the address it had. -/
def AddressKept (S : MemoryStream μ) (c : General) (I : Insn) (s : Proc μ) : Prop :=
  ∀ dest destSize, getOperand S I 0 s = .ok (dest, destSize) s →
    (s.atWrite c I dest destSize).access I 0 = s.access I 0

section Exchange

variable (S : MemoryStream μ) {I : Insn} {s : Proc (μ × List Access)} {dest src : Value}
  {destSize srcSize : Size} (h0 : I.registerOperand 0 = none) (h1 : I.memoryAt 1 = none)
  (hd : getOperand S.logged I 0 s = .ok (dest, destSize) s)
  (hs : getOperand S.logged I 1 s = .ok (src, srcSize) s)
include h0 h1 hd hs

theorem callXchg_logs :
    Post (callXchg S.logged I) s
      (fun _ t => Logs ((s.zeroExtended I 1 destSize).access I 0) s t)
      (fun _ t => Logs ((s.zeroExtended I 1 destSize).access I 0) s t) := by
  unfold callXchg checkZeroExtends checkZeroExtends2
  rw [post_bind, post_of_ok hd]
  dsimp only
  rw [post_bind, post_of_ok hs]
  dsimp only
  rw [post_bind, post_of_ok (checkZeroExtendsAt_of_not_register I h0 _ _ _), post_bind,
    post_of_ok (checkZeroExtendsAt_eq I 1 _ _ _), post_bind]
  have hz := zeroExtended_mem I s 1 destSize
  set u := s.zeroExtended I 1 destSize
  have hlog : ∀ t t' : Proc (μ × List Access), LogsOperand I 0 u t → t'.mem = t.mem →
      Logs (u.access I 0) s t' := by
    intro t t' ht ht'
    unfold Logs
    rw [ht', ← hz]
    exact ht
  refine (setOperand_logs _ u).mono (fun _ t ht => ?_) fun _ t ht => hlog t t ht rfl
  exact (setOperand_of_not_memory S.logged h1 _ t).mono (fun _ t' ht' => hlog t t' ht ht')
    fun _ t' ht' => hlog t t' ht ht'.2

omit h1 in
theorem callXadd_logs {r : Register} (hr : I.registerOperand 1 = some r) :
    Post (callXadd S.logged I) s
      (fun _ t => Logs ((s.atWrite .xadd I dest destSize).access I 0) s t)
      (fun _ t => Logs ((s.atWrite .xadd I dest destSize).access I 0) s t) := by
  unfold callXadd checkZeroExtends checkZeroExtends2
  rw [post_bind, post_of_ok hd]
  dsimp only
  rw [post_bind, post_of_ok hs]
  dsimp only
  rw [post_bind, modifyFlags, post_modify, post_bind,
    post_of_ok (checkZeroExtendsAt_of_not_register I h0 _ _ _), post_bind,
    post_of_ok (checkZeroExtendsAt_eq I 1 _ _ _), post_bind, modifyFlags, post_modify, post_bind,
    setOperand_of_register S.logged hr, post_modify]
  set u := Proc.setRegisterOperand _ r _ with hu
  have hw : SameRegs (s.atWrite .xadd I dest destSize) u := by
    unfold Proc.atWrite
    rw [hr, hu]
    have hf : SameRegs s { s with flags := clearCOA s.flags } := ⟨rfl, rfl⟩
    have hz := hf.zeroExtended I 1 destSize
    refine SameRegs.setRegisterOperand ?_ r _
    exact ⟨hz.mode, hz.regs⟩
  have hm : u.mem = s.mem := by
    rw [hu, setRegisterOperand_mem]
    exact zeroExtended_mem I _ 1 destSize
  have hlog : ∀ t : Proc (μ × List Access), LogsOperand I 0 u t →
      Logs ((s.atWrite .xadd I dest destSize).access I 0) s t := by
    intro t ht
    unfold Logs
    rw [← hw.access I 0, ← hm]
    exact ht
  exact (updateFlagsPsz_logs (setOperand_logs _) u).mono (fun _ => hlog) fun _ => hlog

end Exchange

/-! ## The address of a read-modify-write instruction -/

theorem withLog_sameRegs (s : Proc μ) : SameRegs s s.withLog := ⟨rfl, rfl⟩

theorem writes_of_post {x : Exec (μ × List Access) Unit} {s : Proc μ} {P : List Access → Prop}
    (h : Post x s.withLog (fun _ t => P t.mem.2) (fun _ t => P t.mem.2)) : P (writes x s) := by
  unfold writes
  cases hx : x s.withLog with
  | ok a t => exact h.ok hx
  | error e t => exact h.error hx

/-- The recording stream reads what the stream reads. -/
theorem getIndex_withLog (S : MemoryStream μ) (I : Insn) (size : Size) (x : RmIndex) (s : Proc μ)
    (v : Value) :
    getIndex S.logged I size x s.withLog = .ok v s.withLog ↔ getIndex S I size x s = .ok v s := by
  unfold getIndex
  have hc := (withLog_sameRegs s).calcIndex I x
  cases h : s.calcIndex I x with
  | error e =>
    rw [bind_of_error (calcIndexM_of_error I h), bind_of_error (calcIndexM_of_error I (hc.trans h))]
    constructor <;> exact nofun
  | ok a =>
    obtain ⟨selector, address⟩ := a
    rw [bind_of_ok (calcIndexM_of_ok I h), bind_of_ok (calcIndexM_of_ok I (hc.trans h))]
    have hr : s.withLog.readMem S.logged selector address size x.segReg =
        s.readMem S selector address size x.segReg := rfl
    unfold getMemValue
    dsimp only
    rw [get_bind, get_bind, hr]
    obtain ⟨w, _ | e⟩ := s.readMem S selector address size x.segReg
    · simp
    · simp

theorem getOperand_withLog (S : MemoryStream μ) {I : Insn} {n : Nat} {p : RmIndex × Size}
    (hn : I.memoryAt n = some p) (s : Proc μ) (a : Value × Size) :
    getOperand S.logged I n s.withLog = .ok a s.withLog ↔ getOperand S I n s = .ok a s := by
  obtain ⟨x, size⟩ := p
  obtain ⟨v, size'⟩ := a
  have hk : ∀ {ν : Type} (T : MemoryStream ν) (t : Proc ν),
      getOperand T I n t = .ok (v, size') t ↔ getIndex T I size x t = .ok v t ∧ size = size' := by
    intro ν T t
    rw [getOperand_of_memoryAt T hn]
    cases h : getIndex T I size x t with
    | error e u =>
      rw [bind_of_error h]
      constructor <;> exact nofun
    | ok w u =>
      rw [bind_of_ok h]
      simp only [pure_apply, EStateM.Result.ok.injEq, Prod.mk.injEq]
      tauto
  rw [hk, hk, getIndex_withLog]

theorem access_isSome {ν : Type} (s : Proc μ) (t : Proc ν) (I : Insn) (n : Nat) :
    (s.access I n).isSome = (t.access I n).isSome := by
  unfold Proc.access Proc.calcIndex
  cases I.memoryAt n with
  | none => rfl
  | some p => cases I.addressSize <;> rfl

theorem registerOperand_bitStringAddress (s : Proc μ) {I : Insn} (h : I.registerOperand 0 = none) :
    (bitStringAddress s I).registerOperand 0 = none := by
  unfold bitStringAddress
  split
  · rfl
  · exact h

theorem bitStringAddress_withLog (s : Proc μ) (I : Insn) :
    bitStringAddress s.withLog I = bitStringAddress s I := rfl

theorem atWrite_of_not_register {I : Insn} (h : I.registerOperand 1 = none) (s : Proc μ)
    (c : General) (dest : Value) (destSize : Size) : s.atWrite c I dest destSize = s := by
  unfold Proc.atWrite Proc.zeroExtended
  rw [h]
  cases c <;> first | rfl | exact ite_self s

theorem writesWhereItReads_of_keeps {S : MemoryStream μ} {c : General} {I : Insn} {s : Proc μ}
    (h : Keeps (WritesOperand (s.target c I) 0) (callGeneral S.logged I c)) :
    WritesWhereItReads S c I s := by
  refine writes_of_post (P := fun l => ∀ a ∈ l, s.access (s.target c I) 0 = some a) ?_
  have hw : ∀ t, WritesOperand (s.target c I) 0 s.withLog t →
      ∀ a ∈ t.mem.2, s.access (s.target c I) 0 = some a := by
    intro t ht a ha
    rcases ht a ha with ht | ht
    · cases ht
    · exact (withLog_sameRegs s).access _ _ ▸ ht
  exact (h s.withLog).mono (fun _ => hw) fun _ => hw

theorem callBitOp_writesWhereItReads (S : MemoryStream μ) {I : Insn}
    (h0 : I.registerOperand 0 = none) (op : Value → Value → Value) (s : Proc μ) :
    ∀ a ∈ writes (callBitOp S.logged I op) s, s.access (bitStringAddress s I) 0 = some a := by
  have h := bitOp_writes S (registerOperand_bitStringAddress s h0) op s.withLog
  refine writes_of_post (P := fun l => ∀ a ∈ l, s.access (bitStringAddress s I) 0 = some a) ?_
  have hw : ∀ t, WritesOperand (bitStringAddress s I) 0 s.withLog t →
      ∀ a ∈ t.mem.2, s.access (bitStringAddress s I) 0 = some a := by
    intro t ht a ha
    rcases ht a ha with ht | ht
    · cases ht
    · exact (withLog_sameRegs s).access _ _ ▸ ht
  unfold callBitOp
  rw [post_bind, post_get, bitStringAddress_withLog]
  exact h.mono (fun _ => hw) fun _ => hw

/-- The commands but `xchg` and `xadd` have changed no register when they write. -/
theorem writesWhereItReads_of_rmw (S : MemoryStream μ) {c : General} (hc : c.isReadModifyWrite)
    (hx : c ≠ .xchg) (ha : c ≠ .xadd) {I : Insn} (h0 : I.registerOperand 0 = none) (s : Proc μ) :
    WritesWhereItReads S c I s := by
  cases c with
  | adc =>
    exact writesWhereItReads_of_keeps (callArithCarry_writes S h0 (· + ·) setCOA_Add setCOA_AddCF)
  | add => exact writesWhereItReads_of_keeps (callArith_writes S h0 (· + ·) setCOA_Add)
  | sub => exact writesWhereItReads_of_keeps (callArith_writes S h0 (· - ·) setCOA_Sub)
  | sbb =>
    exact writesWhereItReads_of_keeps (callArithCarry_writes S h0 (· - ·) setCOA_Sub setCOA_SubCF)
  | inc => exact writesWhereItReads_of_keeps (callIncDec_writes S (· + ·) setCOA_Add)
  | dec => exact writesWhereItReads_of_keeps (callIncDec_writes S (· - ·) setCOA_Sub)
  | neg => exact writesWhereItReads_of_keeps (callNeg_writes S)
  | and => exact writesWhereItReads_of_keeps (callLogic_writes S h0 (· &&& ·))
  | or => exact writesWhereItReads_of_keeps (callLogic_writes S h0 (· ||| ·))
  | xor => exact writesWhereItReads_of_keeps (callXor_writes S h0)
  | not => exact writesWhereItReads_of_keeps (callNot_writes S h0)
  | shl =>
    exact writesWhereItReads_of_keeps (callShift_writes S h0 (shiftCountOf I) shlBody true)
  | shr =>
    exact writesWhereItReads_of_keeps (callShift_writes S h0 (shiftCountOf I) shrBody true)
  | sar =>
    exact writesWhereItReads_of_keeps (callShift_writes S h0 (shiftCountOf I) sarBody true)
  | rol =>
    exact writesWhereItReads_of_keeps (callShift_writes S h0 (shiftCountOf I) rolBody false)
  | ror =>
    exact writesWhereItReads_of_keeps (callShift_writes S h0 (shiftCountOf I) rorBody false)
  | rcl =>
    exact writesWhereItReads_of_keeps (callShift_writes S h0 rotateCountOf rclBody false)
  | rcr =>
    exact writesWhereItReads_of_keeps (callShift_writes S h0 rotateCountOf rcrBody false)
  | shld => exact writesWhereItReads_of_keeps (callShld_writes S h0)
  | shrd => exact writesWhereItReads_of_keeps (callShrd_writes S h0)
  | btc => exact callBitOp_writesWhereItReads S h0 _ s
  | btr => exact callBitOp_writesWhereItReads S h0 _ s
  | bts => exact callBitOp_writesWhereItReads S h0 _ s
  | cmpxchg => exact writesWhereItReads_of_keeps (callCmpxchg_writes S h0)
  | xchg => exact absurd rfl hx
  | xadd => exact absurd rfl ha
  | _ => cases hc

/-- An exchange with a register writes once, after it has read its operands. -/
theorem writes_exchange (S : MemoryStream μ) {c : General} (hc : c = .xchg ∨ c = .xadd) {I : Insn}
    (h0 : I.registerOperand 0 = none) (h1 : I.memoryAt 1 = none) {r : Register}
    (hr : I.registerOperand 1 = some r) {s : Proc μ} {dest : Value} {destSize : Size}
    (hd : getOperand S.logged I 0 s.withLog = .ok (dest, destSize) s.withLog) :
    writes (callGeneral S.logged I c) s =
      ((s.withLog.atWrite c I dest destSize).access I 0).toList := by
  obtain ⟨⟨src, srcSize⟩, hs⟩ := getOperand_of_register S.logged hr s.withLog
  set b := (s.withLog.atWrite c I dest destSize).access I 0 with hb
  have hl : ∀ t : Proc (μ × List Access), Logs b s.withLog t → t.mem.2 = b.toList :=
    fun _ ht => ht.trans (List.append_nil _)
  refine writes_of_post (P := fun l => l = b.toList) ?_
  rcases hc with rfl | rfl
  · exact (callXchg_logs S h0 h1 hd hs).mono (fun _ => hl) fun _ => hl
  · exact (callXadd_logs S h0 hd hs hr).mono (fun _ => hl) fun _ => hl

theorem atWrite_withLog (s : Proc μ) (c : General) (I : Insn) (dest : Value) (destSize : Size) :
    SameRegs (s.atWrite c I dest destSize) (s.withLog.atWrite c I dest destSize) := by
  have hz := (withLog_sameRegs s).zeroExtended I 1 destSize
  unfold Proc.atWrite
  split
  · exact hz
  · exact hz.setRegisterOperand _ _
  · exact withLog_sameRegs s

theorem writesWhereItReads_exchange_iff (S : MemoryStream μ) {c : General}
    (hc : c = .xchg ∨ c = .xadd) {I : Insn} {p : RmIndex × Size} (h0 : I.memoryAt 0 = some p)
    (h1 : I.memoryAt 1 = none) {r : Register} (hr : I.registerOperand 1 = some r) (s : Proc μ) :
    WritesWhereItReads S c I s ↔ AddressKept S c I s := by
  have h0' := registerOperand_of_memoryAt h0
  have ht : s.target c I = I := by rcases hc with rfl | rfl <;> rfl
  unfold WritesWhereItReads AddressKept
  rw [ht]
  constructor
  · intro h dest destSize hd
    have hw := writes_exchange S hc h0' h1 hr ((getOperand_withLog S h0 s _).2 hd)
    rw [(atWrite_withLog s c I dest destSize).access] at hw
    have hsome := access_isSome (s.atWrite c I dest destSize) s I 0
    cases ha : (s.atWrite c I dest destSize).access I 0 with
    | none =>
      rw [ha] at hsome
      exact (Option.not_isSome_iff_eq_none.1 (by simp [← hsome])).symm
    | some a =>
      refine (h a ?_).symm
      rw [hw, ha]
      exact List.mem_singleton_self a
  · intro h a ha
    cases hd : getOperand S.logged I 0 s.withLog with
    | ok d t =>
      obtain rfl : s.withLog = t := (getOperand_keeps S.logged I 0 _).ok hd
      rw [writes_exchange S hc h0' h1 hr hd, (atWrite_withLog s c I d.1 d.2).access,
        h d.1 d.2 ((getOperand_withLog S h0 s _).1 hd)] at ha
      exact Option.mem_toList.1 ha
    | error e t =>
      obtain rfl : s.withLog = t := (getOperand_keeps S.logged I 0 _).error hd
      have hx : callGeneral S.logged I c s.withLog = .error e s.withLog := by
        rcases hc with rfl | rfl <;> exact bind_of_error hd
      unfold writes at ha
      rw [hx] at ha
      cases ha

/-- The write of a read-modify-write instruction goes to the address its memory operand had before
it, unless `xchg` or `xadd` has changed the source register and the address with it. -/
theorem writesWhereItReads_iff (S : MemoryStream μ) {c : General} (hc : c.isReadModifyWrite)
    {I : Insn} (h0 : (I.memoryAt 0).isSome) (h1 : I.memoryAt 1 = none) (s : Proc μ) :
    WritesWhereItReads S c I s ↔ AddressKept S c I s := by
  obtain ⟨p, h0⟩ := Option.isSome_iff_exists.1 h0
  have h0' := registerOperand_of_memoryAt h0
  by_cases hx : c = .xchg ∨ c = .xadd
  · cases hr : I.registerOperand 1 with
    | some r => exact writesWhereItReads_exchange_iff S hx h0 h1 hr s
    | none =>
      refine iff_of_true ?_ fun dest destSize _ => by rw [atWrite_of_not_register hr]
      rcases hx with rfl | rfl
      · exact writesWhereItReads_of_keeps (callXchg_writes S h0' h1 hr)
      · exact writesWhereItReads_of_keeps (callXadd_writes S h0' h1 hr)
  · obtain ⟨hx, ha⟩ := not_or.1 hx
    refine iff_of_true (writesWhereItReads_of_rmw S hc hx ha h0' s) fun dest destSize _ => ?_
    have hw : s.atWrite c I dest destSize = s := by
      unfold Proc.atWrite
      split
      · exact absurd rfl hx
      · exact absurd rfl ha
      · rfl
    rw [hw]

/-! ### An exchange with its own base register -/

/-- A memory of zeros that accepts every write. -/
def zeroStream : MemoryStream Unit where
  read _ _ _ size _ := .ok (List.replicate size 0)
  write _ _ _ bs _ := (.ok bs.length, ())

/-- `xadd [rax], r` in 64-bit mode. -/
def xaddRax (r : Register) : Insn where
  command := .general .xadd
  operands := [⟨.index ⟨.ds, some .rax, none, 0, 0⟩, .qword, .qword⟩, ⟨.register r, .qword, .qword⟩]
  iPrefix := .none
  opsize := .qword
  addressSize := .qword
  rexW := true
  fullCmdSize := 4
  signExtends := false
  pushSeg := false
  lockable := true
  isEvex := false

def raxAt (v : Value) : Proc Unit := (Proc.init ⟨true, .qword, .qword⟩ ()).setValue .rax v

theorem writesWhereItReads_xadd_rcx :
    AddressKept zeroStream .xadd (xaddRax .rcx) (raxAt 0x1000) := by
  have h : WritesWhereItReads zeroStream .xadd (xaddRax .rcx) (raxAt 0x1000) := by
    unfold WritesWhereItReads
    decide +kernel
  exact (writesWhereItReads_iff zeroStream rfl rfl rfl (raxAt 0x1000)).1 h

/-- `xadd [rax], rax` with `rax = 0x1000` writes to address 0. -/
theorem xadd_rax_writes_elsewhere :
    ¬ WritesWhereItReads zeroStream .xadd (xaddRax .rax) (raxAt 0x1000) := by
  unfold WritesWhereItReads
  decide +kernel

end Diana.Processor
