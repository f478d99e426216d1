import Diana.Processor.Stack

/-!
# Calls and returns

A call pushes the address behind it; a far call pushes CS before it, but in 16-bit mode only. A far
return pops both in every mode.

* `callCall_ok`, `callRet_of_read`, `callRetf_ok`: what the three leave;
* `call_returns_iff`: when a return undoes a call.
-/

namespace Diana.Processor

open Diana.Lib

variable {μ : Type}

/-- The calls with a code segment: through memory, or to an immediate pointer. -/
def Insn.isFarCall (I : Insn) : Bool :=
  match I.operands with
  | [⟨.memory _, _, _⟩] => true
  | [⟨.callPtr _ _, _, _⟩] => true
  | _ => false

/-- The address behind an instruction, in the address space of the mode. -/
def Proc.nextAddress (s : Proc μ) (I : Insn) : Value :=
  cutValue (s.getValue .rip + BitVec.ofNat 64 I.fullCmdSize) (if s.mode.amd64 then .qword
    else .dword)

section

variable {S : MemoryStream μ} {I J : Insn} {s t u v : Proc μ}

/-! ## The call -/

/-- The segment of a target is that of a far call. -/
theorem callTarget_far {target : Value × Option Value} (h : callTarget S I s = .ok target t) :
    target.2.isSome = I.isFarCall := by
  have hpost : Post (callTarget S I) s (fun target _ => target.2.isSome = I.isFarCall)
      (fun _ _ => True) := by
    unfold callTarget Insn.isFarCall
    rw [post_bind, post_get]
    split
    · next op hop =>
      rcases op with ⟨value, usedSize, usedAddressSize⟩
      rw [hop]
      cases value with
      | rel d => exact post_pure.2 rfl
      | register r => exact post_bind_of_forall fun ⟨_, _⟩ _ => post_pure.2 rfl
      | index x => exact post_bind_of_forall fun ⟨_, _⟩ _ => post_pure.2 rfl
      | memory x =>
        exact post_bind_of_forall fun ⟨_, _⟩ _ => post_bind_of_forall fun _ _ =>
          post_bind_of_forall fun _ _ =>
          post_pure.2 rfl
      | callPtr segment address => exact post_pure.2 rfl
      | imm d => trivial
      | other => trivial
    · trivial
  exact hpost.ok h

/-- The state a call goes on in. -/
def Proc.afterCall (s : Proc μ) (I : Insn) (target : Value × Option Value) (mem : μ) : Proc μ :=
  let rsp := s.getValue .rsp - I.opBytes
  let t := ({ s with mem, lastCallRIP := target.1, lastCallRSP := rsp }.setValue .rsp rsp).setValue
      .rip target.1
  match target.2 with
  | some segment => t.setValue (.seg .cs) segment
  | none => t

/-- A call that does not push CS: a near call, or one outside 16-bit mode. -/
theorem pushCS_skipped {target : Value × Option Value}
    (hcs : I.isFarCall = false ∨ s.mode.opsize ≠ .word) (htarget : callTarget S I s = .ok target s)
    (rsp : Value) : pushCS S I target.2.isSome rsp s = .ok rsp s := by
  have hneg : ¬ (target.2.isSome = true ∧ s.mode.opsize = .word) := by
    rw [callTarget_far htarget]
    rintro ⟨hfar, hword⟩
    rcases hcs with h | h
    · rw [h] at hfar
      cases hfar
    · exact h hword
  unfold pushCS
  rw [get_bind, if_neg hneg]
  rfl

theorem callCall_ok (hcs : I.isFarCall = false ∨ s.mode.opsize ≠ .word)
    (h : callCall S I s = .ok () t) : ∃ target mem, callTarget S I s = .ok target s ∧
      S.write s.mem (s.getValue (.seg .ss)) (s.getValue .rsp - I.opBytes)
        (leBytes I.opsize.bytes (s.getValue .rip + BitVec.ofNat 64 I.fullCmdSize)) .ss =
          (.ok I.opsize.bytes, mem) ∧
      t = s.afterCall I target mem := by
  unfold callCall at h
  rw [get_bind] at h
  cases htarget : callTarget S I s with
  | error e u =>
    rw [bind_of_error htarget] at h
    cases h
  | ok target u =>
    obtain rfl : s = u := (callTarget_keeps S I s).ok htarget
    rw [bind_of_ok htarget] at h
    dsimp only at h
    rw [bind_of_ok (pushCS_skipped hcs htarget _)] at h
    cases hset : setMemValue S (s.getValue (.seg .ss)) (s.getValue .rsp - I.opBytes) I.opsize
        (s.getValue .rip + BitVec.ofNat 64 I.fullCmdSize) .ss s with
    | error e u =>
      rw [bind_of_error hset] at h
      cases h
    | ok a u =>
      rw [bind_of_ok hset] at h
      obtain ⟨hw, hu⟩ := setMemValue_ok hset
      refine ⟨target, u.mem, rfl, hw, ?_⟩
      unfold Proc.afterCall
      rw [hu] at h
      obtain ⟨rip, _ | segment⟩ := target
      · cases h
        rfl
      · cases h
        rfl

theorem callCall_of_write {target : Value × Option Value} {mem : μ}
    (hcs : I.isFarCall = false ∨ s.mode.opsize ≠ .word) (htarget : callTarget S I s = .ok target s)
    (h : S.write s.mem (s.getValue (.seg .ss)) (s.getValue .rsp - I.opBytes)
      (leBytes I.opsize.bytes (s.getValue .rip + BitVec.ofNat 64 I.fullCmdSize)) .ss =
      (.ok I.opsize.bytes, mem)) :
    callCall S I s = .ok () (s.afterCall I target mem) := by
  unfold callCall
  rw [get_bind, bind_of_ok htarget]
  dsimp only
  rw [bind_of_ok (pushCS_skipped hcs htarget _), bind_of_ok (setMemValue_of_write h)]
  unfold Proc.afterCall
  obtain ⟨rip, _ | segment⟩ := target <;> rfl

section AfterCall

variable (I) (target : Value × Option Value) (mem : μ)

theorem afterCall_mem : (s.afterCall I target mem).mem = mem := by
  unfold Proc.afterCall
  dsimp only
  split
  · exact ((Proc.sameRest_setValueEx _ _ _ _ _).mem.trans
      (Proc.sameRest_setValueEx _ _ _ _ _).mem).trans (Proc.sameRest_setValueEx _ _ _ _ _).mem
  · exact (Proc.sameRest_setValueEx _ _ _ _ _).mem.trans (Proc.sameRest_setValueEx _ _ _ _ _).mem

theorem getValue_afterCall_of_ne {r : Register} (hcs : r.cell ≠ .seg .cs) (hrip : r.cell ≠ .rip)
    (hrsp : r.cell ≠ .gp 4) : (s.afterCall I target mem).getValue r = s.getValue r := by
  unfold Proc.afterCall
  dsimp only
  split
  · rw [getValue_setValue_of_ne _ hcs, getValue_setValue_of_ne _ hrip,
      getValue_setValue_of_ne _ hrsp]
    rfl
  · rw [getValue_setValue_of_ne _ hrip, getValue_setValue_of_ne _ hrsp]
    rfl

theorem getValue_rsp_afterCall :
    (s.afterCall I target mem).getValue .rsp = s.getValue .rsp - I.opBytes := by
  unfold Proc.afterCall
  dsimp only
  split
  · rw [getValue_setValue_of_ne _ (by decide), getValue_setValue_of_ne _ (by decide),
      getValue_setValue_r64]
  · rw [getValue_setValue_of_ne _ (by decide), getValue_setValue_r64]

theorem getValue_rip_afterCall : (s.afterCall I target mem).getValue .rip = target.1 := by
  have hrip : ∀ w : Proc μ, (w.setValue .rip target.1).getValue .rip = target.1 := fun w =>
    (getValue_setValue w .rip target.1).trans (cutValue_of_lt target.1.isLt)
  unfold Proc.afterCall
  dsimp only
  split
  · rw [getValue_setValue_of_ne _ (by decide), hrip]
  · rw [hrip]

theorem getValue_cs_afterCall (h : target.2 = none) :
    (s.afterCall I target mem).getValue (.seg .cs) = s.getValue (.seg .cs) := by
  unfold Proc.afterCall
  dsimp only
  rw [h]
  dsimp only
  rw [getValue_setValue_of_ne _ (by decide), getValue_setValue_of_ne _ (by decide)]
  rfl

end AfterCall

/-! ## The return -/

theorem retDropBytes_of_nil (h : J.operands = []) : retDropBytes S J = pure 0 := by
  unfold retDropBytes
  rw [h]

theorem callRet_of_read {bs : List Byte} (hJ : J.operands = [])
    (h : S.read u.mem (u.getValue (.seg .ss)) (u.getValue .rsp) J.opsize.bytes .ss = .ok bs)
    (hl : bs.length = J.opsize.bytes) :
    callRet S J u = .ok ()
    ((u.setValue .rsp (u.getValue .rsp + J.opBytes)).setValue .rip (leValue bs)) := by
  unfold callRet internalRet
  rw [retDropBytes_of_nil hJ, pure_bind, get_bind, bind_of_ok (getMemValue_of_read h hl),
    if_neg (by decide)]
  rw [add_zero]
  rfl

theorem callRetf_ok (hJ : J.operands = []) (h : callRetf S J u = .ok () v) :
    v.getValue .rsp = u.getValue .rsp + J.opBytes + J.opBytes := by
  unfold callRetf internalRet at h
  rw [retDropBytes_of_nil hJ, pure_bind, get_bind] at h
  cases hrip : getMemValue S (u.getValue (.seg .ss)) (u.getValue .rsp) J.opsize .ss u with
  | error e w =>
    rw [bind_of_error hrip] at h
    cases h
  | ok rip w =>
    obtain rfl : u = w := (getMemValue_keeps S _ _ _ _ u).ok hrip
    rw [bind_of_ok hrip, if_pos rfl] at h
    cases hcs : getMemValue S (u.getValue (.seg .ss)) (u.getValue .rsp + J.opBytes)
      J.opsize .ss u with
    | error e w =>
      rw [bind_of_error hcs] at h
      cases h
    | ok cs w =>
      obtain rfl : u = w := (getMemValue_keeps S _ _ _ _ u).ok hcs
      rw [bind_of_ok hcs] at h
      cases h
      change (((u.setValue .rsp (u.getValue .rsp + J.opBytes + J.opBytes + 0)).setValue .rip
        rip).setValue (.seg .cs) cs).getValue .rsp = _
      rw [getValue_setValue_of_ne _ (by decide), getValue_setValue_of_ne _ (by decide),
        getValue_setValue_r64, add_zero]

/-- Over flat memory a far return always runs. -/
theorem callRetf_flat (hJ : J.operands = []) (u : Proc (Value → Byte)) :
    ∃ v, callRetf flatStream J u = .ok () v := by
  unfold callRetf internalRet
  rw [retDropBytes_of_nil hJ, pure_bind, get_bind,
    bind_of_ok (getMemValue_of_read rfl (length_load _ _ _)), if_pos rfl,
    bind_of_ok (getMemValue_of_read rfl (length_load _ _ _))]
  exact ⟨_, rfl⟩

/-! ## Balance -/

/-- What a return finds of a call: the stack pointer, the segments and the slot as the
call has left them. -/
structure SameFrame (S : MemoryStream μ) (I : Insn) (t u : Proc μ) : Prop where
  rsp : u.getValue .rsp = t.getValue .rsp
  ss : u.getValue (.seg .ss) = t.getValue (.seg .ss)
  cs : u.getValue (.seg .cs) = t.getValue (.seg .cs)
  slot : S.read u.mem (t.getValue (.seg .ss)) (t.getValue .rsp) I.opsize.bytes .ss =
    S.read t.mem (t.getValue (.seg .ss)) (t.getValue .rsp) I.opsize.bytes .ss

/-- The return for a call, from `u`, undoes it: the stack pointer and CS are those of `s` again, and
RIP is behind the call. -/
def Returns (S : MemoryStream μ) (I J : Insn) (s u : Proc μ) : Prop :=
  ∃ v, (if I.isFarCall then callRetf S J u else callRet S J u) = .ok () v ∧
    v.getValue .rsp = s.getValue .rsp ∧
    v.getValue (.seg .cs) = s.getValue (.seg .cs) ∧ v.getValue .rip = s.nextAddress I

theorem opBytes_ne_zero (I : Insn) : I.opBytes ≠ 0 := by
  unfold Insn.opBytes
  cases I.opsize <;> decide

/-- A return of the same operand size undoes a near call whose return address fits the operand size,
and no other call. -/
theorem call_returns_iff (hS : S.ReadsBack) (hmode : s.mode.opsize ≠ .word)
    (hcall : callCall S I s = .ok () t) (hframe : SameFrame S I t u) (hop : J.opsize = I.opsize)
    (hJ : J.operands = []) : Returns S I J s u ↔ I.isFarCall = false ∧
      cutValue (s.getValue .rip + BitVec.ofNat 64 I.fullCmdSize) I.opsize = s.nextAddress I := by
  obtain ⟨target, mem, htarget, hw, rfl⟩ := callCall_ok (.inr hmode) hcall
  have hbytes : J.opBytes = I.opBytes := by rw [Insn.opBytes, hop, Insn.opBytes]
  have hrsp : u.getValue .rsp = s.getValue .rsp - I.opBytes :=
    hframe.rsp.trans (getValue_rsp_afterCall I target mem)
  unfold Returns
  cases hfar : I.isFarCall with
  | true =>
    -- two slots are popped, one was pushed
    constructor
    · rintro ⟨v, hv, hvrsp, -, -⟩
      rw [if_pos rfl] at hv
      rw [callRetf_ok hJ hv, hrsp, hbytes, BitVec.sub_add_cancel] at hvrsp
      exact absurd (BitVec.add_right_eq_self.1 hvrsp) (opBytes_ne_zero I)
    · rintro ⟨h, -⟩
      cases h
  | false =>
    have hnone : target.2 = none := by
      have h := callTarget_far htarget
      rw [hfar] at h
      exact Option.isNone_iff_eq_none.1 (by rw [← Option.not_isSome, h]; rfl)
    have hread : S.read u.mem (u.getValue (.seg .ss)) (u.getValue .rsp) J.opsize.bytes .ss =
        .ok (leBytes J.opsize.bytes (s.getValue .rip + BitVec.ofNat 64 I.fullCmdSize)) := by
      have hslot := hframe.slot
      rw [afterCall_mem, getValue_rsp_afterCall,
        getValue_afterCall_of_ne I target mem (by decide) (by decide) (by decide)] at hslot
      rw [hframe.ss, hrsp, hop,
        getValue_afterCall_of_ne I target mem (by decide) (by decide) (by decide), hslot]
      exact hS.read hw
    have hrun := callRet_of_read hJ hread (length_leBytes _ _)
    rw [if_neg (by decide), hrun, leValue_leBytes, hop, hbytes, hrsp, BitVec.sub_add_cancel]
    have hcs : u.getValue (.seg .cs) = s.getValue (.seg .cs) :=
      hframe.cs.trans (getValue_cs_afterCall I target mem hnone)
    set x := cutValue (s.getValue .rip + BitVec.ofNat 64 I.fullCmdSize) I.opsize with hx
    have hrip : ((u.setValue .rsp (s.getValue .rsp)).setValue .rip x).getValue .rip = x :=
      (getValue_setValue _ .rip x).trans (cutValue_of_lt x.isLt)
    constructor
    · rintro ⟨v, hv, -, -, hvrip⟩
      cases hv
      exact ⟨rfl, hrip.symm.trans hvrip⟩
    · rintro ⟨-, h⟩
      refine ⟨_, rfl, ?_, ?_, hrip.trans h⟩
      · rw [getValue_setValue_of_ne _ (by decide), getValue_setValue_r64]
      · rw [getValue_setValue_of_ne _ (by decide), getValue_setValue_of_ne _ (by decide), hcs]

end

/-- Calls and returns of a mode: `opsize` is that of the stack slots. -/
def transferInsn (c : General) (operands : List LinkedOperand) (opsize : Size) (fullCmdSize : Nat) :
    Insn where
  command := .general c
  operands := operands
  iPrefix := .none
  opsize := opsize
  addressSize := opsize
  rexW := false
  fullCmdSize := fullCmdSize
  signExtends := false
  pushSeg := false
  lockable := false
  isEvex := false

/-- At 0x1000, with the stack pointer at 0x8000. -/
def atCall (mode : Mode) : Proc (Value → Byte) :=
  ((Proc.init mode fun _ => 0).setValue .rsp 0x8000).setValue .rip 0x1000

theorem atCall_mode (mode : Mode) : (atCall mode).mode = mode :=
  (Proc.sameRest_setValueEx _ _ _ _ _).mode.trans (Proc.sameRest_setValueEx _ _ _ _ _).mode

theorem atCall_rip (mode : Mode) : (atCall mode).getValue .rip = 0x1000 :=
  (getValue_setValue _ .rip 0x1000).trans (by decide)

/-- `call +0x20` in 64-bit mode. -/
theorem call_returns_near :
    ∃ t, callCall flatStream (transferInsn .call [⟨.rel 0x20, .qword, .qword⟩] .qword 5)
      (atCall ⟨true, .dword, .qword⟩) = .ok () t ∧
    Returns flatStream (transferInsn .call [⟨.rel 0x20, .qword, .qword⟩] .qword 5)
    (transferInsn .ret [] .qword 1)
      (atCall ⟨true, .dword, .qword⟩) t := by
  set I := transferInsn .call [⟨.rel 0x20, .qword, .qword⟩] .qword 5 with hI
  set s := atCall ⟨true, .dword, .qword⟩ with hs
  have hmode : s.mode.opsize ≠ .word := by
    rw [hs, atCall_mode]
    decide
  have htarget : callTarget flatStream I s = .ok (s.getValue .rip + 0x20 + 5, none) s := rfl
  have hrun := callCall_of_write (.inr hmode) htarget
      (congrArg (Prod.mk · _) (congrArg Except.ok (length_leBytes _ _)))
  refine ⟨_, hrun,
    (call_returns_iff (J := transferInsn .ret [] .qword 1) flatStream_readsBack hmode hrun
    ⟨rfl, rfl, rfl, rfl⟩ rfl rfl).2 ⟨rfl, ?_⟩⟩
  unfold Proc.nextAddress
  rw [hs, atCall_rip, atCall_mode]
  decide

/-- `call 0x1B:0x2000` in 32-bit mode pushes 4 bytes and the `retf` for it pops 8. -/
theorem call_far_unbalanced :
    ∃ s t v : Proc (Value → Byte), s = atCall ⟨false, .dword, .dword⟩ ∧
      callCall flatStream (transferInsn .call [⟨.callPtr 0x1B 0x2000, .dword, .dword⟩] .dword 7) s =
      .ok () t ∧ callRetf flatStream (transferInsn .retf [] .dword 1) t = .ok () v ∧
      s.getValue .rsp = 0x8000 ∧ v.getValue .rsp = 0x8004 := by
  set I := transferInsn .call [⟨.callPtr 0x1B 0x2000, .dword, .dword⟩] .dword 7 with hI
  set s := atCall ⟨false, .dword, .dword⟩ with hs
  have hmode : s.mode.opsize ≠ .word := by
    rw [hs, atCall_mode]
    decide
  have hrsp : s.getValue .rsp = 0x8000 := by
    rw [hs, atCall, getValue_setValue_of_ne _ (by decide), getValue_setValue_r64]
  have htarget : callTarget flatStream I s = .ok (0x2000, some 0x1B) s := rfl
  have hrun := callCall_of_write (.inr hmode) htarget
      (congrArg (Prod.mk · _) (congrArg Except.ok (length_leBytes _ _)))
  obtain ⟨v, hv⟩ := callRetf_flat (J := transferInsn .retf [] .dword 1) rfl _
  refine ⟨s, _, v, rfl, hrun, hv, hrsp, ?_⟩
  rw [callRetf_ok rfl hv, getValue_rsp_afterCall, hrsp]
  decide

end Diana.Processor
