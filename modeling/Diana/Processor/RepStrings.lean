import Diana.Lib.Repetition
import Diana.Processor.ExecOnce
import Diana.Processor.StringCommands

/-!
# Repeated string commands

`CallWithRep` over the string commands, next to the loop it stands for: the single command and one
less in the count register, until the count is used up or ZF ends it.

* `StringCommand.single`, `Proc.countDown`, `StringCommand.repetition`: the loop;
* `StringCommand.repeated`: the code;
* `Restarts`: the code runs the loop, an element that fails leaves the state after the elements
  before it, and the command can be executed again there;
* `restarts_iff`: when that is so.
-/

namespace Diana.Processor

open Diana.Lib

variable {μ : Type}

/-! ## The loop -/

/-- One less in the count register. -/
def Proc.countDown (count : Register) (s : Proc μ) :
    Proc μ := s.setValue count (s.getValue count - 1)

namespace StringCommand

variable (c : StringCommand) (S : MemoryStream μ) (I : Insn) (seg : SegReg) (repn : Bool)
  (count : Register)

/-- The command without its prefix. -/
def single : Exec μ Unit := atExit Env.clearNormalRep (Processor.call (c.call S I seg))

/-- A repetition of `cmps` and `scas` goes on while ZF is set, under REPN while it is not. -/
def goesOn (t : Proc μ) : Prop := c.normalRep = true ∨ queryFlag t.flags flagZF = !repn

def repetition : Repetition Fault (Proc μ) where
  element := c.single S I seg
  pending s := s.getValue count ≠ 0
  tick s := s.countDown count
  goesOn := c.goesOn repn

/-- The command under its prefix. -/
def repeated (fuel : Nat) :
    Exec μ Unit := atExit Env.clearNormalRep (callWithRep fuel I (c.call S I seg) repn)

end StringCommand

/-! ## The count register -/

/-- The state in which a command starts. -/
structure Proc.Starts (s : Proc μ) : Prop where
  idle : s.Idle
  ripChanged : s.stateFlags.ripChanged = false
  normalRep : s.stateFlags.cmdUsesNormalRep = false
  toRemove : s.stateFlagsToRemove = .none

/-- A write of the count register clears bits of RCX: the count is ECX, and in 64-bit mode that
clears the upper half. -/
def ClearsHigh (count : Register) (s : Proc μ) : Prop :=
  s.mode.amd64 = true ∧ count = .r32 1 ∧ 2 ^ 32 ≤ (s.getValue .rcx).toNat

theorem repRegister_cases {addressSize : Size} {count : Register}
    (h : repRegister addressSize = some count) :
    count.cell = .gp 1 ∧ count.offset = 0 ∧ count.size = addressSize ∧
      (count = .r64 1 ∨ count = .r32 1 ∨ count = .r16 1) := by
  cases addressSize <;> cases h <;> simp [Register.cell, Register.offset, Register.size]

/-- The bits above the ones that are borrowed from. -/
theorem getLsbD_pred {x : Value} {size : Size} (h : cutValue x size ≠ 0) {i : Nat}
    (hi : size.bits ≤ i) : (x - 1).getLsbD i = x.getLsbD i := by
  have hx := x.isLt
  have hne : x.toNat % 2 ^ size.bits ≠ 0 := by
    intro h0
    apply h
    apply BitVec.eq_of_toNat_eq
    rw [toNat_cutValue, Size.low, BitVec.toNat_setWidth, h0]
    rfl
  have hle := Nat.mod_le x.toNat (2 ^ size.bits)
  have hsub : (x - 1).toNat = x.toNat - 1 := by
    rw [BitVec.toNat_sub]
    have hone : (1 : Value).toNat = 1 := rfl
    omega
  have hdiv : (x.toNat - 1) / 2 ^ size.bits = x.toNat / 2 ^ size.bits := by
    have hsplit := Nat.div_add_mod x.toNat (2 ^ size.bits)
    have hlt := Nat.mod_lt x.toNat (Nat.two_pow_pos size.bits)
    apply Nat.div_eq_of_lt_le
    · rw [Nat.mul_comm]
      omega
    · rw [Nat.succ_mul, Nat.mul_comm]
      omega
  have hbit : ∀ v : Nat, v.testBit i = (v / 2 ^ size.bits).testBit (i - size.bits) := fun v => by
    rw [Nat.testBit_div_two_pow, Nat.sub_add_cancel hi]
  rw [← BitVec.testBit_toNat, ← BitVec.testBit_toNat, hsub, hbit, hdiv, ← hbit]

section

variable {s : Proc μ} {addressSize : Size} {count : Register}

theorem getValue_count (hcount : repRegister addressSize = some count) (s : Proc μ) :
    s.getValue count = cutValue (s.getValue .rcx) addressSize := by
  cases addressSize <;> cases hcount
  · exact getValueEx_r64 s 1 .word
  · exact getValueEx_r64 s 1 .dword
  · exact (cutValue_qword _).symm

theorem getLsbD_rcx (s : Proc μ) {i : Nat} (hi : i < 64) :
    (s.regs (.gp 1)).getLsbD i = (s.getValue .rcx).getLsbD i := by
  have h64 : 8 * (Register.r64 1).size.bytes = 64 := rfl
  unfold Proc.getValue Proc.getValueEx Cells.get
  rw [BitVec.getLsbD_setWidth, BitVec.getLsbD_extractLsb', h64]
  simp [hi, Register.offset, Register.cell]

/-- The low part counted down inside RCX. -/
theorem set_countDown {size : Size} (hne : cutValue (s.getValue .rcx) size ≠ 0) :
    s.regs.set (.gp 1) 0 (8 * size.bytes) ((cutValue (s.getValue .rcx) size - 1).setWidth _) =
      s.regs.set (.gp 1) 0 64 (s.getValue .rcx - 1) := by
  have hlow : cutValue (cutValue (s.getValue .rcx) size - 1) size =
      cutValue (s.getValue .rcx - 1) size := by
    rw [BitVec.sub_eq_add_neg, BitVec.sub_eq_add_neg]
    exact (cutValue_add_inj _).2 (cutValue_cutValue _ size)
  funext cell
  by_cases hcell : cell = .gp 1
  · subst hcell
    apply BitVec.eq_of_getLsbD_eq
    intro i hi
    have h64 : i < 64 := hi
    have hin : 0 ≤ i ∧ i < 0 + 64 := ⟨Nat.zero_le i, by omega⟩
    rw [Cells.getLsbD_set _ _ hi, Cells.getLsbD_set _ _ hi, if_pos hin]
    by_cases hlt : i < size.bits
    · have hbit := congrArg (fun v : Value => v.getLsbD i) hlow
      simp only [getLsbD_cutValue, hlt, decide_true, Bool.true_and] at hbit
      have hlt' : i < 8 * size.bytes := hlt
      rw [if_pos ⟨Nat.zero_le i, by omega⟩, BitVec.getLsbD_setWidth, Nat.sub_zero, hbit,
        decide_eq_true hlt']
      rfl
    · have hge : ¬ (0 ≤ i ∧ i < 0 + 8 * size.bytes) := fun h => hlt (by
        have := h.2
        rw [Nat.zero_add] at this
        exact this)
      rw [if_neg hge, Nat.sub_zero, getLsbD_pred hne (by omega), getLsbD_rcx s h64]
  · rw [Cells.set_apply_other _ _ _ _ hcell, Cells.set_apply_other _ _ _ _ hcell]

/-- One less in RCX is one less in the count register. -/
theorem regs_countDown (hcount : repRegister addressSize = some count) (hne : s.getValue count ≠ 0)
    (hhigh : ¬ ClearsHigh count s) :
    (s.setValue .rcx (s.getValue .rcx - 1)).regs = (s.countDown count).regs := by
  have hcut := getValue_count hcount s
  rw [hcut] at hne
  have hrcx : (s.setValue .rcx (s.getValue .rcx - 1)).regs =
      s.regs.set (.gp 1) 0 64 (s.getValue .rcx - 1) := by
    refine (Proc.setValueEx_regs s (some .rcx) .rcx (s.getValue .rcx - 1) .qword (by nofun)).trans
      ?_
    exact congrArg (s.regs.set (.gp 1) 0 64) (BitVec.setWidth_eq _)
  unfold Proc.countDown
  rw [hrcx, hcut, ← set_countDown hne]
  cases addressSize with
  | byte => cases hcount
  | qword =>
    cases hcount
    exact (Proc.setValueEx_regs s (some (.r64 1)) (.r64 1) _ .qword (by nofun)).symm
  | word =>
    cases hcount
    exact (Proc.setValueEx_regs s (some (.r16 1)) (.r16 1) _ .word (by nofun)).symm
  | dword =>
    cases hcount
    by_cases hm : s.mode.amd64 = true
    · have hlt : (s.getValue .rcx).toNat < 2 ^ 32 := by
        by_contra hge
        exact hhigh ⟨hm, rfl, by omega⟩
      have hx : cutValue (s.getValue .rcx) .dword = s.getValue .rcx := cutValue_of_lt hlt
      rw [hx] at hne
      have hne' : (s.getValue .rcx).toNat ≠ 0 := fun h => hne (BitVec.eq_of_toNat_eq h)
      have hpred : (s.getValue .rcx - 1).toNat < 2 ^ 32 := by
        have hone : (1 : Value).toNat = 1 := rfl
        rw [BitVec.toNat_sub, hone]
        omega
      rw [set_countDown (hx.symm ▸ hne), setValue_regs32 s _ 1 hm, hx]
      exact congrArg (s.regs.set (.gp 1) 0 64) (cutValue_of_lt hpred).symm
    · exact (Proc.setValueEx_regs s (some (.r32 1)) (.r32 1) _ .dword fun h => hm h.2.1).symm

theorem setValue_idle (h : s.Idle) {r : Register} (hr : r.cell ≠ .rip) (v : Value) :
    s.setValue r v = { s with regs := (s.setValue r v).regs } := by
  have hrip : ¬ (some r = some Register.rip ∨ some r = some Register.ip) := by
    rintro (h | h) <;> cases h <;> exact hr rfl
  have hidle : s.stateFlags.updateFlagsPsz = false := h
  unfold Proc.setValue Proc.setValueEx Proc.updatePsz Proc.setCell
  dsimp only
  rw [if_neg hrip]
  split_ifs <;> simp_all

theorem clearNormalRep_setValue (s : Proc μ) (r : Register) (v : Value) :
    Env.clearNormalRep (s.setValue r v) = (Env.clearNormalRep s).setValue r v := by
  unfold Env.clearNormalRep Proc.setValue Proc.setValueEx Proc.updatePsz Proc.setCell
  dsimp only
  split_ifs <;> rfl

theorem countDown_eq (hcount : repRegister addressSize = some count) (hidle : s.Idle)
    (hne : s.getValue count ≠ 0) (hhigh : ¬ ClearsHigh count s) :
    Env.clearNormalRep (s.setValue .rcx (s.getValue .rcx - 1)) =
    (Env.clearNormalRep s).countDown count := by
  obtain ⟨hcell, -⟩ := repRegister_cases hcount
  have hclear : (Env.clearNormalRep s).Idle := hidle
  have hregs := regs_countDown (s := Env.clearNormalRep s) hcount hne hhigh
  have hrcx :=
    setValue_idle hclear (r := .rcx) (by decide) ((Env.clearNormalRep s).getValue .rcx - 1)
  have hdown := setValue_idle hclear (r := count) (by rw [hcell]; nofun)
      ((Env.clearNormalRep s).getValue count - 1)
  unfold Proc.countDown at hregs
  rw [hregs] at hrcx
  exact (clearNormalRep_setValue s _ _).trans (hrcx.trans hdown.symm)

end

/-! ## One element -/

section

variable {S : MemoryStream μ} {I : Insn} {seg : SegReg} {c : StringCommand} {s t u : Proc μ}

theorem mark_frame (c : StringCommand) (s : Proc μ) :
    (c.mark s).stateFlags.ripChanged = s.stateFlags.ripChanged ∧
      (c.mark s).stateFlagsToRemove = s.stateFlagsToRemove ∧ (c.mark s).flags = s.flags ∧
      (c.mark s).regs = s.regs ∧ (c.mark s).mode = s.mode ∧ (c.mark s).mem = s.mem ∧
      ((c.mark s).Idle ↔ s.Idle) := by
  unfold StringCommand.mark
  split <;> exact ⟨rfl, rfl, rfl, rfl, rfl, rfl, Iff.rfl⟩

theorem removeFlags_of_none (h : s.stateFlagsToRemove = .none) : s.removeFlags = s := by
  have hkeep : s.stateFlags.remove .none = s.stateFlags := by
    unfold StateFlags.remove StateFlags.none
    simp
  unfold Proc.removeFlags
  rw [h, hkeep, ← h]

/-- What an element leaves behind, and what it has done where it fails. -/
theorem call_post (hs : s.Starts) :
    Post (call (c.call S I seg)) s (fun _ t => StringFrame (c.mark s) t)
      fun _ t => StringFrame (c.mark s) t ∧ t = { c.mark s with mem := t.mem } := by
  obtain ⟨-, hremove, -⟩ := mark_frame c s
  have hkeeps := body_keeps (S := S) (I := I) element_stringFrame c seg (c.mark s)
  have hfault := body_fault (S := S) (I := I) c seg (c.mark s)
  unfold Post at hkeeps hfault ⊢
  unfold call atExit
  rw [c.call_apply]
  cases hrun : c.body S I seg (c.mark s) with
  | ok a t =>
    rw [hrun] at hkeeps
    dsimp only at hkeeps ⊢
    rw [removeFlags_of_none (hkeeps.toRemove.trans (hremove.trans hs.toRemove))]
    exact hkeeps
  | error e t =>
    rw [hrun] at hkeeps hfault
    dsimp only at hkeeps hfault ⊢
    rw [removeFlags_of_none (hkeeps.toRemove.trans (hremove.trans hs.toRemove))]
    exact ⟨hkeeps, hfault⟩

/-- The element does not look at the mark of the elements before it. -/
theorem call_mark (hmark : s.stateFlags.cmdUsesNormalRep = true → c.normalRep = true) :
    call (c.call S I seg) (Env.clearNormalRep s) = call (c.call S I seg) s := by
  have hsame : c.mark (Env.clearNormalRep s) = c.mark s := by
    unfold StringCommand.mark
    cases hc : c.normalRep with
    | true => rfl
    | false =>
      have hflag : s.stateFlags.cmdUsesNormalRep = false := by
        cases h : s.stateFlags.cmdUsesNormalRep with
        | false => rfl
        | true => rw [hmark h] at hc; cases hc
      unfold Env.clearNormalRep
      rw [if_neg nofun, if_neg nofun, ← hflag]
  unfold call atExit
  rw [c.call_apply, c.call_apply, hsame]

end

/-! ## The code -/

section

variable {command : Exec μ Unit} {repn : Bool} {usedReg : Register} {fuel : Nat} {s t : Proc μ}

theorem repLoop_done (h : s.getValue usedReg = 0) :
    repLoop command repn usedReg (fuel + 1) s = .ok () s := by
  unfold repLoop
  rw [get_bind, if_pos h]
  rfl

theorem repLoop_error {e : Fault} (h : s.getValue usedReg ≠ 0)
    (hcall : call command s = .error e t) :
    repLoop command repn usedReg (fuel + 1) s = .error e t := by
  unfold repLoop
  rw [get_bind, if_neg h]
  exact bind_of_error hcall

/-- One turn of `CallWithRep`. -/
theorem repLoop_ok (h : s.getValue usedReg ≠ 0) (hcall : call command s = .ok () t)
    (hrip : t.stateFlags.ripChanged = false) :
    repLoop command repn usedReg (fuel + 1) s =
      if (if repn then queryFlag (t.setValue .rcx (t.getValue .rcx - 1)).flags flagZF = true
        else ¬ (t.setValue .rcx (t.getValue .rcx - 1)).stateFlags.cmdUsesNormalRep = true ∧
          ¬ queryFlag (t.setValue .rcx (t.getValue .rcx - 1)).flags flagZF = true) then
        .ok () (t.setValue .rcx (t.getValue .rcx - 1))
      else repLoop command repn usedReg fuel (t.setValue .rcx (t.getValue .rcx - 1)) := by
  conv_lhs => unfold repLoop
  rw [get_bind, if_neg h]
  refine (bind_of_ok hcall).trans ?_
  rw [get_bind, hrip, if_neg (by decide)]
  rw [modify_bind, get_bind]
  generalize t.setValue .rcx (t.getValue .rcx - 1) = w
  split
  · split <;> rfl
  · split <;> rfl

end

section

variable {c : StringCommand} {S : MemoryStream μ} {I : Insn} {seg : SegReg} {repn : Bool}
  {count : Register} {s t : Proc μ}

theorem getValue_countDown (s : Proc μ) :
    (s.countDown count).getValue count = cutValue (s.getValue count - 1) count.size :=
  getValue_setValue s count _

theorem countDown_mode (s : Proc μ) :
    (s.countDown count).mode = s.mode := (Proc.sameRest_setValueEx s _ _ _ _).mode

/-- ECX written in 64-bit mode. -/
theorem rcx_countDown_lt (hm : s.mode.amd64 = true) :
    ((s.countDown (.r32 1)).getValue .rcx).toNat < 2 ^ 32 := by
  have hrcx : (s.countDown (.r32 1)).getValue .rcx = cutValue (s.getValue (.r32 1) - 1) .dword := by
    change ((s.setValue (.r32 1) (s.getValue (.r32 1) - 1)).regs.get (.gp 1) 0 64).setWidth 64 = _
    rw [setValue_regs32 s _ 1 hm, Cells.get_set_same _ _ (by decide), BitVec.setWidth_eq]
  rw [hrcx, toNat_cutValue]
  exact (Size.dword.low (s.getValue (.r32 1) - 1)).isLt

theorem not_clearsHigh_countDown (s : Proc μ) : ¬ ClearsHigh count (s.countDown count) := by
  rintro ⟨hm, rfl, hge⟩
  rw [countDown_mode] at hm
  have hlt := rcx_countDown_lt hm
  omega

theorem repLoop_runs (hcount : repRegister I.addressSize = some count)
    (hrepn : repn = true → c.normalRep = false) (fuel : Nat) (hs : (Env.clearNormalRep s).Starts)
    (hmark : s.stateFlags.cmdUsesNormalRep = true → c.normalRep = true)
    (hfuel : (s.getValue count).toNat < fuel)
    (hhigh : ∀ t, c.single S I seg (Env.clearNormalRep s) = .ok () t → ¬ ClearsHigh count s) :
    (c.repetition S I seg repn count).Runs (Env.clearNormalRep s)
      (atExit Env.clearNormalRep (repLoop (c.call S I seg) repn count fuel) s) := by
  induction fuel generalizing s with
  | zero => exact absurd hfuel (Nat.not_lt_zero _)
  | succ fuel ih =>
    by_cases h0 : s.getValue count = 0
    · unfold atExit
      rw [repLoop_done h0]
      exact (Repetition.Ends.done (not_not.2 h0)).runs
    · have hpost : Post (call (c.call S I seg)) (Env.clearNormalRep s) _ _ := call_post hs
      have hsingle : c.single S I seg (Env.clearNormalRep s) =
          atExit Env.clearNormalRep (call (c.call S I seg)) s := by
        unfold StringCommand.single atExit
        rw [call_mark hmark]
      rw [hsingle] at hhigh
      unfold Post at hpost
      rw [call_mark hmark] at hpost
      cases hcall : call (c.call S I seg) s with
      | error e t =>
        have hrun : atExit Env.clearNormalRep (repLoop (c.call S I seg) repn count (fuel + 1)) s =
            .error e (Env.clearNormalRep t) := by
          unfold atExit
          rw [repLoop_error h0 hcall]
        have helement : c.single S I seg (Env.clearNormalRep s) =
            .error e (Env.clearNormalRep t) := by
          rw [hsingle]
          unfold atExit
          rw [hcall]
        rw [hrun]
        exact (Repetition.Ends.fault h0 helement).runs
      | ok a t =>
        rw [hcall] at hpost
        dsimp only at hpost
        obtain ⟨hripm, hremovem, hflagsm, hregsm, hmodem, -, hidlem⟩ :=
          mark_frame c (Env.clearNormalRep s)
        have hidle : t.Idle := hpost.idle (hidlem.2 hs.idle)
        have hrip : t.stateFlags.ripChanged = false :=
          hpost.ripChanged.trans (hripm.trans hs.ripChanged)
        have hnormal : t.stateFlags.cmdUsesNormalRep = c.normalRep := by
          rw [hpost.normalRep]
          unfold StringCommand.mark
          cases c.normalRep <;> rfl
        have hrcx : t.getValue .rcx = s.getValue .rcx := by
          rw [hpost.rcx]
          unfold Proc.getValue Proc.getValueEx
          rw [hregsm]
          rfl
        have hcnt : t.getValue count = s.getValue count := by
          rw [getValue_count hcount, getValue_count hcount, hrcx]
        have hhigh' : ¬ ClearsHigh count t := by
          rintro ⟨hm, hreg, hge⟩
          refine hhigh (Env.clearNormalRep t) ?_ ⟨?_, hreg, hrcx ▸ hge⟩
          · unfold atExit
            rw [hcall]
          · rw [← hm, hpost.mode, hmodem]
            rfl
        have helement : c.single S I seg (Env.clearNormalRep s) =
            .ok () (Env.clearNormalRep t) := by
          rw [hsingle]
          unfold atExit
          rw [hcall]
        have hw := countDown_eq hcount hidle (hcnt ▸ h0) hhigh'
        have hregs := setValue_idle hidle (r := .rcx) (by decide) (t.getValue .rcx - 1)
        have hstep : repLoop (c.call S I seg) repn _ (fuel + 1) s = _ := repLoop_ok h0 hcall hrip
        generalize t.setValue .rcx (t.getValue .rcx - 1) = w at hw hregs hstep
        have hwnormal : w.stateFlags.cmdUsesNormalRep = c.normalRep :=
          (congrArg (fun s : Proc μ => s.stateFlags.cmdUsesNormalRep) hregs).trans hnormal
        have hstarts : (Env.clearNormalRep w).Starts := by
          refine ⟨?_, ?_, rfl, ?_⟩
          · exact (congrArg (fun s : Proc μ => s.stateFlags.updateFlagsPsz) hregs).trans hidle
          · exact (congrArg (fun s : Proc μ => s.stateFlags.ripChanged) hregs).trans hrip
          · exact (congrArg Proc.stateFlagsToRemove hregs).trans
              (hpost.toRemove.trans (hremovem.trans hs.toRemove))
        have hgoes : c.goesOn repn (Env.clearNormalRep w) ↔
            ¬ (if repn then queryFlag w.flags flagZF = true
              else ¬ w.stateFlags.cmdUsesNormalRep = true ∧ ¬ queryFlag w.flags flagZF = true) := by
          unfold StringCommand.goesOn
          rw [hwnormal]
          change c.normalRep = true ∨ queryFlag w.flags flagZF = !repn ↔ _
          cases repn with
          | true =>
            rw [hrepn rfl]
            cases queryFlag w.flags flagZF <;> simp
          | false => cases queryFlag w.flags flagZF <;> cases c.normalRep <;> simp
        have hlt : (w.getValue count).toNat < fuel := by
          have hpos : (s.getValue count).toNat ≠ 0 := fun h => h0 (BitVec.eq_of_toNat_eq h)
          have hone : (1 : Value).toNat = 1 := rfl
          have hval : w.getValue count = cutValue (t.getValue count - 1) count.size :=
            (congrArg (fun s : Proc μ => s.getValue count) hw).trans (getValue_countDown _)
          have hle : (cutValue (t.getValue count - 1) count.size).toNat ≤
              (t.getValue count - 1).toNat := by
            rw [toNat_cutValue, Size.low, BitVec.toNat_setWidth]
            exact Nat.mod_le _ _
          have hpred : (s.getValue count - 1).toNat = (s.getValue count).toNat - 1 := by
            have hcntlt := (s.getValue count).isLt
            rw [BitVec.toNat_sub, hone]
            omega
          rw [hval]
          rw [hcnt] at hle ⊢
          omega
        have hrun : atExit Env.clearNormalRep (repLoop (c.call S I seg) repn count (fuel + 1)) s =
            if (if repn then queryFlag w.flags flagZF = true
              else ¬ w.stateFlags.cmdUsesNormalRep = true ∧ ¬ queryFlag w.flags flagZF = true) then
              .ok () (Env.clearNormalRep w)
            else atExit Env.clearNormalRep (repLoop (c.call S I seg) repn count fuel) w := by
          unfold atExit
          rw [hstep]
          split_ifs <;> rfl
        rw [hrun]
        by_cases hgo : c.goesOn repn (Env.clearNormalRep w)
        · rw [if_neg (hgoes.1 hgo)]
          have hnext : ¬ ClearsHigh count (Env.clearNormalRep w) :=
            hw ▸ not_clearsHigh_countDown (Env.clearNormalRep t)
          have hrest := ih hstarts (fun h => hwnormal ▸ h) hlt fun _ _ => hnext
          rw [hw] at hgo hrest
          exact .step h0 helement hgo hrest
        · rw [if_pos (not_not.1 fun h => hgo (hgoes.2 h))]
          rw [hw] at hgo ⊢
          exact (Repetition.Ends.stop h0 helement hgo).runs

/-! ## Restarts -/

/-- What no element changes. -/
structure SameCount (s t : Proc μ) : Prop where
  mode : t.mode = s.mode
  rcx : t.getValue .rcx = s.getValue .rcx
  rip : t.getValue .rip = s.getValue .rip

theorem call_keeps (c : StringCommand) (S : MemoryStream μ) (I : Insn) (seg : SegReg) :
    Keeps SameCount (call (c.call S I seg)) := by
  intro s
  have hkeeps := body_keeps (S := S) (I := I) element_stringFrame c seg (c.mark s)
  obtain ⟨-, -, -, hregs, hmode, -, -⟩ := mark_frame c s
  have hreg : ∀ r, (c.mark s).getValue r = s.getValue r := fun r => by
    unfold Proc.getValue Proc.getValueEx
    rw [hregs]
  have hsame : ∀ t, StringFrame (c.mark s) t → SameCount s t.removeFlags := fun t ht =>
    ⟨ht.mode.trans hmode, ht.rcx.trans (hreg _), ht.rip.trans (hreg _)⟩
  unfold Post at hkeeps ⊢
  unfold call atExit
  rw [c.call_apply]
  cases hrun : c.body S I seg (c.mark s) with
  | ok a t =>
    rw [hrun] at hkeeps
    exact hsame t hkeeps
  | error e t =>
    rw [hrun] at hkeeps
    exact hsame t hkeeps

theorem single_keeps (c : StringCommand) (S : MemoryStream μ) (I : Insn) (seg : SegReg) :
    Keeps SameCount (c.single S I seg) := by
  intro s
  have hkeeps := call_keeps c S I seg s
  unfold Post at hkeeps ⊢
  unfold StringCommand.single atExit
  cases hrun : call (c.call S I seg) s with
  | ok a t =>
    rw [hrun] at hkeeps
    exact ⟨hkeeps.mode, hkeeps.rcx, hkeeps.rip⟩
  | error e t =>
    rw [hrun] at hkeeps
    exact ⟨hkeeps.mode, hkeeps.rcx, hkeeps.rip⟩

theorem clearNormalRep_of_starts (hs : s.Starts) : Env.clearNormalRep s = s := by
  unfold Env.clearNormalRep
  rw [← hs.normalRep]

/-- A completed turn leads to a state in which a command can start. -/
theorem starts_turn (hcount : repRegister I.addressSize = some count) (hs : s.Starts)
    (helement : c.single S I seg s = .ok () t) : (t.countDown count).Starts := by
  obtain ⟨hcell, -⟩ := repRegister_cases hcount
  obtain ⟨hripm, hremovem, -, -, -, -, hidlem⟩ := mark_frame c s
  have hpost : Post (call (c.call S I seg)) s _ _ := call_post hs
  unfold StringCommand.single atExit at helement
  cases hcall : call (c.call S I seg) s with
  | error e u =>
    rw [hcall] at helement
    cases helement
  | ok a u =>
    rw [hcall] at helement
    cases helement
    have hframe := hpost.ok hcall
    have hidle : (Env.clearNormalRep u).Idle := hframe.idle (hidlem.2 hs.idle)
    have hregs := setValue_idle hidle (r := count) (by rw [hcell]; nofun)
      ((Env.clearNormalRep u).getValue count - 1)
    unfold Proc.countDown
    rw [hregs]
    exact ⟨hidle, hframe.ripChanged.trans (hripm.trans hs.ripChanged), rfl,
      hframe.toRemove.trans (hremovem.trans hs.toRemove)⟩

theorem clearNormalRep_mark (hs : s.Starts) (mem : μ) :
    Env.clearNormalRep { c.mark s with mem } = { s with mem } := by
  conv_rhs => rw [← clearNormalRep_of_starts hs]
  unfold StringCommand.mark
  cases c.normalRep <;> rfl

/-- An element fails where its handler does. -/
theorem single_error_iff (hs : s.Starts) {e : Fault} :
    c.single S I seg s = .error e t ↔
      ∃ mem, c.body S I seg (c.mark s) = .error e { c.mark s with mem } ∧ t = { s with mem } := by
  obtain ⟨-, hremove, -⟩ := mark_frame c s
  have hfault := body_fault S I c seg (c.mark s)
  have hnone : ∀ mem : μ,
      ({ c.mark s with mem } : Proc μ).removeFlags = { c.mark s with mem } :=
    fun _ => removeFlags_of_none (hremove.trans hs.toRemove)
  unfold StringCommand.single call atExit
  rw [c.call_apply]
  cases hrun : c.body S I seg (c.mark s) with
  | ok a u =>
    constructor
    · intro h
      cases h
    · rintro ⟨mem, h, -⟩
      cases h
  | error e' u =>
    have hu : u = { c.mark s with mem := u.mem } := hfault.error hrun
    generalize u.mem = mem at hu
    subst hu
    dsimp only
    rw [hnone, clearNormalRep_mark hs]
    constructor
    · intro h
      cases h
      exact ⟨mem, rfl, rfl⟩
    · rintro ⟨mem', h, rfl⟩
      cases h
      rfl

/-- An element with a clean write leaves everything where it fails. -/
theorem eq_of_fault (hs : s.Starts) {e : Fault} (helement : c.single S I seg s = .error e t)
    (hclean : ∀ d, c.store S I seg (c.mark s) = .ok (some d) (c.mark s) → d.Clean S I s.mem) :
    t = s := by
  obtain ⟨-, -, -, -, -, hmem, -⟩ := mark_frame c s
  obtain ⟨mem, hbody, rfl⟩ := (single_error_iff hs).1 helement
  have hsame := mem_of_fault S I (hmem.symm ▸ hclean) hbody
  obtain rfl : mem = s.mem := hsame.trans hmem
  rfl

theorem starts_of_turns (hcount : repRegister I.addressSize = some count) (hs : s.Starts) {k : Nat}
    (h : (c.repetition S I seg repn count).Turns k s t) : t.Starts :=
  h.invariant (P := Proc.Starts) (fun _ _ hs _ helement => starts_turn hcount hs helement) hs

theorem rip_of_turns (hcount : repRegister I.addressSize = some count) {k : Nat}
    (h : (c.repetition S I seg repn count).Turns k s t) : t.getValue .rip = s.getValue .rip := by
  obtain ⟨hcell, -⟩ := repRegister_cases hcount
  refine h.invariant (P := fun u => u.getValue .rip = s.getValue .rip)
    (fun u w hu _ helement => ?_) rfl
  have hrip := ((single_keeps c S I seg u).ok helement).rip
  exact (getValue_setValue_of_ne w (by rw [hcell]; nofun) _).trans (hrip.trans hu)

end

section

variable (c : StringCommand) (S : MemoryStream μ) (I : Insn) (seg : SegReg) (repn : Bool)
  (count : Register) (s : Proc μ)

/-- The command under its prefix is the loop. Where the loop ends in an error, the state is the one
after the elements before it, with RIP at the command. On a stream on which the completed elements
went the same, the command executed again ends as if it had not been left. -/
structure Restarts : Prop where
  runs : ∃ n, ∀ fuel, n ≤ fuel →
    (c.repetition S I seg repn count).Runs s (c.repeated S I seg repn fuel s) ∧
    ∀ e t, c.repeated S I seg repn fuel s = .error e t → t.getValue .rip = s.getValue .rip ∧
      ∃ k u, (c.repetition S I seg repn count).Turns k s t ∧ t.getValue count ≠ 0 ∧
      c.single S I seg t = .error e u
  again : ∀ k t, (c.repetition S I seg repn count).Turns k s t → ∀ S' : MemoryStream μ,
    (c.repetition S' I seg repn count).Turns k s t →
      ∃ n, ∀ fuel, n ≤ fuel → c.repeated S' I seg repn fuel s = c.repeated S' I seg repn fuel t

/-- No count is taken from an ECX that shares its register with a set bit, unless the
first element fails. -/
def KeepsHigh : Prop :=
  s.getValue count ≠ 0 → (∃ t, c.single S I seg s = .ok () t) → ¬ ClearsHigh count s

/-- A write of an element of the run that is not completed leaves the memory as it was. -/
def FaultsClean : Prop :=
  ∀ k t d, (c.repetition S I seg repn count).Turns k s t → t.getValue count ≠ 0 →
    c.store S I seg (c.mark t) = .ok (some d) (c.mark t) → d.Clean S I t.mem

end

section

variable {c : StringCommand} {S : MemoryStream μ} {I : Insn} {seg : SegReg} {repn : Bool}
  {count : Register}
  {s t : Proc μ} (hI : I.command = c.command) (hcount : repRegister I.addressSize = some count)
  (hrepn : repn = true → c.normalRep = false)

include hI hcount

theorem repeated_eq (fuel : Nat) :
    c.repeated S I seg repn fuel = atExit Env.clearNormalRep
    (repLoop (c.call S I seg) repn count fuel) := by
  have hstring : I.command.isString = true := by rw [hI]; cases c <;> rfl
  unfold StringCommand.repeated callWithRep
  rw [if_pos hstring, hcount]

include hrepn

theorem repeated_runs (hs : s.Starts) (hhigh : KeepsHigh c S I seg count s) {fuel : Nat}
    (hfuel : (s.getValue count).toNat < fuel) :
    (c.repetition S I seg repn count).Runs s (c.repeated S I seg repn fuel s) := by
  have hclear := clearNormalRep_of_starts hs
  have hmark : s.stateFlags.cmdUsesNormalRep = true → c.normalRep = true := fun h => by
    rw [hs.normalRep] at h
    cases h
  rw [repeated_eq hI hcount]
  by_cases h0 : s.getValue count = 0
  · obtain ⟨fuel, rfl⟩ : ∃ n, fuel = n + 1 := ⟨fuel - 1, by omega⟩
    unfold atExit
    rw [repLoop_done h0]
    dsimp only
    rw [hclear]
    exact (Repetition.Ends.done (not_not.2 h0)).runs
  · have hruns : (c.repetition S I seg repn count).Runs (Env.clearNormalRep s) _ :=
      repLoop_runs hcount hrepn fuel (hclear.symm ▸ hs) hmark hfuel fun t ht =>
        hhigh h0 ⟨t, by rw [← hclear]; exact ht⟩
    rwa [hclear] at hruns

omit hI hcount hrepn in
/-- After a turn the count register has the upper half cleared. -/
theorem keepsHigh_of_turns {k : Nat} (hhigh : KeepsHigh c S I seg count s)
    (h : (c.repetition S I seg repn count).Turns k s t) (S' : MemoryStream μ) :
    k = 0 ∨ (KeepsHigh c S' I seg count s ∧ KeepsHigh c S' I seg count t) := by
  cases h with
  | refl => exact .inl rfl
  | step pending element goesOn rest =>
    refine .inr ⟨fun _ _ => hhigh pending ⟨_, element⟩, fun _ _ => ?_⟩
    exact rest.invariant (P := fun u => ¬ ClearsHigh count u)
      (fun _ w _ _ _ => not_clearsHigh_countDown w) (not_clearsHigh_countDown _)

theorem restarts_of (hs : s.Starts) (hhigh : KeepsHigh c S I seg count s)
    (hclean : FaultsClean c S I seg repn count s) : Restarts c S I seg repn count s where
  runs := by
    refine ⟨(s.getValue count).toNat + 1, fun fuel hfuel => ?_⟩
    have hruns := repeated_runs hI hcount hrepn hs hhigh hfuel
    refine ⟨hruns, fun e t herr => ?_⟩
    rw [herr] at hruns
    obtain ⟨k, u, hturns, hpending, helement⟩ := hruns.error
    obtain rfl : t = u := eq_of_fault (starts_of_turns hcount hs hturns) helement fun d hd =>
      hclean k u d hturns hpending hd
    exact ⟨rip_of_turns hcount hturns, k, t, hturns, hpending, helement⟩
  again := by
    intro k t hturns S' hturns'
    rcases keepsHigh_of_turns hhigh hturns S' with rfl | ⟨hhigh', hhight⟩
    · cases hturns
      exact ⟨0, fun _ _ => rfl⟩
    · refine ⟨(s.getValue count).toNat + (t.getValue count).toNat + 1, fun fuel hfuel => ?_⟩
      have hrun : (c.repetition S' I seg repn count).Runs s (c.repeated S' I seg repn fuel s) :=
        repeated_runs hI hcount hrepn hs hhigh' (by omega)
      have hrest : (c.repetition S' I seg repn count).Runs t (c.repeated S' I seg repn fuel t) :=
        repeated_runs hI hcount hrepn (starts_of_turns hcount hs hturns) hhight (by omega)
      exact (hturns'.runs_iff.1 hrun).unique hrest

omit hI hcount hrepn in
/-- The code leaves the upper half of RCX as long as it counts in ECX. -/
theorem repLoop_high (fuel : Nat) (hge : 2 ^ 32 ≤ (s.getValue .rcx).toNat) :
    Post (repLoop (c.call S I seg) repn (.r32 1) fuel) s
    (fun _ t => 2 ^ 32 ≤ (t.getValue .rcx).toNat)
      fun _ t => 2 ^ 32 ≤ (t.getValue .rcx).toNat := by
  induction fuel generalizing s with
  | zero => exact hge
  | succ fuel ih =>
    unfold repLoop
    rw [post_bind, post_get]
    refine post_ite (fun _ => hge) fun hne => ?_
    rw [post_bind]
    refine (call_keeps c S I seg s).mono (fun _ t ht => ?_) fun _ t ht => ht.rcx.symm ▸ hge
    rw [post_bind, post_get]
    refine post_ite (fun _ => (ht.rcx.symm ▸ hge :)) fun _ => ?_
    rw [post_bind, post_modify, post_bind, post_get]
    have hlow : (s.getValue .rcx).toNat % 2 ^ 32 ≠ 0 := by
      intro h
      apply hne
      rw [show s.getValue (.r32 1) = cutValue (s.getValue .rcx) .dword from getValue_count rfl s]
      apply BitVec.eq_of_toNat_eq
      rw [toNat_cutValue]
      exact h
    have hpred : 2 ^ 32 ≤ ((t.setValue .rcx (t.getValue .rcx - 1)).getValue .rcx).toNat := by
      have hlt := (s.getValue .rcx).isLt
      have hone : (1 : Value).toNat = 1 := rfl
      rw [getValue_setValue_r64, ht.rcx, BitVec.toNat_sub, hone]
      omega
    split
    · exact post_ite (fun _ => hpred) fun _ => ih hpred
    · exact post_ite (fun _ => hpred) fun _ => ih hpred

omit hI hcount hrepn in
/-- The loop clears the upper half of RCX with its first turn. -/
theorem runs_low (hm : s.mode.amd64 = true) (hne : s.getValue (.r32 1) ≠ 0)
    (helement : c.single S I seg s = .ok () t) {x : Exec μ Unit}
    (hruns : (c.repetition S I seg repn (.r32 1)).Runs s (x s)) :
    Post x s (fun _ u => (u.getValue .rcx).toNat < 2 ^ 32) fun _ u =>
    (u.getValue .rcx).toNat < 2 ^ 32 := by
  have hmt : t.mode.amd64 = true := by rw [((single_keeps c S I seg s).ok helement).mode, hm]
  unfold Post
  generalize x s = r at hruns
  rcases hruns.cases with hends | ⟨t', -, helement', -, n, u, hturns, hends⟩
  · cases hends with
    | done h => exact absurd hne h
    | stop _ he _ =>
      cases helement.symm.trans he
      exact rcx_countDown_lt hmt
    | fault _ he => cases helement.symm.trans he
  · cases helement.symm.trans helement'
    obtain ⟨hmu, hlt⟩ := hturns.invariant
      (P := fun u : Proc μ => u.mode.amd64 = true ∧ (u.getValue .rcx).toNat < 2 ^ 32)
      (fun v w hv _ he => by
        have hmw : w.mode.amd64 = true := by rw [((single_keeps c S I seg v).ok he).mode, hv.1]
        exact ⟨(congrArg Mode.amd64 (countDown_mode w)).trans hmw, rcx_countDown_lt hmw⟩)
      ⟨(congrArg Mode.amd64 (countDown_mode t)).trans hmt, rcx_countDown_lt hmt⟩
    cases hends with
    | done => exact hlt
    | stop _ he _ =>
      exact rcx_countDown_lt (by rw [((single_keeps c S I seg u).ok he).mode, hmu])
    | fault _ he =>
      dsimp only
      rw [((single_keeps c S I seg u).error he).rcx]
      exact hlt

omit hrepn in
theorem keepsHigh_of_restarts (h : Restarts c S I seg repn count s) :
    KeepsHigh c S I seg count s := by
  rintro hne ⟨t, helement⟩ ⟨hm, rfl, hge⟩
  obtain ⟨n, hn⟩ := h.runs
  have hlow := runs_low hm hne helement (x := c.repeated S I seg repn n) (hn n le_rfl).1
  have hhigh : Post (repLoop (c.call S I seg) repn (.r32 1) n) s _ _ := repLoop_high n hge
  rw [repeated_eq hI hcount] at hlow
  unfold Post atExit at hlow
  unfold Post at hhigh
  cases hrun : repLoop (c.call S I seg) repn (.r32 1) n s with
  | ok a u =>
    rw [hrun] at hlow hhigh
    exact absurd hlow (Nat.not_lt.2 hhigh)
  | error e u =>
    rw [hrun] at hlow hhigh
    exact absurd hlow (Nat.not_lt.2 hhigh)

omit hI hrepn in
theorem faultsClean_of_restarts (hs : s.Starts) (h : Restarts c S I seg repn count s) :
    FaultsClean c S I seg repn count s := by
  intro k t d hturns hpending hstore hne
  have ht := starts_of_turns hcount hs hturns
  obtain ⟨-, -, -, -, -, hmem, -⟩ := mark_frame c t
  obtain ⟨e, hbody⟩ := fault_of_store S I hstore (hmem.symm ▸ hne)
  have helement := (single_error_iff ht).2 ⟨_, hbody, rfl⟩
  rw [hmem] at helement
  obtain ⟨n, hn⟩ := h.runs
  obtain ⟨hruns, hleft⟩ := hn n le_rfl
  have hends := Repetition.Ends.fault (L := c.repetition S I seg repn count) hpending helement
  have herr := hruns.unique ⟨k, t, hturns, hends⟩
  obtain ⟨-, k', u', hturns', hpending', helement'⟩ := hleft e _ herr
  have hends' := Repetition.Ends.fault (L := c.repetition S I seg repn count) hpending' helement'
  exact (congrArg Proc.mem (hturns.end_unique hends hturns' hends')).symm

omit hI hcount hrepn in
/-- `lods`, `cmps` and `scas` do not write. -/
theorem faultsClean_of_reads (hmovs : c ≠ .movs) (hstos : c ≠ .stos) :
    FaultsClean c S I seg repn count s :=
  fun _ _ _ _ _ hstore => absurd hstore (store_ne_some S I hmovs hstos seg _ _ _)

/-- The repeated command is a loop that can be taken up again just where no bit above ECX is lost
and no element that fails has written a part of its value. -/
theorem restarts_iff (hs : s.Starts) :
    Restarts c S I seg repn count s ↔ KeepsHigh c S I seg count s ∧
    FaultsClean c S I seg repn count s :=
  ⟨fun h => ⟨keepsHigh_of_restarts hI hcount h, faultsClean_of_restarts hcount hs h⟩,
    fun h => restarts_of hI hcount hrepn hs h.1 h.2⟩

end

/-- A string command under REP; only the number and the size of the operands matter. -/
def repInsn (c : StringCommand) (operands : Nat) (size addressSize : Size) : Insn where
  command := c.command
  operands := List.replicate operands ⟨.other, size, addressSize⟩
  iPrefix := .rep
  opsize := size
  addressSize := addressSize
  rexW := false
  fullCmdSize := 2
  signExtends := false
  pushSeg := false
  lockable := false
  isEvex := false

/-- Six bytes, with ECX = 1 and EDI = 4 in 32-bit mode. -/
def atMovs : Proc (List Byte) :=
  ((Proc.init ⟨false, .dword, .dword⟩ [1, 2, 3, 4, 5, 6]).setValue (.r32 1) 1).setValue (.r32 7) 4

/-- RCX = 0x100000001 in 64-bit mode. -/
def atStos : Proc (Value → Byte) :=
  (Proc.init ⟨true, .dword, .qword⟩ fun _ => 0).setValue .rcx 0x100000001

/-- `rep movsd` writes two of four bytes at the end of a buffer, and `rep stosb` with 32-bit
addresses counts in RCX. -/
theorem not_restarts :
    ¬ Restarts .movs (bufferStream 0) (repInsn .movs 2 .dword .dword) .ds false (.r32 1) atMovs ∧
      ¬ Restarts .stos flatStream (repInsn .stos 1 .byte .dword) .ds false (.r32 1) atStos := by
  constructor
  · intro h
    have hstarts : atMovs.Starts :=
      ⟨(rfl : atMovs.stateFlags.updateFlagsPsz = false), rfl, rfl, rfl⟩
    have hclean := faultsClean_of_restarts rfl hstarts h 0 atMovs ⟨0, 4, 0x04030201⟩ (.refl atMovs)
        (by decide) rfl
    exact absurd (hclean (by decide)) (by decide)
  · intro h
    exact keepsHigh_of_restarts rfl rfl h (by decide) ⟨_, rfl⟩ ⟨rfl, rfl, by decide⟩

/-- `rep stosb` with 64-bit addresses. -/
theorem restarts_stosb :
    Restarts .stos flatStream (repInsn .stos 1 .byte .qword) .ds false (.r64 1) atStos := by
  have hstarts : atStos.Starts := ⟨(rfl : atStos.stateFlags.updateFlagsPsz = false), rfl, rfl, rfl⟩
  have hiff : Restarts .stos flatStream (repInsn .stos 1 .byte .qword) .ds false (.r64 1) atStos ↔
      _ :=
    restarts_iff (c := .stos) rfl rfl (fun h => by cases h) hstarts
  refine hiff.2 ⟨fun _ _ h => ?_, ?_⟩
  · cases h.2.1
  · intro k t d _ _ _ h
    exact absurd rfl h

end Diana.Processor
