import Diana.Processor.CallReturn

/-!
# Control transfers

The jumps, the loops and the relative call, and the way RIP moves on behind every other instruction.
They read RIP at different widths and write it at different widths.

* `callJmp`, `callJcc`, `callLoopOf`, `callJecxz`: the handlers;
* `Branch`: the transfers with a displacement, `Branch.taken` when they go there;
* `transfers_agree_iff`: when all of them agree on the address.
-/

namespace Diana.Processor

open Diana.Lib

variable {μ : Type} (S : MemoryStream μ) (I : Insn)

/-! ## Jumps -/

/-- The sum of an instruction pointer, a displacement and the size of the instruction. -/
def Insn.landing (I : Insn) (rip d : Value) : Value := rip + d + BitVec.ofNat 64 I.fullCmdSize

/-- `Diana_Call_jcc` -/
def jccImpl (opCount relOp : Nat) : Exec μ Unit :=
  if I.operands.length ≠ opCount then throw (.command .error)
  else
    match I.operands[relOp]? with
    | some ⟨.rel d, _, _⟩ => modify fun s =>
      s.setValueEx (some .rip) .rip (I.landing (s.getValueEx .rip I.opsize) d) s.mode.addressSize
    | _ => throw (.command .error)

/-- A jump under a test of the flags. -/
def jccWhen (test : Value → Bool) : Exec μ Unit := do
  let s ← get
  if test s.flags then jccImpl I 1 0

/-- The conditions of the conditional jumps. -/
inductive Condition where
  | a | ae | b | be | e | g | ge | l | le | ne | no | np | ns | o | p | s
  deriving DecidableEq, Repr

def Condition.holds (c : Condition) (f : Value) : Bool :=
  let cf := queryFlag f flagCF
  let pf := queryFlag f flagPF
  let zf := queryFlag f flagZF
  let sf := queryFlag f flagSF
  let of := queryFlag f flagOF
  match c with
  | a => !cf && !zf
  | ae => !cf
  | b => cf
  | be => cf || zf
  | e => zf
  | g => sf == of && !zf
  | ge => sf == of
  | l => sf != of
  | le => zf || sf != of
  | ne => !zf
  | no => !of
  | np => !pf
  | ns => !sf
  | o => of
  | p => pf
  | s => sf

def callJa : Exec μ Unit := jccWhen I Condition.a.holds
def callJae : Exec μ Unit := jccWhen I Condition.ae.holds
def callJb : Exec μ Unit := jccWhen I Condition.b.holds
def callJbe : Exec μ Unit := jccWhen I Condition.be.holds
def callJe : Exec μ Unit := jccWhen I Condition.e.holds
def callJg : Exec μ Unit := jccWhen I Condition.g.holds
def callJge : Exec μ Unit := jccWhen I Condition.ge.holds
def callJl : Exec μ Unit := jccWhen I Condition.l.holds
def callJle : Exec μ Unit := jccWhen I Condition.le.holds
def callJne : Exec μ Unit := jccWhen I Condition.ne.holds
def callJno : Exec μ Unit := jccWhen I Condition.no.holds
def callJnp : Exec μ Unit := jccWhen I Condition.np.holds
def callJns : Exec μ Unit := jccWhen I Condition.ns.holds
def callJo : Exec μ Unit := jccWhen I Condition.o.holds
def callJp : Exec μ Unit := jccWhen I Condition.p.holds
def callJs : Exec μ Unit := jccWhen I Condition.s.holds

/-- The handler of a conditional jump. -/
def callJcc : Condition → Exec μ Unit
  | .a => callJa I
  | .ae => callJae I
  | .b => callJb I
  | .be => callJbe I
  | .e => callJe I
  | .g => callJg I
  | .ge => callJge I
  | .l => callJl I
  | .le => callJle I
  | .ne => callJne I
  | .no => callJno I
  | .np => callJnp I
  | .ns => callJns I
  | .o => callJo I
  | .p => callJp I
  | .s => callJs I

theorem callJcc_eq (c : Condition) : callJcc I c = (jccWhen I c.holds : Exec μ Unit) := by
  cases c <;> rfl

/-- The conditions of `loop`, `loope` and `loopne`, beside the counter. -/
inductive LoopCondition where
  | loop | loope | loopne
  deriving DecidableEq, Repr

def LoopCondition.holds (c : LoopCondition) (f : Value) : Bool :=
  match c with
  | loop => true
  | loope => queryFlag f flagZF
  | loopne => !queryFlag f flagZF

/-- The counter of a loop, one less. -/
def Proc.loopCount (s : Proc μ) (I : Insn) : Value := s.getValueEx .rcx I.addressSize - 1

/-- `Diana_Call_loop` and its siblings. -/
def loopWhile (test : Value → Bool) : Exec μ Unit := do
  let s ← get
  let rcx := s.loopCount I
  modify fun s => s.setValueEx (some .rcx) .rcx rcx I.addressSize
  let s ← get
  if rcx ≠ 0 ∧ test s.flags then jccImpl I 1 0

def callLoop : Exec μ Unit := loopWhile I LoopCondition.loop.holds
def callLoope : Exec μ Unit := loopWhile I LoopCondition.loope.holds
def callLoopne : Exec μ Unit := loopWhile I LoopCondition.loopne.holds

/-- The handler of a loop. -/
def callLoopOf : LoopCondition → Exec μ Unit
  | .loop => callLoop I
  | .loope => callLoope I
  | .loopne => callLoopne I

theorem callLoopOf_eq (c : LoopCondition) :
    callLoopOf I c = (loopWhile I c.holds : Exec μ Unit) := by
  cases c <;> rfl

/-- `Diana_Call_jecxz` -/
def callJecxz : Exec μ Unit := do
  let (dest, _) ← getOperand S I 0
  if dest = 0 then jccImpl I 2 1

/-- Where `jmp` goes: like a call, but for the width that RIP is read at. -/
def jmpTarget : Exec μ (Value × Option Value) := do
  let s ← get
  match I.operands with
  | [⟨.rel d, _, _⟩] => pure (I.landing (s.getValueEx .rip I.opsize) d, none)
  | _ => callTarget S I

/-- `Diana_Call_jmp` -/
def callJmp : Exec μ Unit := do
  let (newRIP, newSegment) ← jmpTarget S I
  setRegs [(.rip, newRIP)]
  match newSegment with
  | some v => setRegs [(.seg .cs, v)]
  | none => pure ()

/-! ## Transfers with a displacement -/

inductive Branch where
  | jmp
  | call
  | jecxz
  | jcc (c : Condition)
  | loop (c : LoopCondition)
  deriving DecidableEq, Repr

namespace Branch

def handler : Branch → Exec μ Unit
  | jmp => callJmp S I
  | call => callCall S I
  | jecxz => callJecxz S I
  | jcc c => callJcc I c
  | loop c => callLoopOf I c

/-- The displacement: the second operand of `jecxz`, the only one of the others. -/
def displacement (b : Branch) (I : Insn) : Option Value :=
  match b, I.operands with
  | jecxz, [_, ⟨.rel d, _, _⟩] => some d
  | jecxz, _ => none
  | _, [⟨.rel d, _, _⟩] => some d
  | _, _ => none

/-- The operand `jecxz` tests, as far as it can be read. -/
def jecxzTaken (s : Proc μ) : Bool :=
  match getOperand S I 0 s with
  | .ok (dest, _) _ => dest == 0
  | .error _ _ => false

/-- The transfer goes to its displacement. -/
def taken (b : Branch) (s : Proc μ) : Bool :=
  match b with
  | jmp => true
  | call => true
  | jecxz => jecxzTaken S I s
  | jcc c => c.holds s.flags
  | loop c => s.loopCount I != 0 && c.holds s.flags

/-- RIP as the transfer reads it. -/
def base (b : Branch) (s : Proc μ) : Value :=
  match b with
  | call => s.getValue .rip
  | _ => s.getValueEx .rip I.opsize

/-- `jmp` and `call` write the whole of RIP, the others as much of it as an address of the mode
has. -/
def writesWhole : Branch → Bool
  | jmp => true
  | call => true
  | _ => false

/-- RIP after the transfer went to displacement `d`. -/
def landed (b : Branch) (s : Proc μ) (d : Value) : Value :=
  let v := I.landing (b.base I s) d
  if b.writesWhole then v
  else setField (s.getValue .rip) 0 s.mode.addressSize.bits (v.setWidth s.mode.addressSize.bits)

end Branch

/-! ## What a transfer leaves -/

section

variable (s : Proc μ) (regId : Option Register) (r : Register) (v : Value) (size : Size)

theorem setValueEx_ripChanged : (s.setValueEx regId r v size).stateFlags.ripChanged =
    (decide (regId = some .rip ∨ regId = some .ip) || s.stateFlags.ripChanged) := by
  unfold Proc.setValueEx Proc.updatePsz Proc.setCell
  dsimp only
  by_cases h : regId = some .rip ∨ regId = some .ip
  · rw [if_pos h, decide_eq_true h]
    split_ifs <;> rfl
  · rw [if_neg h, decide_eq_false h]
    split_ifs <;> rfl

/-- RIP after a write of its low part. -/
theorem getValue_rip_setValueEx (h : Proc.isGeneral32 regId = false) :
    (s.setValueEx regId .rip v size).getValue .rip =
    setField (s.getValue .rip) 0 size.bits (v.setWidth size.bits) := by
  have hregs := Proc.setValueEx_regs s regId .rip v size (by rw [h]; simp)
  have hget : ∀ w : Proc μ, w.getValue .rip = w.regs .rip := by
    intro w
    unfold Proc.getValue Proc.getValueEx
    exact congrArg (BitVec.setWidth 64) (Cells.get_all w.regs rfl) |>.trans (BitVec.setWidth_eq _)
  rw [hget, hget, hregs]
  exact Cells.set_apply_same s.regs _ _ _ _

theorem setField_all (w : Value) : setField w 0 64 v = v := by
  apply BitVec.eq_of_getLsbD_eq
  intro i hi
  rw [getLsbD_setField _ _ _ _ hi, if_pos ⟨Nat.zero_le i, by omega⟩, Nat.sub_zero]

end

section

variable {S I} {s t : Proc μ} {b : Branch} {d : Value}

theorem jccImpl_of_rel {opCount relOp : Nat} {u a : Size} (hl : I.operands.length = opCount)
    (h : I.operands[relOp]? = some ⟨.rel d, u, a⟩) : jccImpl I opCount relOp s = .ok ()
      (s.setValueEx (some .rip) .rip (I.landing (s.getValueEx .rip I.opsize) d)
        s.mode.addressSize) := by
  unfold jccImpl
  rw [if_neg (not_not.2 hl), h]
  rfl

namespace Branch

theorem operands_of_jecxz (h : jecxz.displacement I = some d) :
    ∃ op u a, I.operands = [op, ⟨.rel d, u, a⟩] := by
  unfold displacement at h
  split at h
  · next hop =>
    cases h
    exact ⟨_, _, _, hop⟩
  · cases h
  · next hne => exact absurd rfl hne
  · cases h

theorem operands_of_other (hb : b ≠ jecxz) (h : b.displacement I = some d) :
    ∃ u a, I.operands = [⟨.rel d, u, a⟩] := by
  unfold displacement at h
  split at h
  · exact absurd rfl hb
  · exact absurd rfl hb
  · next hop =>
    cases h
    exact ⟨_, _, hop⟩
  · cases h

/-- RIP and the marks beside it. -/
structure Leaves (b : Branch) (S : MemoryStream μ) (I : Insn) (s t : Proc μ) (d : Value) :
    Prop where
  kept : t.stateFlagsToRemove = s.stateFlagsToRemove
  changed : t.stateFlags.ripChanged = (b.taken S I s || s.stateFlags.ripChanged)
  rip : t.getValue .rip = if b.taken S I s then b.landed I s d else s.getValue .rip

theorem leaves_of_not_taken (h : b.taken S I s = false) : b.Leaves S I s s d := by
  refine ⟨rfl, ?_, ?_⟩
  · rw [h]
    rfl
  · rw [h]
    rfl

/-- The jumps through `Diana_Call_jcc`, from a state that has RIP and the marks of `s`. -/
theorem leaves_of_jcc {u : Proc μ} (hb : b.writesWhole = false) (htaken : b.taken S I s = true)
    (hkept : u.stateFlagsToRemove = s.stateFlagsToRemove) (hmode : u.mode = s.mode)
    (hrip : ∀ size, u.getValueEx .rip size = s.getValueEx .rip size) :
    b.Leaves S I s
      (u.setValueEx (some .rip) .rip (I.landing (u.getValueEx .rip I.opsize) d) u.mode.addressSize)
      d := by
  refine ⟨?_, ?_, ?_⟩
  · exact (Proc.sameRest_setValueEx _ _ _ _ _).toRemove.trans hkept
  · rw [setValueEx_ripChanged, htaken]
    rfl
  · have hfull : u.getValue .rip = s.getValue .rip := hrip _
    have hbase : b.base I s = s.getValueEx .rip I.opsize := by
      cases b <;> first | rfl | cases hb
    rw [getValue_rip_setValueEx _ _ _ _ rfl, if_pos htaken, landed, hb, if_neg (by decide), hmode,
      hrip, hfull, hbase]

theorem jmp_leaves (hd : jmp.displacement I = some d) (h : callJmp S I s = .ok () t) :
    jmp.Leaves S I s t d := by
  obtain ⟨u, a, hop⟩ := operands_of_other (b := jmp) nofun hd
  have htarget : jmpTarget S I s = .ok (I.landing (s.getValueEx .rip I.opsize) d, none) s := by
    unfold jmpTarget
    rw [get_bind, hop]
    rfl
  unfold callJmp at h
  rw [bind_of_ok htarget] at h
  cases h
  refine ⟨(Proc.sameRest_setValueEx _ _ _ _ _).toRemove, setValueEx_ripChanged _ _ _ _ _, ?_⟩
  exact (getValue_rip_setValueEx _ _ _ _ rfl).trans (setField_all _ _)

theorem call_leaves (hd : call.displacement I = some d) (h : callCall S I s = .ok () t) :
    call.Leaves S I s t d := by
  obtain ⟨u, a, hop⟩ := operands_of_other (b := call) nofun hd
  have hnear : I.isFarCall = false := by
    unfold Insn.isFarCall
    rw [hop]
  have hrun : callTarget S I s = .ok (I.landing (s.getValue .rip) d, none) s := by
    unfold callTarget
    rw [get_bind, hop]
    rfl
  obtain ⟨target, mem, htarget, -, rfl⟩ := callCall_ok (.inl hnear) h
  rw [hrun] at htarget
  cases htarget
  refine ⟨?_, ?_, ?_⟩
  · exact (Proc.sameRest_setValueEx _ _ _ _ _).toRemove.trans
      (Proc.sameRest_setValueEx _ _ _ _ _).toRemove
  · exact setValueEx_ripChanged _ _ _ _ _
  · exact getValue_rip_afterCall I _ mem

theorem jecxz_leaves (hd : jecxz.displacement I = some d) (h : callJecxz S I s = .ok () t) :
    jecxz.Leaves S I s t d := by
  obtain ⟨op, u, a, hop⟩ := operands_of_jecxz hd
  have hl : I.operands.length = 2 := by rw [hop]; rfl
  have hrel : I.operands[1]? = some ⟨.rel d, u, a⟩ := by rw [hop]; rfl
  unfold callJecxz at h
  cases hread : getOperand S I 0 s with
  | error e w =>
    rw [bind_of_error hread] at h
    cases h
  | ok p w =>
    obtain rfl : s = w := (getOperand_keeps S I 0 s).ok hread
    rw [bind_of_ok hread] at h
    dsimp only at h
    have htaken : jecxz.taken S I s = (p.1 == 0) := by
      change jecxzTaken S I s = _
      unfold jecxzTaken
      rw [hread]
    by_cases hz : p.1 = 0
    · rw [if_pos hz, jccImpl_of_rel hl hrel] at h
      cases h
      exact leaves_of_jcc rfl (htaken.trans (beq_iff_eq.2 hz)) rfl rfl fun _ => rfl
    · rw [if_neg hz] at h
      cases h
      exact leaves_of_not_taken (htaken.trans (beq_eq_false_iff_ne.2 hz))

theorem jcc_leaves {c : Condition} (hd : (jcc c).displacement I = some d)
    (h : callJcc I c s = .ok () t) : (jcc c).Leaves S I s t d := by
  obtain ⟨u, a, hop⟩ := operands_of_other (b := jcc c) nofun hd
  have hl : I.operands.length = 1 := by rw [hop]; rfl
  have hrel : I.operands[0]? = some ⟨.rel d, u, a⟩ := by rw [hop]; rfl
  rw [callJcc_eq] at h
  unfold jccWhen at h
  rw [get_bind] at h
  cases hc : c.holds s.flags with
  | true =>
    rw [hc, if_pos rfl, jccImpl_of_rel hl hrel] at h
    cases h
    exact leaves_of_jcc rfl hc rfl rfl fun _ => rfl
  | false =>
    rw [hc, if_neg (by decide)] at h
    cases h
    exact leaves_of_not_taken hc

theorem loop_leaves {c : LoopCondition} (hs : s.Idle) (hd : (loop c).displacement I = some d)
    (h : callLoopOf I c s = .ok () t) : (loop c).Leaves S I s t d := by
  obtain ⟨u, a, hop⟩ := operands_of_other (b := loop c) nofun hd
  have hl : I.operands.length = 1 := by rw [hop]; rfl
  have hrel : I.operands[0]? = some ⟨.rel d, u, a⟩ := by rw [hop]; rfl
  rw [callLoopOf_eq] at h
  unfold loopWhile at h
  rw [get_bind, modify_bind, get_bind, (hs.setValueEx _ _ _ _).2] at h
  set w := s.setValueEx (some .rcx) .rcx (s.loopCount I) I.addressSize with hw
  have hsame : Proc.SameRest s w := Proc.sameRest_setValueEx _ _ _ _ _
  have hrip : ∀ size, w.getValueEx .rip size = s.getValueEx .rip size := fun size =>
    getValueEx_setValueEx_of_ne s (by decide) _ _ _ _
  have hchanged : w.stateFlags.ripChanged = s.stateFlags.ripChanged :=
    setValueEx_ripChanged _ _ _ _ _
  clear_value w
  by_cases hc : s.loopCount I ≠ 0 ∧ c.holds s.flags = true
  · have htaken : (loop c).taken S I s = true := Bool.and_eq_true_iff.2 ⟨bne_iff_ne.2 hc.1, hc.2⟩
    rw [if_pos hc, jccImpl_of_rel hl hrel] at h
    cases h
    exact leaves_of_jcc rfl htaken hsame.toRemove hsame.mode hrip
  · have htaken : (loop c).taken S I s = false := by
      refine Bool.eq_false_iff.2 fun ht => hc ?_
      obtain ⟨h1, h2⟩ := Bool.and_eq_true_iff.1 ht
      exact ⟨bne_iff_ne.1 h1, h2⟩
    rw [if_neg hc] at h
    cases h
    refine ⟨hsame.toRemove, ?_, ?_⟩
    · rw [htaken]
      exact hchanged
    · rw [htaken]
      exact hrip _

theorem handler_leaves (hs : s.Idle) (hd : b.displacement I = some d)
    (h : b.handler S I s = .ok () t) : b.Leaves S I s t d := by
  cases b with
  | jmp => exact jmp_leaves hd h
  | call => exact call_leaves hd h
  | jecxz => exact jecxz_leaves hd h
  | jcc c => exact jcc_leaves hd h
  | loop c => exact loop_leaves hs hd h

end Branch

end

/-! ## Addresses of a mode -/

section

variable {size : Size}

/-- The low part of a register, written and read. -/
theorem getLsbD_setField_low (w v : Value) {i : Nat} (hi : i < 64) :
    (setField w 0 size.bits (v.setWidth size.bits)).getLsbD i =
      if i < size.bits then v.getLsbD i else w.getLsbD i := by
  rw [getLsbD_setField _ _ _ _ hi]
  by_cases h : i < size.bits
  · rw [if_pos ⟨Nat.zero_le i, by omega⟩, if_pos h, Nat.sub_zero, BitVec.getLsbD_setWidth,
      decide_eq_true h, Bool.true_and]
  · rw [if_neg (by omega), if_neg h]

theorem cutValue_setField (w v : Value) :
    cutValue (setField w 0 size.bits (v.setWidth size.bits)) size = cutValue v size := by
  apply BitVec.eq_of_getLsbD_eq
  intro i hi
  rw [getLsbD_cutValue, getLsbD_cutValue, getLsbD_setField_low w v hi]
  by_cases h : i < size.bits <;> simp [h]

theorem setField_eq_cutValue_iff (w v : Value) :
    setField w 0 size.bits (v.setWidth size.bits) = cutValue v size ↔ cutValue w size = w := by
  constructor
  · intro h
    apply BitVec.eq_of_getLsbD_eq
    intro i hi
    have hbit := congrArg (fun x : Value => x.getLsbD i) h
    rw [getLsbD_setField_low w v hi, getLsbD_cutValue] at hbit
    rw [getLsbD_cutValue]
    by_cases hlt : i < size.bits
    · simp [hlt]
    · rw [if_neg hlt, decide_eq_false hlt, Bool.false_and] at hbit
      rw [hbit, Bool.and_false]
  · intro h
    apply BitVec.eq_of_getLsbD_eq
    intro i hi
    rw [getLsbD_setField_low w v hi, getLsbD_cutValue]
    by_cases hlt : i < size.bits
    · simp [hlt]
    · have hbit := congrArg (fun x : Value => x.getLsbD i) h
      rw [getLsbD_cutValue, decide_eq_false hlt, Bool.false_and] at hbit
      rw [if_neg hlt, decide_eq_false hlt, Bool.false_and, ← hbit]

end

namespace Branch

variable {I}

/-- The transfer reads all of RIP that an address of the mode has, and what it writes
stays in the address space: the sum, where it writes the whole of RIP, and RIP before it,
where it writes a part. -/
def Fits (b : Branch) (I : Insn) (s : Proc μ) (d : Value) : Prop :=
  cutValue (b.base I s) s.mode.addressSize = cutValue (s.getValue .rip) s.mode.addressSize ∧
    if b.writesWhole then
      cutValue (I.landing (b.base I s) d) s.mode.addressSize = I.landing (b.base I s) d
    else cutValue (s.getValue .rip) s.mode.addressSize = s.getValue .rip

theorem landed_eq_iff (b : Branch) (s : Proc μ) (d : Value) :
    b.landed I s d = cutValue (I.landing (s.getValue .rip) d) s.mode.addressSize ↔
    b.Fits I s d := by
  have hinj : cutValue (I.landing (b.base I s) d) s.mode.addressSize =
      cutValue (I.landing (s.getValue .rip) d) s.mode.addressSize ↔
        cutValue (b.base I s) s.mode.addressSize =
        cutValue (s.getValue .rip) s.mode.addressSize := by
    unfold Insn.landing
    rw [BitVec.add_assoc, BitVec.add_assoc]
    exact cutValue_add_inj _
  unfold landed Fits
  dsimp only
  rw [← hinj]
  cases b.writesWhole with
  | true =>
    rw [if_pos rfl, if_pos rfl]
    constructor
    · intro h
      have hcut := congrArg (cutValue · s.mode.addressSize) h
      rw [cutValue_cutValue] at hcut
      exact ⟨hcut, hcut.trans h.symm⟩
    · rintro ⟨hcut, hfit⟩
      exact hfit.symm.trans hcut
  | false =>
    rw [if_neg (by decide), if_neg (by decide)]
    constructor
    · intro h
      have hcut := congrArg (cutValue · s.mode.addressSize) h
      rw [cutValue_cutValue, cutValue_setField] at hcut
      exact ⟨hcut, (setField_eq_cutValue_iff _ _).1 (h.trans hcut.symm)⟩
    · rintro ⟨hcut, hfit⟩
      exact ((setField_eq_cutValue_iff _ _).2 hfit).trans hcut

end Branch

/-! ## The step -/

section

variable {S} {I} {s t u : Proc μ} {fuel : Nat} {command : Exec μ Unit}

/-- A command that no REP prefix repeats runs once. -/
theorem callPrefixed_ok (hI : I.command.isString = false)
    (h : callPrefixed fuel I command s = .ok () u) :
    ∃ w, command s = .ok () w ∧ u = w.removeFlags := by
  have hrep : ∀ repn, callWithRep fuel I command repn = call command := by
    intro repn
    unfold callWithRep
    rw [hI, if_neg (by decide)]
  have hcall : call command s = .ok () u := by
    unfold callPrefixed at h
    cases hp : I.iPrefix with
    | none =>
      rw [hp] at h
      exact h
    | rep =>
      rw [hp] at h
      rwa [← hrep false]
    | repn =>
      rw [hp] at h
      rwa [← hrep true]
    | lock =>
      rw [hp] at h
      dsimp only at h
      split at h
      · exact h
      · cases h
  unfold call atExit at hcall
  cases hc : command s with
  | error e w =>
    rw [hc] at hcall
    cases hcall
  | ok a w =>
    rw [hc] at hcall
    cases hcall
    exact ⟨w, rfl, rfl⟩

theorem mmxTransition_rip (s : Proc μ) (I : Insn) :
    (s.mmxTransition I).getValue .rip = s.getValue .rip ∧
    (s.mmxTransition I).stateFlags = s.stateFlags := by
  unfold Proc.mmxTransition
  split
  · unfold Proc.setExponent
    split
    · split
      · exact ⟨rfl, rfl⟩
      · refine ⟨?_, rfl⟩
        unfold Proc.getValue Proc.getValueEx
        exact congrArg (BitVec.setWidth 64) (Cells.get_set_cell _ _ _ _ fun h => by cases h)
    · exact ⟨rfl, rfl⟩
  · exact ⟨rfl, rfl⟩

/-- RIP after a step: what the command has written, or the address behind it. -/
theorem runCommand_rip {rip : Value} (h : Env.runCommand fuel rip I command s = .ok () t) :
    ∃ u, callPrefixed fuel I command s = .ok () u ∧
      t.getValue .rip =
        if u.stateFlags.ripChanged then u.getValue .rip
        else rip + BitVec.ofNat 64 I.fullCmdSize := by
  unfold Env.runCommand at h
  cases hc : callPrefixed fuel I command s with
  | error e u =>
    rw [hc] at h
    cases h
  | ok a u =>
    rw [hc] at h
    dsimp only at h
    refine ⟨u, rfl, ?_⟩
    obtain ⟨hrip, hflags⟩ := mmxTransition_rip u I
    have hchanged : (Env.clearNormalRep (u.mmxTransition I)).stateFlags.ripChanged =
        u.stateFlags.ripChanged := by
      unfold Env.clearNormalRep
      dsimp only
      rw [hflags]
    rw [hchanged] at h
    cases hr : u.stateFlags.ripChanged with
    | true =>
      rw [hr, if_pos rfl] at h
      cases h
      exact hrip
    | false =>
      rw [hr, if_neg (by decide)] at h
      cases h
      rw [if_neg (by decide)]
      exact (getValue_rip_setValueEx _ _ _ _ rfl).trans (setField_all _ _)

/-- The state a command starts from. -/
structure Proc.Ready (s : Proc μ) : Prop where
  idle : s.Idle
  unchanged : s.stateFlags.ripChanged = false
  nothing : s.stateFlagsToRemove = .none

/-- Every transfer goes to the sum of RIP, size and displacement in the address space of the mode
exactly where it `Fits`; an instruction that leaves RIP, a transfer that is not taken among them,
goes behind itself exactly where that address needs no reduction. -/
theorem transfers_agree_iff (S : MemoryStream μ) (fuel : Nat) {I : Insn} {s : Proc μ}
    (hs : s.Ready) :
    (∀ (b : Branch) (d : Value) (t : Proc μ),
      I.command.isString = false → b.displacement I = some d →
      Env.runCommand fuel (s.getValue .rip) I (b.handler S I) s = .ok () t → b.taken S I s = true →
        (t.getValue .rip = cutValue (s.getValue .rip + d + BitVec.ofNat 64 I.fullCmdSize)
          s.mode.addressSize ↔ b.Fits I s d)) ∧
    (∀ (b : Branch) (d : Value) (t : Proc μ),
      I.command.isString = false → b.displacement I = some d →
      Env.runCommand fuel (s.getValue .rip) I (b.handler S I) s = .ok () t → b.taken S I s = false →
        (t.getValue .rip = cutValue (s.getValue .rip + BitVec.ofNat 64 I.fullCmdSize)
          s.mode.addressSize ↔
          cutValue (s.getValue .rip + BitVec.ofNat 64 I.fullCmdSize) s.mode.addressSize =
            s.getValue .rip + BitVec.ofNat 64 I.fullCmdSize)) ∧
    (∀ (command : Exec μ Unit) (t u : Proc μ), callPrefixed fuel I command s = .ok () u →
      u.stateFlags.ripChanged = false → Env.runCommand fuel
      (s.getValue .rip) I command s = .ok () t →
        (t.getValue .rip = cutValue (s.getValue .rip + BitVec.ofNat 64 I.fullCmdSize)
          s.mode.addressSize ↔
          cutValue (s.getValue .rip + BitVec.ofNat 64 I.fullCmdSize) s.mode.addressSize =
            s.getValue .rip + BitVec.ofNat 64 I.fullCmdSize)) := by
  have hbranch : ∀ (b : Branch) (d : Value) (t : Proc μ),
    I.command.isString = false → b.displacement I = some d →
      Env.runCommand fuel (s.getValue .rip) I (b.handler S I) s = .ok () t →
        t.getValue .rip = if b.taken S I s then b.landed I s d else
          s.getValue .rip + BitVec.ofNat 64 I.fullCmdSize := by
    intro b d t hI hd hrun
    obtain ⟨u, hu, ht⟩ := runCommand_rip hrun
    obtain ⟨w, hw, rfl⟩ := callPrefixed_ok hI hu
    have hleaves := Branch.handler_leaves hs.idle hd hw
    have hchanged : w.removeFlags.stateFlags.ripChanged = b.taken S I s := by
      change (w.stateFlags.ripChanged && !w.stateFlagsToRemove.ripChanged) = _
      rw [hleaves.kept, hs.nothing, hleaves.changed, hs.unchanged, Bool.or_false]
      exact Bool.and_true _
    rw [ht, hchanged]
    have hrip : w.removeFlags.getValue .rip = w.getValue .rip := rfl
    rw [hrip, hleaves.rip]
    cases b.taken S I s <;> rfl
  refine ⟨?_, ?_, ?_⟩
  · intro b d t hI hd hrun htaken
    rw [hbranch b d t hI hd hrun, htaken, if_pos rfl]
    exact Branch.landed_eq_iff b s d
  · intro b d t hI hd hrun htaken
    rw [hbranch b d t hI hd hrun, htaken, if_neg (by decide)]
    exact eq_comm
  · intro command t u hu hchanged hrun
    obtain ⟨u', hu', ht⟩ := runCommand_rip hrun
    rw [hu] at hu'
    cases hu'
    rw [ht, hchanged, if_neg (by decide)]
    exact eq_comm

end

/-- At an address, between two commands. -/
def atAddress (mode : Mode) (rip : Value) :
    Proc Unit := (Proc.init mode ()).setValueEx none .rip rip .qword

theorem atAddress_ready (mode : Mode) (rip : Value) : (atAddress mode rip).Ready where
  idle := (Proc.Idle.setValueEx (s := Proc.init mode ()) rfl none .rip rip .qword).1
  unchanged := setValueEx_ripChanged _ _ _ _ _
  nothing := (Proc.sameRest_setValueEx _ _ _ _ _).toRemove

theorem atAddress_rip (mode : Mode) (rip : Value) : (atAddress mode rip).getValue .rip = rip :=
  (getValue_rip_setValueEx _ _ _ _ rfl).trans (setField_all _ _)

theorem atAddress_mode (mode : Mode) (rip : Value) : (atAddress mode rip).mode = mode :=
  (Proc.sameRest_setValueEx _ _ _ _ _).mode

/-- `jmp +0x20`, of 5 bytes. -/
def jmpInsn (opsize : Size) : Insn where
  command := .other 0
  operands := [⟨.rel 0x20, opsize, opsize⟩]
  iPrefix := .none
  opsize := opsize
  addressSize := opsize
  rexW := false
  fullCmdSize := 5
  signExtends := false
  pushSeg := false
  lockable := false
  isEvex := false

/-- The run of a `jmp` that nothing stops. -/
theorem jmp_runs (mode : Mode) (opsize : Size) (rip : Value) :
    ∃ t, Env.runCommand 0 rip (jmpInsn opsize) (Branch.jmp.handler zeroStream (jmpInsn opsize))
    (atAddress mode rip) = .ok () t := ⟨_, rfl⟩

theorem transfers_agree_jmp : (atAddress ⟨true, .dword, .qword⟩ 0x1000).Ready ∧ ∃ t,
    Env.runCommand 0 0x1000 (jmpInsn .qword) (Branch.jmp.handler zeroStream (jmpInsn .qword))
      (atAddress ⟨true, .dword, .qword⟩ 0x1000) = .ok () t ∧ t.getValue .rip = 0x1025 := by
  have hready := atAddress_ready ⟨true, .dword, .qword⟩ 0x1000
  have hrip := atAddress_rip ⟨true, .dword, .qword⟩ 0x1000
  obtain ⟨t, ht⟩ := jmp_runs ⟨true, .dword, .qword⟩ .qword 0x1000
  refine ⟨hready, t, ht, ?_⟩
  have h := (transfers_agree_iff zeroStream 0 hready).1 .jmp 0x20 t rfl rfl
      (by rw [hrip]; exact ht) rfl
  rw [atAddress_mode, hrip] at h
  exact h.2 (by
    unfold Branch.Fits
    rw [atAddress_mode]
    exact ⟨rfl, cutValue_of_lt (BitVec.isLt _)⟩)

/-- In 32-bit mode a `jmp` across the top of the address space leaves it, where a
conditional jump does not. -/
theorem jmp_leaves_space : ∃ t u : Proc Unit,
    Env.runCommand 0 0xFFFFFFF0 (jmpInsn .dword) (Branch.jmp.handler zeroStream (jmpInsn .dword))
      (atAddress ⟨false, .dword, .dword⟩ 0xFFFFFFF0) = .ok () t ∧ t.getValue .rip = 0x100000015 ∧
    Env.runCommand 0 0xFFFFFFF0 (jmpInsn .dword)
    ((Branch.jcc .ne).handler zeroStream (jmpInsn .dword))
      (atAddress ⟨false, .dword, .dword⟩ 0xFFFFFFF0) = .ok () u ∧ u.getValue .rip = 0x15 :=
  ⟨_, _, rfl, rfl, rfl, rfl⟩

end Diana.Processor
