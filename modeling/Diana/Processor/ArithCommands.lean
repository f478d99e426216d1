import Diana.Processor.AddSub

/-!
# The commands that add and subtract

`add`, `adc`, `sub`, `sbb`, `cmp`, `inc`, `dec`, `xadd`, `cmps` and `scas`: what they leave in their
destination and in the status flags is the exact sum or difference of their operands.

* `callCmps`, `callScas`: the string comparisons, next to the commands of
  `Diana.Processor.Commands`;
* `ArithCommand.fetch`: the operands, as bit vectors of one width;
* `ArithCommand.Sets`: the state the architecture defines for them;
* `setsFlags_iff`: the commands leave that state, but for an `xadd` whose destination moves with its
  source register.
-/

namespace Diana.Processor

open Diana.Lib

variable {μ : Type} (S : MemoryStream μ) (I : Insn)

/-! ## String comparisons -/

/-- `Di_PrepareSIDI_regs`: the register `i` at the size of addresses. -/
def stringRegister (addressSize : Size) (i : Fin 16) : Option Register :=
  match addressSize with
  | .qword => some (.r64 i)
  | .dword => some (.r32 i)
  | .word => some (.r16 i)
  | .byte => none

/-- `Diana_ProcessorGetOperand_index_ex`: the address in the register, and the value there. -/
def readString (seg : SegReg) (r : Register) : Exec μ (Value × Value) := do
  let (selector, address) ← calcIndexM I ⟨seg, some r, none, 0, 0⟩
  let v ← getMemValue S selector address I.firstSize seg
  return (address, v)

/-- `Di_UpdateSIDI` -/
def nextString (flags address : Value) : Value :=
  if queryFlag flags flagDF then address - BitVec.ofNat 64 I.firstSize.bytes
  else address + BitVec.ofNat 64 I.firstSize.bytes

def callCmps : Exec μ Unit := do
  if I.operands.length ≠ 2 then throw (.command .error)
  match stringRegister I.addressSize 6, stringRegister I.addressSize 7 with
  | some si, some di => do
    let (srcAddress, src) ← readString S I .ds si
    let (destAddress, dest) ← readString S I .es di
    let s ← get
    modifyFlags clearCOA
    let new := src - dest
    modifyFlags fun f => setCOA_Sub .coa f src new dest I.firstSize
    modify fun t => t.setValue si (nextString I s.flags srcAddress)
    modify fun t => t.setValue di (nextString I s.flags destAddress)
    modify fun t => t.updatePSZ new I.firstSize
  | _, _ => throw (.command .error)

def callScas : Exec μ Unit := do
  let s ← get
  let src := s.getValueEx .rax I.firstSize
  if I.operands.length ≠ 1 then throw (.command .error)
  match stringRegister I.addressSize 7 with
  | some di => do
    let (destAddress, dest) ← readString S I .es di
    modifyFlags clearCOA
    let new := src - dest
    modifyFlags fun f => setCOA_Sub .coa f src new dest I.firstSize
    modify fun t => t.setValue di (nextString I s.flags destAddress)
    modify fun t => t.updatePSZ new I.firstSize
  | none => throw (.command .error)

/-! ## What the commands are to do -/

inductive ArithCommand where
  | add | adc | sub | sbb | cmp | inc | dec | xadd | cmps | scas
  deriving DecidableEq, Repr

namespace ArithCommand

def call : ArithCommand → Exec μ Unit
  | add => callAdd S I
  | adc => callAdc S I
  | sub => callSub S I
  | sbb => callSbb S I
  | cmp => callCmp S I
  | inc => callInc S I
  | dec => callDec S I
  | xadd => callXadd S I
  | cmps => callCmps S I
  | scas => callScas S I

end ArithCommand

/-- The operands of a command, in the width of the first one. -/
structure Operands where
  size : Size
  a : BitVec size.bits
  b : BitVec size.bits

/-- A source at the width of the destination: an immediate operand may be narrower, and is
sign-extended. -/
def extended (v : Value) (srcSize size : Size) : BitVec size.bits :=
  if srcSize = size then size.low v else (srcSize.low v).signExtend size.bits

namespace ArithCommand

/-- The operands in memory and in registers. -/
def fetch : ArithCommand → Exec μ Operands
  | inc | dec => do
    let (a, size) ← getOperand S I 0
    return ⟨size, size.low a, 1⟩
  | cmps =>
    match stringRegister I.addressSize 6, stringRegister I.addressSize 7 with
    | some si, some di => do
      let (_, a) ← readString S I .ds si
      let (_, b) ← readString S I .es di
      return ⟨I.firstSize, I.firstSize.low a, I.firstSize.low b⟩
    | _, _ => throw (.command .error)
  | scas =>
    match stringRegister I.addressSize 7 with
    | some di => do
      let s ← get
      let (_, b) ← readString S I .es di
      return ⟨I.firstSize, I.firstSize.low (s.getValueEx .rax I.firstSize), I.firstSize.low b⟩
    | none => throw (.command .error)
  | _ => do
    let (a, size) ← getOperand S I 0
    let (b, srcSize) ← getOperand S I 1
    return ⟨size, size.low a, extended b srcSize size⟩

/-- What the decoder gives a command; the source of `xadd` is a register as wide as the
destination. -/
def Decoded (I : Insn) : ArithCommand → Prop
  | cmps => I.operands.length = 2
  | scas => I.operands.length = 1
  | xadd =>
    I.HasDest ∧ ∃ r addressSize, I.operands[1]? = some ⟨.register r, I.firstSize, addressSize⟩
  | _ => I.HasDest

def adds : ArithCommand → Bool
  | add | adc | inc | xadd => true
  | _ => false

def takesCarry : ArithCommand → Bool
  | adc | sbb => true
  | _ => false

def keepsCarry : ArithCommand → Bool
  | inc | dec => true
  | _ => false

def hasResult : ArithCommand → Bool
  | cmp | cmps | scas => false
  | _ => true

/-- The carry that comes in. -/
def carryIn (c : ArithCommand) (s : Proc μ) : Bool := c.takesCarry && (statusOf s.flags).cf

def result (c : ArithCommand) (s : Proc μ) (o : Operands) : BitVec o.size.bits :=
  if c.adds then resultOfSum o.a o.b (c.carryIn s) else resultOfDiff o.a o.b (c.carryIn s)

def flags (c : ArithCommand) (s : Proc μ) (o : Operands) : StatusFlags :=
  let f := if c.adds then sumFlags o.a o.b (c.carryIn s) else diffFlags o.a o.b (c.carryIn s)
  if c.keepsCarry then { f with cf := (statusOf s.flags).cf } else f

/-- The state after a command: its flags, and its result in the destination. -/
structure Sets (c : ArithCommand) (o : Operands) (s t : Proc μ) : Prop where
  flags : statusOf t.flags = c.flags s o
  stores : c.hasResult = true → Stores S I s t ((c.result s o).setWidth 64)
  keeps : c.hasResult = false → t.mem = s.mem

end ArithCommand

/-! ## Runs -/

theorem low_signExtend (v : Value) (srcSize size : Size) :
    size.low (signExtend v srcSize size) = extended v srcSize size := by
  unfold signExtend extended
  split
  · rfl
  · rw [cutValue_eq, Size.low, Size.low, BitVec.setWidth_setWidth_of_le _ size.bits_le,
      BitVec.setWidth_eq]
    apply BitVec.eq_of_getLsbD_eq
    intro i hi
    have := size.bits_le
    rw [Size.low, BitVec.getLsbD_setWidth, BitVec.getLsbD_signExtend, BitVec.getLsbD_signExtend]
    simp [hi, lt_of_lt_of_le hi this]
    rfl

variable {S I}

theorem zeroExtendedValue_of_plain (h : I.signExtends = false) (amd64 : Bool) (dest : Value)
    (srcSize : Size) : zeroExtendedValue I amd64 dest srcSize = dest := by
  unfold zeroExtendedValue
  simp [h]

theorem cleared_zeroExtended {s : Proc μ} (h : Cleared s.flags) (n : Nat) (srcSize : Size) :
    Cleared (s.zeroExtended I n srcSize).flags := by
  unfold Proc.zeroExtended
  split
  · cases (I.registerOperand n).bind query64RegisterFor32 with
    | none => exact h
    | some r => exact cleared_setValue s r 0 h
  · exact h

theorem zeroExtended_of_none {s : Proc μ} {n : Nat} (h : I.registerOperand n = none)
    (srcSize : Size) : s.zeroExtended I n srcSize = s := by
  unfold Proc.zeroExtended
  rw [h]
  exact ite_self s

/-- The end of the commands with two operands: flags that were cleared, and the new value. -/
structure Finish (S : MemoryStream μ) (I : Insn) (coa : Value → Value) (new : Value)
    (s t : Proc μ) : Prop where
  stores : Stores S I s t (cutValue new I.firstSize)
  flags : ∃ g, Cleared g ∧ statusOf t.flags = { statusOf (coa g) with
    pf := isParity ((I.firstSize.low new).setWidth 8), zf := I.firstSize.low new == 0,
    sf := (I.firstSize.low new).msb }

section Run

variable {s : Proc μ} {d v : Value} {size srcSize : Size} (hI : I.HasDest)
  (h0 : getOperand S I 0 s = .ok (d, size) s)

include hI h0

/-- The tail they share: zero extension, flags, destination. -/
theorem finish_post (coa : Value → Value → Value) (srcSize : Size) (new : Value) :
    Post (checkZeroExtends I new srcSize >>= fun new => modifyFlags (coa new) >>= fun _ =>
        updateFlagsPsz (setOperand S I 0 new)) { s with flags := clearCOA s.flags }
      (fun _ t => Finish S I (coa new) new s t)
      (fun _ t => Refused S I s t (cutValue new I.firstSize)) := by
  unfold checkZeroExtends
  rw [post_bind, post_of_ok (checkZeroExtendsAt_eq I 0 _ _ _),
    zeroExtendedValue_of_plain hI.plain, post_bind, modifyFlags, post_modify]
  set u := Proc.zeroExtended I { s with flags := clearCOA s.flags } 0 srcSize with hu
  have hclear : Cleared u.flags := cleared_zeroExtended (cleared_clearCOA s.flags) 0 srcSize
  refine (updateFlagsPsz_stores S hI h0 ?_ ?_ new).mono ?_ fun _ _ h => h
  · exact zeroExtended_mem I _ 0 srcSize
  · intro p hp
    have hnone := zeroExtended_of_none (s := { s with flags := clearCOA s.flags })
      (registerOperand_of_memoryAt hp) srcSize
    rw [hu, hnone]
    rfl
  · rintro _ t ⟨hstores, hflags⟩
    refine ⟨hstores, u.flags, hclear, ?_⟩
    rw [hflags, statusOf_pszOf_cutValue]

theorem callArith_post (h1 : getOperand S I 1 s = .ok (v, srcSize) s) (op : Value → Value → Value)
    (coa : Updates → Value → Value → Value → Value → Size → Value) :
    Post (callArith S I op coa) s
      (fun _ t => Finish S I (fun f => coa .coa f d (op d (signExtend v srcSize size))
        (signExtend v srcSize size) size) (op d (signExtend v srcSize size)) s t)
      (fun _ t => Refused S I s t (cutValue (op d (signExtend v srcSize size)) I.firstSize)) := by
  unfold callArith
  rw [post_bind, post_of_ok h0]
  dsimp only
  rw [post_bind, post_of_ok h1]
  dsimp only
  rw [post_bind, modifyFlags, post_modify]
  exact finish_post hI h0 (fun new f => coa .coa f d new (signExtend v srcSize size) size) srcSize _

theorem callArithCarry_post (h1 : getOperand S I 1 s = .ok (v, srcSize) s)
    (op : Value → Value → Value)
    (coa coaCF : Updates → Value → Value → Value → Value → Size → Value) :
    Post (callArithCarry S I op coa coaCF) s
      (fun _ t => Finish S I (fun f => (if carryOf s.flags = 0 then coa else coaCF) .coa f d
        (op d (signExtend v srcSize size + carryOf s.flags)) (signExtend v srcSize size) size)
        (op d (signExtend v srcSize size + carryOf s.flags)) s t)
      (fun _ t => Refused S I s t
        (cutValue (op d (signExtend v srcSize size + carryOf s.flags)) I.firstSize)) := by
  unfold callArithCarry
  rw [post_bind, post_of_ok h0]
  dsimp only
  rw [post_bind, post_of_ok h1]
  dsimp only
  rw [post_bind, post_get, post_bind, modifyFlags, post_modify]
  exact finish_post hI h0 (fun new f => (if carryOf s.flags = 0 then coa else coaCF) .coa f d new
    (signExtend v srcSize size) size) srcSize _

theorem callIncDec_post (op : Value → Value → Value)
    (coa : Updates → Value → Value → Value → Value → Size → Value) :
    Post (callIncDec S I op coa) s
      (fun _ t => Stores S I s t (cutValue (op d 1) I.firstSize) ∧
        t.flags = pszOf (coa .oa (clearOA s.flags) d (op d 1) 1 size)
        (cutValue (op d 1) I.firstSize)
          (signMask I.firstSize))
      (fun _ t => Refused S I s t (cutValue (op d 1) I.firstSize)) := by
  unfold callIncDec
  rw [post_bind, post_of_ok h0]
  dsimp only
  rw [post_bind, modifyFlags, post_modify, post_bind, modifyFlags, post_modify]
  refine updateFlagsPsz_stores S hI h0 ?_ ?_ (op d 1)
  · rfl
  · intro p hp
    rfl

omit hI in
theorem callCmp_post (h1 : getOperand S I 1 s = .ok (v, srcSize) s) :
    Post (callCmp S I) s
      (fun _ t => t.mem = s.mem ∧
        t.flags = pszOf (setCOA_Sub .coa (clearCOA s.flags) d (d - signExtend v srcSize size)
          (signExtend v srcSize size) size) (cutValue (d - signExtend v srcSize size) I.firstSize)
          (signMask I.firstSize)) (fun _ _ => False) := by
  unfold callCmp
  rw [post_bind, post_of_ok h0]
  dsimp only
  rw [post_bind, post_of_ok h1]
  dsimp only
  rw [post_bind, modifyFlags, post_modify, post_bind, modifyFlags, post_modify, post_modify]
  exact ⟨rfl, rfl⟩

theorem callXadd_post {r : Register} (h1 : getOperand S I 1 s = .ok (v, srcSize) s)
    (hr : I.registerOperand 1 = some r)
    (haddr : ∀ p, I.memoryAt 0 = some p →
      (s.atWrite .xadd I d size).calcIndex I p.1 = s.calcIndex I p.1) :
    Post (callXadd S I) s
    (fun _ t => Finish S I (fun f => setCOA_Add .coa f d (d + v) v size) (d + v) s t)
      (fun _ t => Refused S I s t (cutValue (d + v) I.firstSize)) := by
  unfold callXadd checkZeroExtends checkZeroExtends2
  rw [post_bind, post_of_ok h0]
  dsimp only
  rw [post_bind, post_of_ok h1]
  dsimp only
  rw [post_bind, modifyFlags, post_modify, post_bind,
    post_of_ok (checkZeroExtendsAt_eq I 0 _ _ _), post_bind,
    post_of_ok (checkZeroExtendsAt_eq I 1 _ _ _), zeroExtendedValue_of_plain hI.plain,
    zeroExtendedValue_of_plain hI.plain, post_bind, modifyFlags, post_modify, post_bind,
    setOperand_of_register S hr, post_modify]
  set z := Proc.zeroExtended I { s with flags := clearCOA s.flags } 0 srcSize with hz
  set y := Proc.zeroExtended I z 1 size with hy
  set w : Proc μ := { y with flags := setCOA_Add .coa y.flags d (d + v) v size } with hw
  have hclear : Cleared y.flags :=
    cleared_zeroExtended (cleared_zeroExtended (cleared_clearCOA s.flags) 0 srcSize) 1 size
  refine (updateFlagsPsz_stores S hI h0 ?_ ?_ (d + v)).mono ?_ fun _ _ h => h
  · rw [setRegisterOperand_mem]
    exact (zeroExtended_mem I z 1 size).trans (zeroExtended_mem I _ 0 srcSize)
  · intro p hp
    rw [← haddr p hp]
    refine SameRegs.calcIndex I ?_ p.1
    unfold Proc.atWrite
    rw [hr]
    dsimp only
    rw [zeroExtendedValue_of_plain hI.plain]
    refine SameRegs.setRegisterOperand ?_ r d
    have hnone := zeroExtended_of_none (s := { s with flags := clearCOA s.flags })
      (registerOperand_of_memoryAt hp) srcSize
    have hs : SameRegs s z := by
      rw [hz, hnone]
      exact ⟨rfl, rfl⟩
    have hy' := hs.zeroExtended I 1 size
    exact ⟨hy'.mode, hy'.regs⟩
  · rintro _ t ⟨hstores, hflags⟩
    refine ⟨hstores, y.flags, hclear, ?_⟩
    rw [hflags, statusOf_pszOf_cutValue, setRegisterOperand_flags, setValue_flags]
    split
    · rw [statusOf_pszOf]
    · rfl

end Run

/-! ## Results -/

theorem add_carryValue_false (x : Value) : x + carryValue false = x := BitVec.add_zero x

theorem low_one (size : Size) : size.low 1 = 1 := by
  apply BitVec.eq_of_toNat_eq
  cases size <;> rfl

/-- The flags of a value, on top of CF, AF and OF. -/
theorem statusOf_result (f v : Value) (size : Size) :
    statusOf (pszOf f (cutValue v size) (signMask size)) =
      flagsOfResult (size.low v) (statusOf f).cf (statusOf f).af (statusOf f).of :=
  statusOf_pszOf_cutValue f v size

section Result

variable {s t : Proc μ} {d src : Value} {size : Size} {cf : Bool} (hsize : size = I.firstSize)
  (hold : cutValue d size = d)

include hsize hold

theorem finish_sum
    (h : Finish S I (fun f => setCOA_AddWith (lessWith cf) .coa f d (d + (src + carryValue cf)) src
      size) (d + (src + carryValue cf)) s t) :
    statusOf t.flags = sumFlags (size.low d) (size.low src) cf ∧
      Stores S I s t ((resultOfSum (size.low d) (size.low src) cf).setWidth 64) := by
  have hlow : size.low (d + (src + carryValue cf)) = resultOfSum (size.low d) (size.low src) cf :=
    setWidth_sum size.bits_le d src cf
  obtain ⟨g, hg, hflags⟩ := h.flags
  have hstores := h.stores
  rw [← hsize, cutValue_eq, hlow] at hstores
  rw [← hsize, hlow, statusOf_add g d src size cf hg hold] at hflags
  exact ⟨hflags, hstores⟩

theorem finish_diff
    (h : Finish S I (fun f => setCOA_SubWith (greaterWith cf) .coa f d (d - (src + carryValue cf))
      src size) (d - (src + carryValue cf)) s t) :
    statusOf t.flags = diffFlags (size.low d) (size.low src) cf ∧
      Stores S I s t ((resultOfDiff (size.low d) (size.low src) cf).setWidth 64) := by
  have hlow : size.low (d - (src + carryValue cf)) = resultOfDiff (size.low d) (size.low src) cf :=
    setWidth_diff size.bits_le d src cf
  obtain ⟨g, hg, hflags⟩ := h.flags
  have hstores := h.stores
  rw [← hsize, cutValue_eq, hlow] at hstores
  rw [← hsize, hlow, statusOf_sub g d src size cf hg hold] at hflags
  exact ⟨hflags, hstores⟩

omit hsize in
/-- The flags of a comparison. -/
theorem statusOf_compare {g : Value} (hg : Cleared g) :
    statusOf
    (pszOf (setCOA_Sub .coa g d (d - src) src size) (cutValue (d - src) size) (signMask size)) =
      diffFlags (size.low d) (size.low src) false := by
  have hlow : size.low (d - src) = resultOfDiff (size.low d) (size.low src) false := by
    have h := setWidth_diff size.bits_le d src false
    rwa [add_carryValue_false] at h
  have hcoa := statusOf_sub g d src size false hg hold
  rw [add_carryValue_false] at hcoa
  rw [statusOf_result, hlow]
  exact congrArg (fun f : StatusFlags => flagsOfResult
    (resultOfDiff (size.low d) (size.low src) false) f.cf f.af f.of) hcoa

end Result

/-! ### Operands -/

section Fetch

variable {s : Proc μ} {o : Operands}

theorem fetch_two (h : (do
      let (a, size) ← getOperand S I 0
      let (b, srcSize) ← getOperand S I 1
      return ⟨size, size.low a, extended b srcSize size⟩ : Exec μ Operands) s = .ok o s) :
    ∃ d size v srcSize, getOperand S I 0 s = .ok (d, size) s ∧ getOperand S I 1 s = .ok
    (v, srcSize) s ∧
      o = ⟨size, size.low d, size.low (signExtend v srcSize size)⟩ := by
  cases h0 : getOperand S I 0 s with
  | error e t =>
    rw [bind_of_error h0] at h
    cases h
  | ok a t =>
    obtain rfl : s = t := (getOperand_keeps S I 0 s).ok h0
    rw [bind_of_ok h0] at h
    cases h1 : getOperand S I 1 s with
    | error e t =>
      dsimp only at h
      rw [bind_of_error h1] at h
      cases h
    | ok b t =>
      obtain rfl : s = t := (getOperand_keeps S I 1 s).ok h1
      dsimp only at h
      rw [bind_of_ok h1] at h
      refine ⟨a.1, a.2, b.1, b.2, rfl, rfl, ?_⟩
      rw [low_signExtend]
      cases h
      rfl

theorem fetch_one (h : (do
      let (a, size) ← getOperand S I 0
      return ⟨size, size.low a, 1⟩ : Exec μ Operands) s = .ok o s) :
    ∃ d size, getOperand S I 0 s = .ok (d, size) s ∧ o = ⟨size, size.low d, 1⟩ := by
  cases h0 : getOperand S I 0 s with
  | error e t =>
    rw [bind_of_error h0] at h
    cases h
  | ok a t =>
    obtain rfl : s = t := (getOperand_keeps S I 0 s).ok h0
    rw [bind_of_ok h0] at h
    refine ⟨a.1, a.2, rfl, ?_⟩
    cases h
    rfl

end Fetch

/-! ### One lemma for each kind of command -/

namespace ArithCommand

/-- A command as it should run: it ends as the architecture says, or the memory
refuses its result. -/
def Runs (S : MemoryStream μ) (I : Insn) (c : ArithCommand) (o : Operands) (s : Proc μ) : Prop :=
  Post (c.call S I) s (fun _ t => c.Sets S I o s t)
    (fun _ t => c.hasResult = true ∧ Refused S I s t ((c.result s o).setWidth 64))

section Kinds

variable {c : ArithCommand} {s : Proc μ} {d src : Value} {size : Size} (hsize : size = I.firstSize)
  (hold : cutValue d size = d) (hresult : c.hasResult = true) (hkeeps : c.keepsCarry = false)

include hsize hold hresult hkeeps

theorem runs_sum (hadds : c.adds = true)
    (h : Post (c.call S I) s
      (fun _ t => Finish S I (fun f => setCOA_AddWith (lessWith (c.carryIn s)) .coa f d
        (d + (src + carryValue (c.carryIn s))) src size) (d + (src + carryValue (c.carryIn s))) s t)
      (fun _ t => Refused S I s t (cutValue (d + (src + carryValue (c.carryIn s))) I.firstSize))) :
    c.Runs S I ⟨size, size.low d, size.low src⟩ s := by
  have hlow : size.low (d + (src + carryValue (c.carryIn s))) =
      c.result s ⟨size, size.low d, size.low src⟩ := by
    rw [result, if_pos hadds]
    exact setWidth_sum size.bits_le d src _
  refine h.mono (fun _ t h => ?_) fun _ t h => ⟨hresult, ?_⟩
  · obtain ⟨hflags, hstores⟩ := finish_sum hsize hold h
    refine ⟨?_, fun _ => ?_, fun hn => absurd hresult (by rw [hn]; decide)⟩
    · rw [flags, hkeeps, hadds]
      exact hflags
    · rw [result, if_pos hadds]
      exact hstores
  · rwa [← hsize, cutValue_eq, hlow] at h

theorem runs_diff (hadds : c.adds = false)
    (h : Post (c.call S I) s
      (fun _ t => Finish S I (fun f => setCOA_SubWith (greaterWith (c.carryIn s)) .coa f d
        (d - (src + carryValue (c.carryIn s))) src size) (d - (src + carryValue (c.carryIn s))) s t)
      (fun _ t => Refused S I s t (cutValue (d - (src + carryValue (c.carryIn s))) I.firstSize))) :
    c.Runs S I ⟨size, size.low d, size.low src⟩ s := by
  have hlow : size.low (d - (src + carryValue (c.carryIn s))) =
      c.result s ⟨size, size.low d, size.low src⟩ := by
    rw [result, hadds]
    exact setWidth_diff size.bits_le d src _
  refine h.mono (fun _ t h => ?_) fun _ t h => ⟨hresult, ?_⟩
  · obtain ⟨hflags, hstores⟩ := finish_diff hsize hold h
    refine ⟨?_, fun _ => ?_, fun hn => absurd hresult (by rw [hn]; decide)⟩
    · rw [flags, hkeeps, hadds]
      exact hflags
    · rw [result, hadds]
      exact hstores
  · rwa [← hsize, cutValue_eq, hlow] at h

end Kinds

/-- The commands that no carry goes into. -/
theorem carryIn_of_not {c : ArithCommand} {s : Proc μ} (hc : c.takesCarry = false) :
    c.carryIn s = false := by
  rw [carryIn, hc, Bool.false_and]

section Commands

variable {s : Proc μ} {d v : Value} {size srcSize : Size} (hI : I.HasDest)
  (h0 : getOperand S I 0 s = .ok (d, size) s)

include hI h0

theorem runs_add (h1 : getOperand S I 1 s = .ok (v, srcSize) s) :
    Runs S I .add ⟨size, size.low d, size.low (signExtend v srcSize size)⟩ s := by
  obtain ⟨hsize, hold⟩ := getOperand_dest hI h0
  refine runs_sum hsize hold rfl rfl rfl ?_
  rw [carryIn_of_not rfl, add_carryValue_false]
  exact callArith_post hI h0 h1 (· + ·) setCOA_Add

theorem runs_sub (h1 : getOperand S I 1 s = .ok (v, srcSize) s) :
    Runs S I .sub ⟨size, size.low d, size.low (signExtend v srcSize size)⟩ s := by
  obtain ⟨hsize, hold⟩ := getOperand_dest hI h0
  refine runs_diff hsize hold rfl rfl rfl ?_
  rw [carryIn_of_not rfl, add_carryValue_false]
  exact callArith_post hI h0 h1 (· - ·) setCOA_Sub

theorem runs_xadd {r : Register} (h1 : getOperand S I 1 s = .ok (v, size) s)
    (hr : I.registerOperand 1 = some r) (haddr : ∀ p, I.memoryAt 0 = some p →
      (s.atWrite .xadd I d size).calcIndex I p.1 = s.calcIndex I p.1) :
    Runs S I .xadd ⟨size, size.low d, size.low v⟩ s := by
  obtain ⟨hsize, hold⟩ := getOperand_dest hI h0
  refine runs_sum hsize hold rfl rfl rfl ?_
  rw [carryIn_of_not rfl, add_carryValue_false]
  exact callXadd_post hI h0 h1 hr haddr

theorem runs_adc (h1 : getOperand S I 1 s = .ok (v, srcSize) s) :
    Runs S I .adc ⟨size, size.low d, size.low (signExtend v srcSize size)⟩ s := by
  obtain ⟨hsize, hold⟩ := getOperand_dest hI h0
  refine runs_sum hsize hold rfl rfl rfl ?_
  have hrun := callArithCarry_post hI h0 h1 (· + ·) setCOA_Add setCOA_AddCF
  have hcarry : carryOf s.flags = carryValue (carryIn .adc s) := rfl
  rw [hcarry] at hrun
  have hcoa : (if carryValue (carryIn .adc s) = 0 then setCOA_Add else setCOA_AddCF) =
      setCOA_AddWith (lessWith (carryIn .adc s)) := by
    cases carryIn .adc s <;> rfl
  rw [hcoa] at hrun
  exact hrun

theorem runs_sbb (h1 : getOperand S I 1 s = .ok (v, srcSize) s) :
    Runs S I .sbb ⟨size, size.low d, size.low (signExtend v srcSize size)⟩ s := by
  obtain ⟨hsize, hold⟩ := getOperand_dest hI h0
  refine runs_diff hsize hold rfl rfl rfl ?_
  have hrun := callArithCarry_post hI h0 h1 (· - ·) setCOA_Sub setCOA_SubCF
  have hcarry : carryOf s.flags = carryValue (carryIn .sbb s) := rfl
  rw [hcarry] at hrun
  have hcoa : (if carryValue (carryIn .sbb s) = 0 then setCOA_Sub else setCOA_SubCF) =
      setCOA_SubWith (greaterWith (carryIn .sbb s)) := by
    cases carryIn .sbb s <;> rfl
  rw [hcoa] at hrun
  exact hrun

theorem runs_cmp (h1 : getOperand S I 1 s = .ok (v, srcSize) s) :
    Runs S I .cmp ⟨size, size.low d, size.low (signExtend v srcSize size)⟩ s := by
  obtain ⟨hsize, hold⟩ := getOperand_dest hI h0
  refine (callCmp_post h0 h1).mono (fun _ t h => ?_) fun _ _ => False.elim
  obtain ⟨hmem, hflags⟩ := h
  refine ⟨?_, nofun, fun _ => hmem⟩
  rw [hflags, ← hsize]
  exact statusOf_compare hold (cleared_clearCOA s.flags)

theorem runs_inc : Runs S I .inc ⟨size, size.low d, 1⟩ s := by
  obtain ⟨hsize, -⟩ := getOperand_dest hI h0
  have hnew : size.low (d + 1) = resultOfSum (size.low d) 1 false := by
    have h := setWidth_sum size.bits_le d 1 false
    rw [add_carryValue_false] at h
    exact h.trans (congrArg (resultOfSum (size.low d) · false) (low_one size))
  have hoa := statusOf_add_oa s.flags d 1 size false
  rw [add_carryValue_false, low_one] at hoa
  refine (callIncDec_post hI h0 (· + ·) setCOA_Add).mono (fun _ t h => ?_) fun _ t h => ⟨rfl, ?_⟩
  · obtain ⟨hstores, hflags⟩ := h
    rw [← hsize] at hflags hstores
    refine ⟨?_, fun _ => ?_, nofun⟩
    · rw [hflags, statusOf_result, hnew]
      exact congrArg (fun f : StatusFlags => flagsOfResult (resultOfSum (size.low d) 1 false) f.cf
        f.af f.of) hoa
    · rwa [cutValue_eq, hnew] at hstores
  · rwa [← hsize, cutValue_eq, hnew] at h

theorem runs_dec : Runs S I .dec ⟨size, size.low d, 1⟩ s := by
  obtain ⟨hsize, -⟩ := getOperand_dest hI h0
  have hnew : size.low (d - 1) = resultOfDiff (size.low d) 1 false := by
    have h := setWidth_diff size.bits_le d 1 false
    rw [add_carryValue_false] at h
    exact h.trans (congrArg (resultOfDiff (size.low d) · false) (low_one size))
  have hoa := statusOf_sub_oa s.flags d 1 size false
  rw [add_carryValue_false, low_one] at hoa
  refine (callIncDec_post hI h0 (· - ·) setCOA_Sub).mono (fun _ t h => ?_) fun _ t h => ⟨rfl, ?_⟩
  · obtain ⟨hstores, hflags⟩ := h
    rw [← hsize] at hflags hstores
    refine ⟨?_, fun _ => ?_, nofun⟩
    · rw [hflags, statusOf_result, hnew]
      exact congrArg (fun f : StatusFlags => flagsOfResult (resultOfDiff (size.low d) 1 false) f.cf
        f.af f.of) hoa
    · rwa [cutValue_eq, hnew] at hstores
  · rwa [← hsize, cutValue_eq, hnew] at h

end Commands

end ArithCommand

/-! ### String comparisons -/

section Strings

variable {s t : Proc μ} {seg : SegReg} {r : Register}

theorem readString_keeps (seg : SegReg) (r : Register) : Keeps Eq (readString S I seg r) :=
  (calcIndexM_keeps I _).bind fun _ => (getMemValue_keeps S _ _ _ _).bind fun _ => Keeps.pure _

theorem readString_cut {a v : Value} (h : readString S I seg r s = .ok (a, v) t) :
    cutValue v I.firstSize = v := by
  unfold readString at h
  cases hc : s.calcIndex I ⟨seg, some r, none, 0, 0⟩ with
  | error e =>
    rw [bind_of_error (calcIndexM_of_error I hc)] at h
    cases h
  | ok p =>
    rw [bind_of_ok (calcIndexM_of_ok I hc)] at h
    dsimp only at h
    cases hv : getMemValue S p.1 p.2 I.firstSize seg s with
    | error e u =>
      rw [bind_of_error hv] at h
      cases h
    | ok w u =>
      rw [bind_of_ok hv] at h
      cases h
      exact getMemValue_ok hv

/-- CF, AF and OF are the same. -/
structure SameCOA (f g : Value) : Prop where
  cf : (statusOf g).cf = (statusOf f).cf
  af : (statusOf g).af = (statusOf f).af
  of : (statusOf g).of = (statusOf f).of

theorem SameCOA.trans {f g h : Value} (h₁ : SameCOA f g) (h₂ : SameCOA g h) : SameCOA f h :=
  ⟨h₂.cf.trans h₁.cf, h₂.af.trans h₁.af, h₂.of.trans h₁.of⟩

theorem SameCOA.pszOf {f g : Value} (h : SameCOA f g) (x mask : Value) :
    statusOf (pszOf g x mask) = statusOf (pszOf f x mask) := by
  rw [statusOf_pszOf, statusOf_pszOf]
  dsimp only
  rw [h.cf, h.af, h.of]

theorem sameCOA_setValue (s : Proc μ) (r : Register) (v : Value) :
    SameCOA s.flags (s.setValue r v).flags := by
  rw [setValue_flags]
  split
  · constructor <;> rw [statusOf_pszOf]
  · exact ⟨rfl, rfl, rfl⟩

theorem setValue_mem (s : Proc μ) (r : Register) (v : Value) : (s.setValue r v).mem = s.mem :=
  (Proc.sameRest_setValueEx s (some r) r v r.size).mem

variable {o : Operands}

theorem fetch_cmps (hf : ArithCommand.cmps.fetch S I s = .ok o s) :
    ∃ si di p q, stringRegister I.addressSize 6 = some si ∧
    stringRegister I.addressSize 7 = some di ∧
      readString S I .ds si s = .ok p s ∧ readString S I .es di s = .ok q s ∧
      o = ⟨I.firstSize, I.firstSize.low p.2, I.firstSize.low q.2⟩ := by
  unfold ArithCommand.fetch at hf
  cases hsi : stringRegister I.addressSize 6 with
  | none =>
    rw [hsi] at hf
    cases hf
  | some si =>
    cases hdi : stringRegister I.addressSize 7 with
    | none =>
      rw [hsi, hdi] at hf
      cases hf
    | some di =>
      rw [hsi, hdi] at hf
      dsimp only at hf
      cases h0 : readString S I .ds si s with
      | error e u =>
        rw [bind_of_error h0] at hf
        cases hf
      | ok p u =>
        obtain rfl : s = u := (readString_keeps .ds si s).ok h0
        rw [bind_of_ok h0] at hf
        cases h1 : readString S I .es di s with
        | error e u =>
          rw [bind_of_error h1] at hf
          cases hf
        | ok q u =>
          obtain rfl : s = u := (readString_keeps .es di s).ok h1
          rw [bind_of_ok h1] at hf
          cases hf
          exact ⟨si, di, p, q, rfl, rfl, h0, h1, rfl⟩

theorem fetch_scas (hf : ArithCommand.scas.fetch S I s = .ok o s) :
    ∃ di q, stringRegister I.addressSize 7 = some di ∧ readString S I .es di s = .ok q s ∧
      o = ⟨I.firstSize, I.firstSize.low (s.getValueEx .rax I.firstSize), I.firstSize.low q.2⟩ := by
  unfold ArithCommand.fetch at hf
  cases hdi : stringRegister I.addressSize 7 with
  | none =>
    rw [hdi] at hf
    cases hf
  | some di =>
    rw [hdi] at hf
    dsimp only at hf
    rw [get_bind] at hf
    cases h1 : readString S I .es di s with
    | error e u =>
      rw [bind_of_error h1] at hf
      cases hf
    | ok q u =>
      obtain rfl : s = u := (readString_keeps .es di s).ok h1
      rw [bind_of_ok h1] at hf
      cases hf
      exact ⟨di, q, rfl, h1, rfl⟩

namespace ArithCommand

theorem runs_cmps (hlen : I.operands.length = 2) (hf : cmps.fetch S I s = .ok o s) :
    Runs S I .cmps o s := by
  obtain ⟨si, di, ⟨srcAddress, src⟩, ⟨destAddress, dest⟩, hsi, hdi, h0, h1, rfl⟩ := fetch_cmps hf
  unfold Runs call callCmps
  rw [if_neg (not_not.2 hlen), hsi, hdi]
  change Post (readString S I .ds si >>= _) s _ _
  rw [post_bind, post_of_ok h0]
  dsimp only
  rw [post_bind, post_of_ok h1]
  dsimp only
  rw [post_bind, post_get, post_bind, modifyFlags, post_modify, post_bind, modifyFlags,
    post_modify, post_bind, post_modify, post_bind, post_modify, post_modify]
  have hcoa := (sameCOA_setValue _ si (nextString I s.flags srcAddress)).trans
    (sameCOA_setValue
      (({ s with flags := setCOA_Sub .coa (clearCOA s.flags) src (src - dest) dest I.firstSize } :
      Proc μ).setValue si (nextString I s.flags srcAddress)) di (nextString I s.flags destAddress))
  refine ⟨?_, fun h => absurd h (by decide), fun _ => ?_⟩
  · exact (hcoa.pszOf _ _).trans (statusOf_compare (readString_cut h0) (cleared_clearCOA s.flags))
  · exact (setValue_mem _ di _).trans (setValue_mem _ si _)

theorem runs_scas (hlen : I.operands.length = 1) (hf : scas.fetch S I s = .ok o s) :
    Runs S I .scas o s := by
  obtain ⟨di, ⟨destAddress, dest⟩, hdi, h1, rfl⟩ := fetch_scas hf
  unfold Runs call callScas
  rw [post_bind, post_get, if_neg (not_not.2 hlen), hdi]
  change Post (readString S I .es di >>= _) s _ _
  rw [post_bind, post_of_ok h1]
  dsimp only
  rw [post_bind, modifyFlags, post_modify, post_bind, modifyFlags, post_modify, post_bind,
    post_modify, post_modify]
  have hcut := cutValue_getValueEx s .rax I.firstSize
  generalize s.getValueEx .rax I.firstSize = src at hcut ⊢
  have hcoa := sameCOA_setValue
    ({ s with flags := setCOA_Sub .coa (clearCOA s.flags) src (src - dest) dest I.firstSize } :
      Proc μ) di
    (nextString I s.flags destAddress)
  refine ⟨?_, fun h => absurd h (by decide), fun _ => ?_⟩
  · exact (hcoa.pszOf _ _).trans (statusOf_compare hcut (cleared_clearCOA s.flags))
  · exact setValue_mem _ di _

end ArithCommand

end Strings

/-! ## The ten commands -/

namespace ArithCommand

variable {c : ArithCommand} {s : Proc μ} {o : Operands}

/-- Every command runs as it should; `xadd` with the address it has when it comes to write. -/
theorem runs_of_decoded (hI : c.Decoded I) (hf : c.fetch S I s = .ok o s)
    (haddr : c = .xadd → ∀ d size, getOperand S I 0 s = .ok (d, size) s → ∀ p,
      I.memoryAt 0 = some p →
      (s.atWrite .xadd I d size).calcIndex I p.1 = s.calcIndex I p.1) : c.Runs S I o s := by
  cases c with
  | add =>
    obtain ⟨d, size, v, srcSize, h0, h1, rfl⟩ := fetch_two hf
    exact runs_add hI h0 h1
  | adc =>
    obtain ⟨d, size, v, srcSize, h0, h1, rfl⟩ := fetch_two hf
    exact runs_adc hI h0 h1
  | sub =>
    obtain ⟨d, size, v, srcSize, h0, h1, rfl⟩ := fetch_two hf
    exact runs_sub hI h0 h1
  | sbb =>
    obtain ⟨d, size, v, srcSize, h0, h1, rfl⟩ := fetch_two hf
    exact runs_sbb hI h0 h1
  | cmp =>
    obtain ⟨d, size, v, srcSize, h0, h1, rfl⟩ := fetch_two hf
    exact runs_cmp hI h0 h1
  | inc =>
    obtain ⟨d, size, h0, rfl⟩ := fetch_one hf
    exact runs_inc hI h0
  | dec =>
    obtain ⟨d, size, h0, rfl⟩ := fetch_one hf
    exact runs_dec hI h0
  | xadd =>
    obtain ⟨hI, r, addressSize, hop⟩ := hI
    obtain ⟨d, size, v, srcSize, h0, h1, rfl⟩ := fetch_two hf
    have hr : I.registerOperand 1 = some r := by
      unfold Insn.registerOperand
      rw [hop]
    obtain ⟨hsize, -⟩ := getOperand_dest hI h0
    have hsrc : srcSize = size := by
      unfold getOperand at h1
      rw [hop] at h1
      cases h1
      exact hsize.symm
    subst hsrc
    rw [signExtend, if_pos rfl]
    exact runs_xadd hI h0 h1 hr (haddr rfl d srcSize h0)
  | cmps => exact runs_cmps hI hf
  | scas => exact runs_scas hI hf

end ArithCommand

/-- A command, with the writes to memory on record, leaves the result and the flags of the
architecture. -/
def SetsFlags (S : MemoryStream μ) (I : Insn) (c : ArithCommand) (s : Proc μ) : Prop :=
  ∀ o, c.fetch S.logged I s.withLog = .ok o s.withLog → c.Runs S.logged I o s.withLog

section Kept

variable {s : Proc μ}

theorem calcIndex_error {x : RmIndex} {e : Status} (h : s.calcIndex I x = .error e) :
    e = .error := by
  unfold Proc.calcIndex at h
  dsimp only at h
  split at h
  · cases h
  · cases h
  · exact (Except.error.inj h).symm

theorem calcIndex_of_access {t : Proc μ} {p : RmIndex × Size} (hp : I.memoryAt 0 = some p)
    (h : t.access I 0 = s.access I 0) : t.calcIndex I p.1 = s.calcIndex I p.1 := by
  obtain ⟨x, size⟩ := p
  cases ht : t.calcIndex I x with
  | ok a =>
    cases hs : s.calcIndex I x with
    | ok b =>
      rw [access_of_ok hp ht, access_of_ok hp hs] at h
      obtain ⟨h₁, h₂, -, -⟩ := Access.mk.inj (Option.some.inj h)
      exact congrArg Except.ok (Prod.ext h₁ h₂)
    | error e =>
      rw [access_of_ok hp ht, access_of_error hp hs] at h
      cases h
  | error e =>
    cases hs : s.calcIndex I x with
    | ok b =>
      rw [access_of_error hp ht, access_of_ok hp hs] at h
      cases h
    | error e' => rw [calcIndex_error ht, calcIndex_error hs]

theorem setsFlags_of_kept {c : ArithCommand} (hI : c.Decoded I)
    (h : c = .xadd → AddressKept S .xadd I s) : SetsFlags S I c s := by
  intro o hf
  refine ArithCommand.runs_of_decoded hI hf fun hc d size h0 p hp => ?_
  have h0' := (getOperand_withLog S hp s (d, size)).1 h0
  have hkept := calcIndex_of_access hp (h hc d size h0')
  rw [(atWrite_withLog s .xadd I d size).calcIndex, hkept, (withLog_sameRegs s).calcIndex]

theorem kept_of_setsFlags (hI : ArithCommand.xadd.Decoded I) (h : SetsFlags S I .xadd s) :
    AddressKept S .xadd I s := by
  intro d size h0
  cases hp : I.memoryAt 0 with
  | none =>
    unfold Proc.access
    rw [hp, Option.bind_none, Option.bind_none]
  | some p =>
    obtain ⟨x, xsize⟩ := p
    obtain ⟨-, r, addressSize, hop⟩ := hI
    have hr : I.registerOperand 1 = some r := by
      unfold Insn.registerOperand
      rw [hop]
    have h0' := (getOperand_withLog S hp s (d, size)).2 h0
    obtain ⟨⟨v, srcSize⟩, h1⟩ := getOperand_of_register S.logged hr s.withLog
    have hf : ArithCommand.xadd.fetch S.logged I s.withLog =
        .ok ⟨size, size.low d, extended v srcSize size⟩ s.withLog := by
      unfold ArithCommand.fetch
      exact (bind_of_ok h0').trans ((bind_of_ok h1).trans rfl)
    have hrun := h _ hf
    have hlogs := callXadd_logs S (registerOperand_of_memoryAt hp) h0' h1 hr
    rw [(atWrite_withLog s .xadd I d size).access] at hlogs
    -- the record of the one write, as the run leaves it and as it should be
    have hwrite : ∀ t : Proc (μ × List Access),
      Logs ((s.atWrite .xadd I d size).access I 0) s.withLog t →
        (∃ selector offset bs, s.withLog.calcIndex I x = .ok (selector, offset) ∧
          bs.length = xsize.bytes ∧
          t.mem = (S.logged.write s.withLog.mem selector offset bs x.segReg).2) →
        (s.atWrite .xadd I d size).access I 0 = s.access I 0 := by
      rintro t hlog ⟨selector, offset, bs, ha, hbs, hmem⟩
      rw [(withLog_sameRegs s).calcIndex] at ha
      unfold Logs at hlog
      rw [hmem] at hlog
      rw [access_of_ok hp ha, ← hbs]
      cases hw : (s.atWrite .xadd I d size).access I 0 with
      | none =>
        rw [hw] at hlog
        cases hlog
      | some a =>
        rw [hw] at hlog
        exact congrArg some (List.cons.inj hlog).1.symm
    cases hx : callXadd S.logged I s.withLog with
    | ok u t =>
      obtain ⟨selector, offset, ha, hmem⟩ := ((hrun.ok hx).stores rfl).2 x xsize hp
      exact hwrite t (hlogs.ok hx) ⟨selector, offset, _, ha, length_leBytes _ _, hmem⟩
    | error e t =>
      obtain ⟨-, x', size', selector, offset, hx', ha, hmem, -⟩ := hrun.error hx
      rw [hp] at hx'
      cases hx'
      exact hwrite t (hlogs.error hx) ⟨selector, offset, _, ha, length_leBytes _ _, hmem⟩

end Kept

/-- The commands that add and subtract set their destination and the status flags as the
architecture defines them, but for `xadd` where the new value of the source register
moves the destination. -/
theorem setsFlags_iff (S : MemoryStream μ) {I : Insn} {c : ArithCommand} (hI : c.Decoded I)
    (s : Proc μ) : SetsFlags S I c s ↔ (c = .xadd → AddressKept S .xadd I s) := by
  refine ⟨fun h hc => ?_, setsFlags_of_kept hI⟩
  subst hc
  exact kept_of_setsFlags hI h

/-- `add eax, ecx` in 64-bit mode. -/
def addEaxEcx : Insn where
  command := .general .add
  operands := [⟨.register (.r32 0), .dword, .qword⟩, ⟨.register (.r32 1), .dword, .qword⟩]
  iPrefix := .none
  opsize := .dword
  addressSize := .qword
  rexW := false
  fullCmdSize := 2
  signExtends := false
  pushSeg := false
  lockable := true
  isEvex := false

theorem hasDest_addEaxEcx : addEaxEcx.HasDest where
  dest := .inl rfl
  sized r hr := by
    cases hr
    rfl
  plain := rfl

theorem setsFlags_addEaxEcx : ArithCommand.add.Decoded addEaxEcx ∧
    SetsFlags zeroStream addEaxEcx .add (raxAt 0xFFFFFFFF) :=
  ⟨hasDest_addEaxEcx,
    (setsFlags_iff zeroStream (c := .add) hasDest_addEaxEcx (raxAt 0xFFFFFFFF)).2 nofun⟩

/-- `xadd [rax], rax` with `rax = 0x1000`: the sum goes to address 0. -/
theorem not_setsFlags_xadd : ¬ SetsFlags zeroStream (xaddRax .rax) .xadd (raxAt 0x1000) := by
  intro h
  have hI : ArithCommand.xadd.Decoded (xaddRax .rax) := by
    refine ⟨⟨.inr rfl, nofun, rfl⟩, .rax, .qword, rfl⟩
  have hkept := kept_of_setsFlags hI h 0 .qword rfl
  revert hkept
  decide +kernel

end Diana.Processor
