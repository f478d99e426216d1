import Diana.Processor.ArithCommands
import Mathlib.Tactic.LinearCombination

/-!
# Packed decimal numbers

`daa` and `das` of `diana_processor_cmd_d.c`, which correct the binary sum or difference of two
bytes with two decimal digits each.

* `callDaa`, `callDas`: the commands; `callDaa_spec`, `callDas_spec`: what they leave in AL and in
  CF;
* `PackedByte`: a byte with two digits;
* `addDecimal_sum`, `subDecimal_diff`: numbers of any length, byte by byte, with the
  carry or the borrow in CF.
-/

namespace Diana.Processor

open Diana.Lib

variable {μ : Type} (S : MemoryStream μ)

/-! ## Handlers -/

/-- `( tmpAL & 0x0F ) > 0x09 || GET_FLAG_AF`: the low digit is to be corrected. -/
def lowAdjust (al : BitVec 8) (flags : Value) :
    Bool := 9 < (al &&& 15).toNat || queryFlag flags flagAF

/-- `( tmpAL > 0x99 ) || GET_FLAG_CF`: the high digit is to be corrected. -/
def highAdjust (al : BitVec 8) (flags : Value) : Bool := 0x99 < al.toNat || queryFlag flags flagCF

/-- `SET_FLAG_...` or `CLEAR_FLAG_...` -/
def putFlag (flags mask : Value) (c : Bool) :
    Value := if c then setFlag flags mask else clearFlag flags mask

/-- `Diana_Call_daa` -/
def callDaa : Exec μ Unit := do
  let s ← get
  let tmpAL := (s.getValue (.r8 0)).setWidth 8
  let low := lowAdjust tmpAL s.flags
  let al := if low then tmpAL + 6 else tmpAL
  modifyFlags fun f => putFlag f flagAF low
  let tmpCF := highAdjust tmpAL s.flags
  let al := if tmpCF then al + 0x60 else al
  updateFlagsPsz (modify fun t => t.setValue (.r8 0) (al.setWidth 64))
  modifyFlags fun f => clearFlag f flagOF
  modifyFlags fun f => putFlag f flagCF tmpCF

/-- `Diana_Call_das`: CF may come from the low digit, too. -/
def callDas : Exec μ Unit := do
  let s ← get
  let oldal := (s.getValue (.r8 0)).setWidth 8
  let low := lowAdjust oldal s.flags
  let tmpCF := low && (oldal.toNat < 6 || queryFlag s.flags flagCF)
  let al := if low then oldal - 6 else oldal
  modifyFlags fun f => putFlag f flagAF low
  let high := highAdjust oldal s.flags
  let al := if high then al - 0x60 else al
  updateFlagsPsz (modify fun t => t.setValue (.r8 0) (al.setWidth 64))
  modifyFlags fun f => clearFlag f flagOF
  modifyFlags fun f => putFlag f flagCF (high || tmpCF)

/-! ## What they leave -/

/-- AL -/
def Proc.al (s : Proc μ) : BitVec 8 := (s.getValue (.r8 0)).setWidth 8

section Values

variable (al : BitVec 8) (flags : Value)

def daaAl : BitVec 8 :=
  let low := if lowAdjust al flags then al + 6 else al
  if highAdjust al flags then low + 0x60 else low

def dasAl : BitVec 8 :=
  let low := if lowAdjust al flags then al - 6 else al
  if highAdjust al flags then low - 0x60 else low

def dasCF :
    Bool := highAdjust al flags || lowAdjust al flags && (al.toNat < 6 || queryFlag flags flagCF)

end Values

theorem queryFlag_putFlag (flags : Value) (c : Bool) :
    queryFlag (putFlag flags flagCF c) flagCF = c := by
  obtain ⟨h0, -⟩ := flags_twoPow
  unfold putFlag
  cases c <;> simp [h0, queryFlag_setFlag, queryFlag_clearFlag]

theorem setWidth_cutValue_byte (b : BitVec 8) :
    (cutValue (b.setWidth 64) .byte).setWidth 8 = b := by
  apply BitVec.eq_of_toNat_eq
  rw [BitVec.toNat_setWidth, toNat_cutValue, Size.low, BitVec.toNat_setWidth, BitVec.toNat_setWidth]
  have hlt := b.isLt
  change b.toNat % 2 ^ 64 % 2 ^ 8 % 2 ^ 8 = b.toNat
  omega

theorem al_setValue (s : Proc μ) (b : BitVec 8) : (s.setValue (.r8 0) (b.setWidth 64)).al = b := by
  unfold Proc.al
  rw [getValue_setValue]
  exact setWidth_cutValue_byte b

theorem callDaa_spec (s : Proc μ) :
    ∃ t, callDaa s = .ok () t ∧ t.al = daaAl s.al s.flags ∧
    queryFlag t.flags flagCF = highAdjust s.al s.flags :=
  ⟨_, rfl, al_setValue _ _, queryFlag_putFlag _ _⟩

theorem callDas_spec (s : Proc μ) :
    ∃ t, callDas s = .ok () t ∧ t.al = dasAl s.al s.flags ∧
    queryFlag t.flags flagCF = dasCF s.al s.flags :=
  ⟨_, rfl, al_setValue _ _, queryFlag_putFlag _ _⟩

/-! ## Digits -/

/-- A byte with two decimal digits. -/
structure PackedByte where
  byte : BitVec 8
  low : byte.toNat % 16 ≤ 9
  high : byte.toNat / 16 ≤ 9

namespace PackedByte

def value (p : PackedByte) : Nat := 10 * (p.byte.toNat / 16) + p.byte.toNat % 16

theorem ofDigits {x : BitVec 8} {high low : Nat} (hhigh : high ≤ 9) (hlow : low ≤ 9)
    (hx : x.toNat = 16 * high + low) :
    ∃ r : PackedByte, r.byte = x ∧ r.value = 10 * high + low := by
  have h0 : x.toNat % 16 = low := by omega
  have h1 : x.toNat / 16 = high := by omega
  refine ⟨⟨x, by omega, by omega⟩, rfl, ?_⟩
  unfold value
  dsimp only
  omega

end PackedByte

/-- The number of some bytes, the least significant first. -/
def decimalValue : List PackedByte → Nat
  | [] => 0
  | p :: ps => p.value + 100 * decimalValue ps

theorem toNat_and_fifteen (al : BitVec 8) : (al &&& 15).toNat = al.toNat % 16 := by
  rw [BitVec.toNat_and]
  exact Nat.and_two_pow_sub_one_eq_mod al.toNat 4

theorem lowAdjust_eq (al : BitVec 8) (flags : Value) :
    lowAdjust al flags = (9 < al.toNat % 16 || queryFlag flags flagAF) := by
  unfold lowAdjust
  rw [toNat_and_fifteen]

theorem toNat_daaAl (al : BitVec 8) (flags : Value) :
    (daaAl al flags).toNat =
    (al.toNat + 6 * (lowAdjust al flags).toNat + 96 * (highAdjust al flags).toNat) % 256 := by
  have hlt := al.isLt
  unfold daaAl
  cases lowAdjust al flags <;> cases highAdjust al flags <;> simp
  omega

theorem toNat_dasAl (al : BitVec 8) (flags : Value) :
    (dasAl al flags).toNat =
    (al.toNat + 512 - 6 * (lowAdjust al flags).toNat - 96 * (highAdjust al flags).toNat) % 256 := by
  have hlt := al.isLt
  unfold dasAl
  cases lowAdjust al flags <;> cases highAdjust al flags <;> simp [BitVec.toNat_sub] <;> omega

section Digits

variable (a b : PackedByte) (c : Bool) {al : BitVec 8} {flags : Value}

/-- The binary sum of two packed bytes, corrected. -/
theorem daa_sum (hal : al = resultOfSum a.byte b.byte c)
    (hflags : statusOf flags = sumFlags a.byte b.byte c) :
    ∃ r : PackedByte, r.byte = daaAl al flags ∧
      r.value + 100 * (highAdjust al flags).toNat = a.value + b.value + c.toNat := by
  have hcf : queryFlag flags flagCF = decide (2 ^ 8 ≤ a.byte.toNat + b.byte.toNat + c.toNat) :=
    congrArg StatusFlags.cf hflags
  have haf : queryFlag flags flagAF =
      decide (16 ≤ a.byte.toNat % 16 + b.byte.toNat % 16 + c.toNat) :=
    congrArg StatusFlags.af hflags
  have hnat : al.toNat = (a.byte.toNat + b.byte.toNat + c.toNat) % 256 := by
    rw [hal, resultOfSum, BitVec.toNat_ofNat]
  have ha0 := a.low
  have ha1 := a.high
  have hb0 := b.low
  have hb1 := b.high
  have hc := Bool.toNat_le c
  have hlow : lowAdjust al flags =
      decide (10 ≤ a.byte.toNat % 16 + b.byte.toNat % 16 + c.toNat) := by
    rw [lowAdjust_eq, haf, ← Bool.decide_or]
    exact decide_eq_decide.2 (by omega)
  have hhigh : highAdjust al flags = decide (100 ≤ a.value + b.value + c.toNat) := by
    rw [highAdjust, hcf, ← Bool.decide_or]
    unfold PackedByte.value
    exact decide_eq_decide.2 (by omega)
  have hbyte := toNat_daaAl al flags
  rw [hlow, hhigh, hnat] at hbyte
  rw [hhigh]
  -- the digits in each of the four cases
  have hdigits : ∃ high low, high ≤ 9 ∧ low ≤ 9 ∧ (daaAl al flags).toNat = 16 * high + low ∧
      10 * high + low + 100 * (decide (100 ≤ a.value + b.value + c.toNat)).toNat =
      a.value + b.value + c.toNat := by
    by_cases h0 : 10 ≤ a.byte.toNat % 16 + b.byte.toNat % 16 + c.toNat
    · by_cases h1 : 100 ≤ a.value + b.value + c.toNat
      · simp only [h0, h1, decide_true, Bool.toNat_true] at hbyte ⊢
        unfold PackedByte.value at h1 ⊢
        exact ⟨a.byte.toNat / 16 + b.byte.toNat / 16 - 9,
          a.byte.toNat % 16 + b.byte.toNat % 16 + c.toNat - 10, by omega,
          by omega, by omega, by omega⟩
      · simp only [h0, h1, decide_true, decide_false, Bool.toNat_true, Bool.toNat_false] at hbyte ⊢
        unfold PackedByte.value at h1 ⊢
        exact ⟨a.byte.toNat / 16 + b.byte.toNat / 16 + 1,
          a.byte.toNat % 16 + b.byte.toNat % 16 + c.toNat - 10, by omega,
          by omega, by omega, by omega⟩
    · by_cases h1 : 100 ≤ a.value + b.value + c.toNat
      · simp only [h0, h1, decide_true, decide_false, Bool.toNat_true, Bool.toNat_false] at hbyte ⊢
        unfold PackedByte.value at h1 ⊢
        exact ⟨a.byte.toNat / 16 + b.byte.toNat / 16 - 10,
          a.byte.toNat % 16 + b.byte.toNat % 16 + c.toNat, by omega, by omega, by omega, by omega⟩
      · simp only [h0, h1, decide_false, Bool.toNat_false] at hbyte ⊢
        unfold PackedByte.value at h1 ⊢
        exact ⟨a.byte.toNat / 16 + b.byte.toNat / 16,
          a.byte.toNat % 16 + b.byte.toNat % 16 + c.toNat, by omega, by omega, by omega, by omega⟩
  obtain ⟨high, low, hhigh', hlow', hnat', hvalue⟩ := hdigits
  obtain ⟨r, hr, hr'⟩ := PackedByte.ofDigits hhigh' hlow' hnat'
  exact ⟨r, hr, by rw [hr', hvalue]⟩

/-- The binary difference of two packed bytes, corrected. -/
theorem das_diff (hal : al = resultOfDiff a.byte b.byte c)
    (hflags : statusOf flags = diffFlags a.byte b.byte c) :
    ∃ r : PackedByte, r.byte = dasAl al flags ∧
      r.value + b.value + c.toNat = a.value + 100 * (dasCF al flags).toNat := by
  have hcf : queryFlag flags flagCF = decide (a.byte.toNat < b.byte.toNat + c.toNat) :=
    congrArg StatusFlags.cf hflags
  have haf : queryFlag flags flagAF = decide (a.byte.toNat % 16 < b.byte.toNat % 16 + c.toNat) :=
    congrArg StatusFlags.af hflags
  have ha := a.byte.isLt
  have hb := b.byte.isLt
  have ha0 := a.low
  have ha1 := a.high
  have hb0 := b.low
  have hb1 := b.high
  have hc := Bool.toNat_le c
  have hnat : al.toNat = (a.byte.toNat + 512 - b.byte.toNat - c.toNat) % 256 := by
    rw [hal, resultOfDiff, BitVec.toNat_ofInt]
    omega
  have hlow : lowAdjust al flags = decide (a.byte.toNat % 16 < b.byte.toNat % 16 + c.toNat) := by
    rw [lowAdjust_eq, haf, ← Bool.decide_or]
    exact decide_eq_decide.2 (by omega)
  have hhigh : highAdjust al flags = decide (a.byte.toNat < b.byte.toNat + c.toNat) := by
    rw [highAdjust, hcf, ← Bool.decide_or]
    exact decide_eq_decide.2 (by omega)
  -- without a borrow out of the byte, a borrow out of the low digit leaves at least 6
  have hborrow : dasCF al flags = decide (a.byte.toNat < b.byte.toNat + c.toNat) := by
    unfold dasCF
    rw [hhigh, hlow, hcf, ← Bool.decide_or, ← Bool.decide_and, ← Bool.decide_or]
    exact decide_eq_decide.2 (by omega)
  have hbyte := toNat_dasAl al flags
  rw [hlow, hhigh, hnat] at hbyte
  rw [hborrow]
  have hdigits : ∃ high low, high ≤ 9 ∧ low ≤ 9 ∧ (dasAl al flags).toNat = 16 * high + low ∧
      10 * high + low + b.value + c.toNat =
      a.value + 100 * (decide (a.byte.toNat < b.byte.toNat + c.toNat)).toNat := by
    unfold PackedByte.value
    by_cases h0 : a.byte.toNat % 16 < b.byte.toNat % 16 + c.toNat
    · by_cases h1 : a.byte.toNat < b.byte.toNat + c.toNat
      · simp only [h0, h1, decide_true, Bool.toNat_true] at hbyte ⊢
        exact ⟨a.byte.toNat / 16 + 9 - b.byte.toNat / 16,
          a.byte.toNat % 16 + 10 - b.byte.toNat % 16 - c.toNat, by omega,
          by omega, by omega, by omega⟩
      · simp only [h0, h1, decide_true, decide_false, Bool.toNat_true, Bool.toNat_false] at hbyte ⊢
        exact ⟨a.byte.toNat / 16 - 1 - b.byte.toNat / 16,
          a.byte.toNat % 16 + 10 - b.byte.toNat % 16 - c.toNat, by omega,
          by omega, by omega, by omega⟩
    · by_cases h1 : a.byte.toNat < b.byte.toNat + c.toNat
      · simp only [h0, h1, decide_true, decide_false, Bool.toNat_true, Bool.toNat_false] at hbyte ⊢
        exact ⟨a.byte.toNat / 16 + 10 - b.byte.toNat / 16,
          a.byte.toNat % 16 - b.byte.toNat % 16 - c.toNat, by omega, by omega, by omega, by omega⟩
      · simp only [h0, h1, decide_false, Bool.toNat_false] at hbyte ⊢
        exact ⟨a.byte.toNat / 16 - b.byte.toNat / 16,
          a.byte.toNat % 16 - b.byte.toNat % 16 - c.toNat, by omega, by omega, by omega, by omega⟩
  obtain ⟨high, low, hhigh', hlow', hnat', hvalue⟩ := hdigits
  obtain ⟨r, hr, hr'⟩ := PackedByte.ofDigits hhigh' hlow' hnat'
  exact ⟨r, hr, by rw [hr', hvalue]⟩

end Digits

/-! ## Numbers -/

/-- A command on AL and a constant. -/
def alInsn (b : BitVec 8) : Insn where
  command := .other 0
  operands := [⟨.register (.r8 0), .byte, .qword⟩, ⟨.imm (b.setWidth 64), .byte, .qword⟩]
  iPrefix := .none
  opsize := .dword
  addressSize := .qword
  rexW := false
  fullCmdSize := 2
  signExtends := false
  pushSeg := false
  lockable := false
  isEvex := false

theorem hasDest_alInsn (b : BitVec 8) : (alInsn b).HasDest where
  dest := .inl rfl
  sized r hr := by
    cases hr
    rfl
  plain := rfl

/-- `mov al, a`, a command with `b`, and the correction; then the byte in AL. -/
def decimalStep (c : ArithCommand) (adjust : Exec μ Unit) (a b : BitVec 8) : Exec μ (BitVec 8) := do
  callMov S (alInsn a)
  c.call S (alInsn b)
  adjust
  let s ← get
  return s.al

def decimalRun (c : ArithCommand) (adjust : Exec μ Unit) :
    List (BitVec 8 × BitVec 8) → Exec μ (List (BitVec 8))
  | [] => pure []
  | (a, b) :: ps => do
    let r ← decimalStep S c adjust a b
    let rs ← decimalRun c adjust ps
    return r :: rs

/-- A sum of two numbers of any length: `adc` and `daa` for each byte. -/
def addDecimal (ps : List (PackedByte × PackedByte)) : Exec μ (List (BitVec 8)) :=
  decimalRun S .adc callDaa (ps.map fun p => (p.1.byte, p.2.byte))

/-- A difference: `sbb` and `das` for each byte. -/
def subDecimal (ps : List (PackedByte × PackedByte)) : Exec μ (List (BitVec 8)) :=
  decimalRun S .sbb callDas (ps.map fun p => (p.1.byte, p.2.byte))

theorem queryFlag_setValue (s : Proc μ) (r : Register) (v : Value) :
    queryFlag (s.setValue r v).flags flagCF = queryFlag s.flags flagCF := by
  rw [setValue_flags]
  split
  · exact congrArg StatusFlags.cf (statusOf_pszOf _ _ _)
  · rfl

theorem callMov_al (s : Proc μ) (a : BitVec 8) :
    ∃ t, callMov S (alInsn a) s = .ok () t ∧ t.al = a ∧
    queryFlag t.flags flagCF = queryFlag s.flags flagCF := by
  have hextends : checkZeroExtends (alInsn a) (a.setWidth 64) .byte s = .ok (a.setWidth 64) s := by
    unfold checkZeroExtends
    rw [checkZeroExtendsAt_eq]
    unfold zeroExtendedValue Proc.zeroExtended
    cases s.mode.amd64 <;> rfl
  have hrun : callMov S (alInsn a) s = .ok () (s.setValue (.r8 0) (a.setWidth 64)) := by
    unfold callMov
    change (checkZeroExtends (alInsn a) (a.setWidth 64) .byte >>= setOperand S (alInsn a) 0) s = _
    rw [bind_of_ok hextends]
    rfl
  exact ⟨_, hrun, al_setValue _ _, queryFlag_setValue _ _ _⟩

/-- A command that leaves its result in AL. -/
theorem arith_al {c : ArithCommand} {s : Proc μ} {b : BitVec 8} (hc : c.hasResult = true)
    (h : c.Runs S (alInsn b) ⟨.byte, Size.byte.low (s.getValue (.r8 0)),
      Size.byte.low (signExtend (b.setWidth 64) .byte .byte)⟩ s) :
    ∃ t, c.call S (alInsn b) s = .ok () t ∧ t.al = c.result s ⟨.byte, s.al, b⟩ ∧
    statusOf t.flags = c.flags s ⟨.byte, s.al, b⟩ := by
  have hb : Size.byte.low (signExtend (b.setWidth 64) .byte .byte) = b := by
    unfold signExtend
    rw [if_pos rfl, Size.low]
    exact (BitVec.setWidth_setWidth_of_le b (by decide)).trans (BitVec.setWidth_eq b)
  rw [hb] at h
  unfold ArithCommand.Runs Post at h
  cases hcall : c.call S (alInsn b) s with
  | error e t =>
    rw [hcall] at h
    obtain ⟨-, x, size, -, -, hmemory, -⟩ := h
    cases hmemory
  | ok _ t =>
    rw [hcall] at h
    have hstored := ((h.stores hc).1 (.r8 0) rfl).1
    refine ⟨t, rfl, ?_, h.flags⟩
    unfold Proc.al
    rw [hstored]
    exact (BitVec.setWidth_setWidth_of_le _ (by decide)).trans (BitVec.setWidth_eq _)

/-- CF as a number. -/
def Proc.carry (s : Proc μ) : Nat := (queryFlag s.flags flagCF).toNat

theorem decimalStep_adc (s : Proc μ) (a b : PackedByte) :
    ∃ t, ∃ r : PackedByte, decimalStep S .adc callDaa a.byte b.byte s = .ok r.byte t ∧
      r.value + 100 * t.carry = a.value + b.value + s.carry := by
  obtain ⟨u, hmov, hal, hcf⟩ := callMov_al S s a.byte
  obtain ⟨v, hadc, hal', hflags⟩ :=
    arith_al S rfl (ArithCommand.runs_adc (S := S) (s := u) (hasDest_alInsn b.byte) rfl rfl)
  obtain ⟨t, hdaa, hal'', hcf''⟩ := callDaa_spec v
  rw [hal] at hal' hflags
  obtain ⟨r, hr, hvalue⟩ := daa_sum a b (queryFlag u.flags flagCF) hal' hflags
  refine ⟨t, r, ?_, ?_⟩
  · unfold decimalStep
    rw [bind_of_ok hmov, bind_of_ok hadc, bind_of_ok hdaa, hr, ← hal'']
    rfl
  · unfold Proc.carry
    rw [hcf'', ← hcf]
    exact hvalue

theorem decimalStep_sbb (s : Proc μ) (a b : PackedByte) :
    ∃ t, ∃ r : PackedByte, decimalStep S .sbb callDas a.byte b.byte s = .ok r.byte t ∧
      r.value + b.value + s.carry = a.value + 100 * t.carry := by
  obtain ⟨u, hmov, hal, hcf⟩ := callMov_al S s a.byte
  obtain ⟨v, hsbb, hal', hflags⟩ :=
    arith_al S rfl (ArithCommand.runs_sbb (S := S) (s := u) (hasDest_alInsn b.byte) rfl rfl)
  obtain ⟨t, hdas, hal'', hcf''⟩ := callDas_spec v
  rw [hal] at hal' hflags
  obtain ⟨r, hr, hvalue⟩ := das_diff a b (queryFlag u.flags flagCF) hal' hflags
  refine ⟨t, r, ?_, ?_⟩
  · unfold decimalStep
    rw [bind_of_ok hmov, bind_of_ok hsbb, bind_of_ok hdas, hr, ← hal'']
    rfl
  · unfold Proc.carry
    rw [hcf'', ← hcf]
    exact hvalue

/-- Bytes that are added (`e = 1`) or subtracted (`e = -1`) with the carry make numbers that are. -/
theorem decimalRun_value (e : Int) {c : ArithCommand} {adjust : Exec μ Unit}
    (hstep : ∀ (s : Proc μ) (a b : PackedByte), ∃ t, ∃ r : PackedByte,
      decimalStep S c adjust a.byte b.byte s = .ok r.byte t ∧
      (r.value : Int) + e * (100 * t.carry) = a.value + e * (b.value + s.carry))
    (s : Proc μ) (ps : List (PackedByte × PackedByte)) :
    ∃ t, ∃ rs : List PackedByte,
      decimalRun S c adjust (ps.map fun p => (p.1.byte, p.2.byte)) s = .ok
      (rs.map PackedByte.byte) t ∧
        rs.length = ps.length ∧
        (decimalValue rs : Int) + e * (100 ^ ps.length * t.carry) =
          decimalValue (ps.map Prod.fst) + e * (decimalValue (ps.map Prod.snd) + s.carry) := by
  induction ps generalizing s with
  | nil =>
    refine ⟨s, [], rfl, rfl, ?_⟩
    simp [decimalValue]
  | cons p ps ih =>
    obtain ⟨u, r, hfirst, hbyte⟩ := hstep s p.1 p.2
    obtain ⟨t, rs, hrest, hlength, hvalue⟩ := ih u
    refine ⟨t, r :: rs, ?_, congrArg (· + 1) hlength, ?_⟩
    · rw [List.map_cons, decimalRun, bind_of_ok hfirst, bind_of_ok hrest]
      rfl
    · simp only [decimalValue, List.map_cons, List.length_cons, Nat.cast_add, Nat.cast_mul,
        Nat.cast_ofNat]
      linear_combination hbyte + 100 * hvalue

/-- `adc` and `daa` byte by byte add two decimal numbers of any length; the carry out is in CF. -/
theorem addDecimal_sum (s : Proc μ) (ps : List (PackedByte × PackedByte)) :
    ∃ t, ∃ rs : List PackedByte, addDecimal S ps s = .ok (rs.map PackedByte.byte) t ∧
    rs.length = ps.length ∧
      decimalValue rs + 100 ^ ps.length * t.carry =
        decimalValue (ps.map Prod.fst) + decimalValue (ps.map Prod.snd) + s.carry := by
  have hstep : ∀ (s : Proc μ) (a b : PackedByte), ∃ t, ∃ r : PackedByte,
      decimalStep S .adc callDaa a.byte b.byte s = .ok r.byte t ∧
        (r.value : Int) + 1 * (100 * t.carry) = a.value + 1 * (b.value + s.carry) := by
    intro s a b
    obtain ⟨t, r, hrun, hvalue⟩ := decimalStep_adc S s a b
    exact ⟨t, r, hrun, by omega⟩
  obtain ⟨t, rs, hrun, hlength, hvalue⟩ := decimalRun_value S 1 hstep s ps
  refine ⟨t, rs, hrun, hlength, ?_⟩
  have hnat : ((decimalValue rs + 100 ^ ps.length * t.carry : Nat) : Int) =
      (decimalValue (ps.map Prod.fst) + decimalValue (ps.map Prod.snd) + s.carry : Nat) := by
    push_cast
    linear_combination hvalue
  exact Int.ofNat_inj.1 hnat

/-- `sbb` and `das` byte by byte subtract; the borrow is in CF. -/
theorem subDecimal_diff (s : Proc μ) (ps : List (PackedByte × PackedByte)) :
    ∃ t, ∃ rs : List PackedByte, subDecimal S ps s = .ok (rs.map PackedByte.byte) t ∧
    rs.length = ps.length ∧
      decimalValue rs + decimalValue (ps.map Prod.snd) + s.carry =
        decimalValue (ps.map Prod.fst) + 100 ^ ps.length * t.carry := by
  have hstep : ∀ (s : Proc μ) (a b : PackedByte), ∃ t, ∃ r : PackedByte,
      decimalStep S .sbb callDas a.byte b.byte s = .ok r.byte t ∧
        (r.value : Int) + -1 * (100 * t.carry) = a.value + -1 * (b.value + s.carry) := by
    intro s a b
    obtain ⟨t, r, hrun, hvalue⟩ := decimalStep_sbb S s a b
    exact ⟨t, r, hrun, by omega⟩
  obtain ⟨t, rs, hrun, hlength, hvalue⟩ := decimalRun_value S (-1) hstep s ps
  refine ⟨t, rs, hrun, hlength, ?_⟩
  have hnat : ((decimalValue rs + decimalValue (ps.map Prod.snd) + s.carry : Nat) : Int) =
      (decimalValue (ps.map Prod.fst) + 100 ^ ps.length * t.carry : Nat) := by
    push_cast
    linear_combination hvalue
  exact Int.ofNat_inj.1 hnat

end Diana.Processor
