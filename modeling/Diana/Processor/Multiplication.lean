import Diana.Processor.Division
import Diana.Processor.Stack

/-!
# Multiplication

The product of two words as two words, from four partial products with carries in between,
and the commands on it.

* `mul64_spec`, `imul64_spec`: the two words are the product;
* `Multiplies`, `MultipliesInto`: what the architecture asks of a multiplication, with one
  operand and with more;
* `multiplications_exact`: all of them, together with the divisions of two words.
-/

namespace Diana.Processor

open Diana.Lib

/-! ## Two words -/

theorem join_lt (low high : Value) : join low high < 2 ^ 128 := by
  have hl := low.isLt
  have hh := high.isLt
  unfold join
  omega

/-- The sum of two pairs of words, as far as two words hold it. -/
theorem join_add128 (low high a b : Value) :
    join (add128 low high a b).1
    (add128 low high a b).2 = (join low high + join a b) % 2 ^ 128 := by
  have hl := low.isLt
  have hh := high.isLt
  have ha := a.isLt
  have hb := b.isLt
  have hsum : (low + a).toNat = (low.toNat + a.toNat) % 2 ^ 64 := BitVec.toNat_add low a
  unfold add128 join
  dsimp only
  by_cases hcarry : low + a < a
  · have hlt : (low + a).toNat < a.toNat := hcarry
    have hone : (high + 1).toNat = (high.toNat + 1) % 2 ^ 64 := BitVec.toNat_add high 1
    rw [if_pos hcarry, BitVec.toNat_add, hone, hsum]
    omega
  · have hge : ¬ (low + a).toNat < a.toNat := hcarry
    rw [if_neg hcarry, BitVec.toNat_add, hsum]
    omega

/-- A word moved half a word up. -/
theorem join_half (v : Value) : join (v <<< 32) (v >>> 32) = v.toNat * 2 ^ 32 := by
  have hv := v.isLt
  unfold join
  rw [BitVec.toNat_shiftLeft, BitVec.toNat_ushiftRight, Nat.shiftLeft_eq, Nat.shiftRight_eq_div_pow]
  omega

theorem join_add_high (low high v : Value) :
    join low (high + v) = (join low high + v.toNat * 2 ^ 64) % 2 ^ 128 := by
  have hl := low.isLt
  have hh := high.isLt
  have hv := v.isLt
  unfold join
  rw [BitVec.toNat_add]
  omega

/-- The product of two half words. -/
theorem toNat_mul_of_lt {a b : Value} (ha : a.toNat < 2 ^ 32) (hb : b.toNat < 2 ^ 32) :
    (a * b).toNat = a.toNat * b.toNat := by
  have hlt : a.toNat * b.toNat < 2 ^ 32 * 2 ^ 32 := Nat.mul_lt_mul'' ha hb
  rw [BitVec.toNat_mul, Nat.mod_eq_of_lt (by omega)]

theorem mul64_spec (a b : Value) : join (mul64 a b).1 (mul64 a b).2 = a.toNat * b.toNat := by
  have ha := a.isLt
  have hb := b.isLt
  have hlow : ∀ v : Value, (cutValue v .dword).toNat = v.toNat % 2 ^ 32 := fun v => by
    rw [toNat_cutValue, Size.low, BitVec.toNat_setWidth]
    rfl
  have hhigh : ∀ v : Value, (v >>> 32).toNat = v.toNat / 2 ^ 32 := fun v => by
    rw [BitVec.toNat_ushiftRight, Nat.shiftRight_eq_div_pow]
  have h00 : (cutValue a .dword * cutValue b .dword).toNat =
      a.toNat % 2 ^ 32 * (b.toNat % 2 ^ 32) := by
    rw [toNat_mul_of_lt (by rw [hlow]; omega) (by rw [hlow]; omega), hlow, hlow]
  have h01 : (cutValue a .dword * (b >>> 32)).toNat = a.toNat % 2 ^ 32 * (b.toNat / 2 ^ 32) := by
    rw [toNat_mul_of_lt (by rw [hlow]; omega) (by rw [hhigh]; omega), hlow, hhigh]
  have h10 : ((a >>> 32) * cutValue b .dword).toNat = a.toNat / 2 ^ 32 * (b.toNat % 2 ^ 32) := by
    rw [toNat_mul_of_lt (by rw [hhigh]; omega) (by rw [hlow]; omega), hlow, hhigh]
  have h11 : ((a >>> 32) * (b >>> 32)).toNat = a.toNat / 2 ^ 32 * (b.toNat / 2 ^ 32) := by
    rw [toNat_mul_of_lt (by rw [hhigh]; omega) (by rw [hhigh]; omega), hhigh, hhigh]
  have hstart : join (cutValue a .dword * cutValue b .dword) 0 =
      a.toNat % 2 ^ 32 * (b.toNat % 2 ^ 32) := by
    unfold join
    rw [h00]
    exact Nat.zero_add _
  have hlt : a.toNat * b.toNat < 2 ^ 64 * 2 ^ 64 := Nat.mul_lt_mul'' ha hb
  have hsplit : a.toNat * b.toNat =
      a.toNat % 2 ^ 32 * (b.toNat % 2 ^ 32) + a.toNat % 2 ^ 32 * (b.toNat / 2 ^ 32) * 2 ^ 32 +
        a.toNat / 2 ^ 32 * (b.toNat % 2 ^ 32) * 2 ^ 32 + a.toNat / 2 ^ 32 * (b.toNat / 2 ^ 32) *
        2 ^ 64 := by
    conv_lhs => rw [← Nat.mod_add_div a.toNat (2 ^ 32), ← Nat.mod_add_div b.toNat (2 ^ 32)]
    ring
  unfold mul64
  dsimp only
  have hmod : ∀ p q r s : Nat, p + q + r + s < 2 ^ 128 →
      (((p + q) % 2 ^ 128 + r) % 2 ^ 128 + s) % 2 ^ 128 = p + q + r + s := by
    intro p q r s h
    omega
  rw [join_add_high, join_add128, join_add128, hstart, join_half, join_half, h01, h10, h11,
    hmod _ _ _ _ (by rw [← hsplit]; omega), hsplit]

/-- The two words of a signed number. -/
theorem signedJoin_eq {low high : Value} {x : Int}
    (h : ((join low high : Nat) : Int) % 2 ^ 128 = x % 2 ^ 128) (hlow : -2 ^ 127 ≤ x)
    (hhigh : x < 2 ^ 127) : signedJoin low high = x := by
  have hj := join_lt low high
  unfold signedJoin
  rw [BitVec.toInt_eq_toNat_cond, BitVec.toNat_ofNat, Nat.mod_eq_of_lt hj]
  split <;> omega

/-- The two words negated, of every sign. -/
theorem join_neg128_mod (low high : Value) :
    join (neg128 low high).1 (neg128 low high).2 = (2 ^ 128 - join low high) % 2 ^ 128 := by
  have hl := low.isLt
  have hh := high.isLt
  have hnl : (~~~low).toNat = 2 ^ 64 - 1 - low.toNat := BitVec.toNat_not
  have hnh : (~~~high).toNat = 2 ^ 64 - 1 - high.toNat := BitVec.toNat_not
  have hone : join 1 0 = 1 := rfl
  unfold neg128
  rw [join_add128, hone]
  unfold join
  rw [hnl, hnh]
  omega

theorem imul64_spec (a b : Value) :
    signedJoin (imul64 a b).1 (imul64 a b).2 = a.toInt * b.toInt := by
  obtain ⟨haabs, hsa⟩ := magnitude a
  obtain ⟨hbabs, hsb⟩ := magnitude b
  have hboundA : a.toInt.natAbs ≤ 2 ^ 63 := by
    have h1 := a.toInt_lt
    have h2 := a.le_toInt
    omega
  have hboundB : b.toInt.natAbs ≤ 2 ^ 63 := by
    have h1 := b.toInt_lt
    have h2 := b.le_toInt
    omega
  have hprod := mul64_spec (if a.msb then -a else a) (if b.msb then -b else b)
  rw [haabs, hbabs, ← Int.natAbs_mul] at hprod
  have hbound : (a.toInt * b.toInt).natAbs ≤ 2 ^ 63 * 2 ^ 63 := by
    rw [Int.natAbs_mul]
    exact Nat.mul_le_mul hboundA hboundB
  unfold imul64
  dsimp only
  by_cases hsign : a.msb = b.msb
  · have hnonneg : 0 ≤ a.toInt * b.toInt := by
      rw [hsa, hsb, decide_eq_decide] at hsign
      by_cases h : a.toInt < 0
      · exact Int.mul_nonneg_of_nonpos_of_nonpos (by omega) (by omega)
      · exact Int.mul_nonneg (by omega) (by omega)
    rw [if_neg (by simp [hsign])]
    refine signedJoin_eq ?_ (by omega) (by omega)
    rw [hprod]
    omega
  · have hnonpos : a.toInt * b.toInt ≤ 0 := by
      rw [hsa, hsb, decide_eq_decide] at hsign
      by_cases h : a.toInt < 0
      · exact Int.mul_nonpos_of_nonpos_of_nonneg (by omega) (by omega)
      · exact Int.mul_nonpos_of_nonneg_of_nonpos (by omega) (by omega)
    rw [if_pos (by simpa using hsign)]
    refine signedJoin_eq ?_ (by omega) (by omega)
    rw [join_neg128_mod, hprod]
    omega

/-! ## Parts of numbers -/

/-- A word is its own lower part with the sign where its value is a signed number of the size. -/
theorem signedPart_eq_iff (size : Size) (r : Value) :
    signedPart r size = r ↔ -2 ^ (size.bits - 1) ≤ r.toInt ∧ r.toInt < 2 ^ (size.bits - 1) := by
  constructor
  · intro h
    have hlow : (size.low r).toInt = r.toInt := by rw [← toInt_signedPart, h]
    rw [← hlow]
    exact ⟨BitVec.le_toInt _, BitVec.toInt_lt⟩
  · intro h
    apply BitVec.eq_of_toInt_eq
    rw [toInt_signedPart, toInt_low_of_fits h]

/-- The product of two signed numbers of a size. -/
theorem product_fits (size : Size) (x y : BitVec size.bits) {n : Nat}
    (hn : size.bits + size.bits ≤ n) : DivCommand.idiv.Fits n (x.toInt * y.toInt) := by
  have hpos := size.bits_pos
  have hle : (2 : Int) ^ (size.bits * 2 - 2) < 2 ^ (n - 1) := by
    apply Int.pow_lt_pow_of_lt (by decide)
    omega
  have hlow := BitVec.le_toInt_mul_toInt (x := x) (y := y)
  have hhigh := BitVec.toInt_mul_toInt_le (x := x) (y := y)
  exact ⟨by omega, by omega⟩

theorem toInt_product {size : Size} (hsize : size ≠ .qword) (a b : Value) :
    (signedPart a size * signedPart b size).toInt = (size.low a).toInt * (size.low b).toInt := by
  have hbits : size.bits + size.bits ≤ 64 := by
    cases size <;> first | exact absurd rfl hsize | decide
  obtain ⟨hlow, hhigh⟩ := product_fits size (size.low a) (size.low b) hbits
  rw [BitVec.toInt_mul, toInt_signedPart, toInt_signedPart]
  exact Int.bmod_eq_of_le_mul_two (by omega) (by omega)

theorem signedJoin_cond (low high : Value) :
    signedJoin low high =
      if 2 * join low high < 2 ^ 128 then (join low high : Int)
      else (join low high : Int) - 2 ^ 128 := by
  have hj := join_lt low high
  unfold signedJoin
  rw [BitVec.toInt_eq_toNat_cond, BitVec.toNat_ofNat, Nat.mod_eq_of_lt hj]
  split <;> omega

/-- The sign of a word in every bit. -/
theorem toInt_sign (v : Value) : (v.sshiftRight 63).toInt = if v.toInt < 0 then -1 else 0 := by
  have h1 := v.toInt_lt
  have h2 := v.le_toInt
  rw [BitVec.toInt_sshiftRight, Int.shiftRight_eq_div_pow]
  push_cast
  omega

/-- The high word tells that the product is longer than a word. -/
theorem high_ne_sign_iff (q h : Value) :
    (h != q.sshiftRight 63) = true ↔ ¬ (-2 ^ 63 ≤ signedJoin q h ∧ signedJoin q h < 2 ^ 63) := by
  have hq := q.isLt
  have hh := h.isLt
  have hqi := BitVec.toInt_eq_toNat_cond q
  have hhi := BitVec.toInt_eq_toNat_cond h
  have hji := signedJoin_cond q h
  have hjoin : join q h = h.toNat * 2 ^ 64 + q.toNat := rfl
  rw [bne_iff_ne, Ne, ← BitVec.toInt_inj, toInt_sign]
  omega

/-! ## What a multiplication is to do -/

variable {μ : Type}

inductive MulCommand where
  | mul | imul
  deriving DecidableEq, Repr

namespace MulCommand

def call (S : MemoryStream μ) (I : Insn) : MulCommand → Exec μ Unit
  | mul => callMul S I
  | imul => callImul S I

def number {n : Nat} (c : MulCommand) (v : BitVec n) : Int :=
  match c with
  | mul => v.toNat
  | imul => v.toInt

/-- The number needs no more than its `n` low bits. -/
def Fits (c : MulCommand) (n : Nat) (x : Int) : Prop :=
  match c with
  | mul => 0 ≤ x ∧ x < 2 ^ n
  | imul => -2 ^ (n - 1) ≤ x ∧ x < 2 ^ (n - 1)

end MulCommand

/-- CF and OF tell that the high half of `x` is significant. -/
def MarksHigh (c : MulCommand) (n : Nat) (x : Int) (flags : Value) : Prop :=
  ((statusOf flags).cf = true ↔ ¬ c.Fits n x) ∧ ((statusOf flags).of = true ↔ ¬ c.Fits n x)

/-- With one operand: the register pair holds the product. -/
def Multiplies (c : MulCommand) (S : MemoryStream μ) (I : Insn) (s : Proc μ) (v : Value) : Prop :=
  ∃ t x, c.call S I s = .ok () t ∧
    x = c.number (I.firstSize.low (s.getValue I.firstSize.quotientReg)) * c.number
    (I.firstSize.low v) ∧
    c.number (t.dividend I.firstSize) = x ∧ MarksHigh c I.firstSize.bits x t.flags

/-- With more: the first operand takes the low half of the product `x`. -/
def MultipliesInto (S : MemoryStream μ) (I : Insn) (s : Proc μ) (x : Int) : Prop :=
  Post (callImul S I) s
    (fun _ t => Stores S I s t ((BitVec.ofInt I.firstSize.bits x).setWidth 64) ∧
      MarksHigh .imul I.firstSize.bits x t.flags)
    (fun _ t => Refused S I s t ((BitVec.ofInt I.firstSize.bits x).setWidth 64))

/-! ## Flags and registers -/

section

variable {S : MemoryStream μ} {I : Insn} {s : Proc μ}

/-- Clear CF and OF. -/
def clearCFOF (flags : Value) : Value := clearFlag (clearFlag flags flagCF) flagOF

def withCFOF (flags : Value) (c : Bool) :
    Value := if c then setFlag (setFlag flags flagCF) flagOF else flags

theorem statusOf_withCFOF (f : Value) (c : Bool) :
    (statusOf (withCFOF (clearCFOF f) c)).cf = c ∧
    (statusOf (withCFOF (clearCFOF f) c)).of = c := by
  obtain ⟨h0, h2, h4, h6, h7, h11⟩ := flags_twoPow
  cases c <;>
    simp [withCFOF, clearCFOF, statusOf, h0, h11, queryFlag_setFlag, queryFlag_clearFlag]

theorem marksHigh_of {c : MulCommand} {n : Nat} {x : Int} {f : Value} {b : Bool}
    (h : b = true ↔ ¬ c.Fits n x) : MarksHigh c n x (withCFOF (clearCFOF f) b) := by
  obtain ⟨hcf, hof⟩ := statusOf_withCFOF f b
  unfold MarksHigh
  rw [hcf, hof]
  exact ⟨h, h⟩

theorem setResult_flags (h : s.Idle) (size : Size) (q r : Value) :
    (s.setResult size q r).flags = s.flags :=
  ((h.setValue _ _).1.setValue _ _).2.trans (h.setValue _ _).2

/-- The register pair after both halves were written. -/
theorem dividend_setResult {size : Size} (hsize : size ≠ .byte) (s : Proc μ) (q r : Value) :
    (s.setResult size q r).dividend size =
      BitVec.ofNat (2 * size.bits) ((size.low r).toNat * 2 ^ size.bits + (size.low q).toNat) := by
  have hq := low_quotient s size q r
  have hr := low_remainder s size q r
  have hqsize : size.quotientReg.size = size := by cases size <;> rfl
  have hrsize : size.remainderReg.size = size := by cases size <;> rfl
  have hqnat := toNat_getValue_lt (s.setResult size q r) size.quotientReg
  have hrnat := toNat_getValue_lt (s.setResult size q r) size.remainderReg
  rw [hqsize] at hqnat
  rw [hrsize] at hrnat
  rw [← hq, ← hr, toNat_low_of_lt hqnat, toNat_low_of_lt hrnat]
  unfold Proc.dividend
  cases size with
  | byte => exact absurd rfl hsize
  | _ => rfl

theorem dividend_byte (s : Proc μ) (r : Value) :
    (s.setValue (.r16 0) r).dividend .byte = BitVec.ofNat 16 (Size.word.low r).toNat := by
  unfold Proc.dividend
  dsimp only
  rw [getValue_setValue, toNat_cutValue]
  rfl

theorem getIndex_flags {size : Size} {x : RmIndex} {v : Value} {t : Proc μ} (f : Value)
    (h : getIndex S I size x s = .ok v t) :
    getIndex S I size x { s with flags := f } = .ok v { s with flags := f } := by
  unfold getIndex at h ⊢
  cases hc : s.calcIndex I x with
  | error e =>
    rw [bind_of_error (calcIndexM_of_error I hc)] at h
    cases h
  | ok a =>
    have hc' : Proc.calcIndex { s with flags := f } I x = .ok a := hc
    rw [bind_of_ok (calcIndexM_of_ok I hc)] at h
    rw [bind_of_ok (calcIndexM_of_ok I hc')]
    unfold getMemValue at h ⊢
    dsimp only at h ⊢
    rw [get_bind] at h ⊢
    have hread : Proc.readMem S { s with flags := f } a.1 a.2 size x.segReg =
        s.readMem S a.1 a.2 size x.segReg := rfl
    rw [hread]
    generalize s.readMem S a.1 a.2 size x.segReg = r at h ⊢
    obtain ⟨w, _ | e⟩ := r
    · cases h
      rfl
    · cases h

/-- Operands do not depend on the flags. -/
theorem getOperand_flags {n : Nat} {p : Value × Size} {t : Proc μ} (f : Value)
    (h : getOperand S I n s = .ok p t) :
    getOperand S I n { s with flags := f } = .ok p { s with flags := f } := by
  have hindex : ∀ (size : Size) (x : RmIndex),
      (getIndex S I size x >>= fun v => pure (v, size)) s = .ok p t →
        (getIndex S I size x >>= fun v => pure (v, size)) { s with flags := f } =
        .ok p { s with flags := f } := by
    intro size x h
    cases hg : getIndex S I size x s with
    | error e u =>
      rw [bind_of_error hg] at h
      cases h
    | ok v u =>
      rw [bind_of_ok hg] at h
      cases h
      exact bind_of_ok (getIndex_flags f hg)
  unfold getOperand at h ⊢
  cases hop : I.operands[n]? with
  | none =>
    rw [hop] at h
    cases h
  | some op =>
    rw [hop] at h
    obtain ⟨value, usedSize, usedAddressSize⟩ := op
    cases value with
    | register r =>
      cases h
      rfl
    | index x => exact hindex usedSize x h
    | imm v =>
      cases h
      rfl
    | memory x => exact hindex usedSize x h
    | _ => cases h

end

/-! ## One operand -/

section

variable {S : MemoryStream μ} {I : Insn} {s : Proc μ} {c : MulCommand} {v q h : Value}
  {b : Bool} {x : Int}

/-- A multiplication that ends in a register pair. -/
theorem multiplies_of_setResult {size : Size} (hs : s.Idle) (hfirst : I.firstSize = size)
    (hsize : size ≠ .byte) (hrun : c.call S I s =
      .ok () ({ s with flags := withCFOF (clearCFOF s.flags) b }.setResult size q h))
    (hx : c.number (size.low (s.getValue size.quotientReg)) * c.number (size.low v) = x)
    (hval : c.number (BitVec.ofNat (2 * size.bits)
      ((size.low h).toNat * 2 ^ size.bits + (size.low q).toNat)) = x)
    (hb : b = true ↔ ¬ c.Fits size.bits x) : Multiplies c S I s v := by
  have hidle : Proc.Idle { s with flags := withCFOF (clearCFOF s.flags) b } := hs
  subst hfirst
  refine ⟨_, x, hrun, hx.symm, ?_, ?_⟩
  · rw [dividend_setResult hsize]
    exact hval
  · rw [setResult_flags hidle]
    exact marksHigh_of hb

/-- A multiplication that ends in AX. -/
theorem multiplies_of_byte (hs : s.Idle) (hfirst : I.firstSize = .byte)
    (hrun : c.call S I s = .ok ()
      ({ s with flags := withCFOF (clearCFOF s.flags) b }.setValue (.r16 0) q))
    (hx : c.number (Size.byte.low (s.getValue (.r8 0))) * c.number (Size.byte.low v) = x)
    (hval : c.number (Size.word.low q) = x) (hb : b = true ↔ ¬ c.Fits 8 x) :
    Multiplies c S I s v := by
  have hidle : Proc.Idle { s with flags := withCFOF (clearCFOF s.flags) b } := hs
  refine ⟨_, x, hrun, ?_, ?_, ?_⟩
  · rw [hfirst]
    exact hx.symm
  · rw [hfirst, dividend_byte]
    exact (congrArg c.number ((BitVec.ofNat_toNat 16 (q.setWidth 16)).trans
      (BitVec.setWidth_eq _))).trans hval
  · rw [hfirst, (hidle.setValue _ _).2]
    exact marksHigh_of hb

/-- The high part of an unsigned product tells that it is longer than the size. -/
theorem high_ne_zero_iff (n : Nat) {r : Value} {x : Int} (hr : (r.toNat : Int) = x) :
    (r >>> n != 0) = true ↔ ¬ MulCommand.mul.Fits n x := by
  have hzero : r >>> n = 0 ↔ r.toNat < 2 ^ n := by
    rw [← BitVec.toNat_inj, BitVec.toNat_ushiftRight, Nat.shiftRight_eq_div_pow]
    exact Nat.div_eq_zero_iff.trans (or_iff_right (Nat.two_pow_pos n).ne')
  have hcast : ((2 ^ n : Nat) : Int) = 2 ^ n := by push_cast; rfl
  unfold MulCommand.Fits
  rw [bne_iff_ne, Ne, hzero, ← hr, ← hcast]
  omega

/-- The halves of a product in one word. -/
theorem join_halves (n : Nat) (r : Value) :
    BitVec.ofNat (2 * n) (((r >>> n).setWidth n).toNat * 2 ^ n + (r.setWidth n).toNat) = r.setWidth
    (2 * n) := by
  have hpow : 2 ^ (2 * n) = 2 ^ n * 2 ^ n := by rw [Nat.two_mul, Nat.pow_add]
  have hsplit : r.toNat % 2 ^ (2 * n) = r.toNat / 2 ^ n % 2 ^ n * 2 ^ n + r.toNat % 2 ^ n := by
    rw [hpow, Nat.mod_mul, Nat.add_comm, Nat.mul_comm]
  apply BitVec.eq_of_toNat_eq
  rw [BitVec.toNat_ofNat, BitVec.toNat_setWidth, BitVec.toNat_setWidth, BitVec.toNat_ushiftRight,
    Nat.shiftRight_eq_div_pow, BitVec.toNat_setWidth, ← hsplit, Nat.mod_mod]

/-- The halves of a signed product in one word. -/
theorem join_signed_halves {n : Nat} (hn : n + n ≤ 64) (r : Value) :
    BitVec.ofNat (2 * n) (((r.sshiftRight n).setWidth n).toNat * 2 ^ n + (r.setWidth n).toNat) =
      r.setWidth (2 * n) := by
  have hhigh : (r.sshiftRight n).setWidth n = (r >>> n).setWidth n := by
    apply BitVec.eq_of_getLsbD_eq
    intro i hi
    have hsum : n + i < 64 := by omega
    have h64 : ¬ 64 ≤ i := by omega
    simp [BitVec.getLsbD_sshiftRight, BitVec.getLsbD_ushiftRight, hsum, h64]
  rw [hhigh, join_halves]

/-- The halves of a product in two words. -/
theorem number_words (c : MulCommand) (q h : Value) :
    c.number (BitVec.ofNat (2 * Size.qword.bits)
      ((Size.qword.low h).toNat * 2 ^ Size.qword.bits + (Size.qword.low q).toNat)) =
        c.number (BitVec.ofNat 128 (join q h)) := by
  have hlow : ∀ w : Value, (Size.qword.low w).toNat = w.toNat := fun w => toNat_low_of_lt w.isLt
  rw [hlow, hlow]
  rfl

section

variable (hI : I.HasDest) (hs : s.Idle) (hread : getOperand S I 0 s = .ok (v, I.firstSize) s)

include hI hs hread

theorem callMul_multiplies : Multiplies .mul S I s v := by
  obtain ⟨-, hcut⟩ := getOperand_dest hI hread
  obtain ⟨size, hfirst⟩ : ∃ size, I.firstSize = size := ⟨_, rfl⟩
  rw [hfirst] at hread hcut
  have hv : (size.low v).toNat = v.toNat := by rw [← toNat_cutValue, hcut]
  have hvlt : v.toNat < 2 ^ size.bits := by rw [← hv]; exact (size.low v).isLt
  have hlow := toNat_getValue_lt s size.quotientReg
  have hqsize : size.quotientReg.size = size := by cases size <;> rfl
  rw [hqsize] at hlow
  have hxeq : MulCommand.mul.number (size.low (s.getValue size.quotientReg)) * MulCommand.mul.number
    (size.low v) =
        (((s.getValue size.quotientReg).toNat * v.toNat : Nat) : Int) := by
    unfold MulCommand.number
    dsimp only
    rw [toNat_low_of_lt hlow, hv, Nat.cast_mul]
  have hlt := Nat.mul_lt_mul'' hlow hvlt
  -- the product in one word, of which the low part is kept
  have hprod : ∀ n, size.bits + size.bits ≤ n → n ≤ 64 →
      ((s.getValue size.quotientReg * v).setWidth n).toNat =
      (s.getValue size.quotientReg).toNat * v.toNat := by
    intro n hn hn64
    have hlt' := hlt
    rw [← Nat.pow_add] at hlt'
    have hlt64 := hlt'.trans_le (Nat.pow_le_pow_right (by decide) (hn.trans hn64))
    rw [BitVec.toNat_setWidth, BitVec.toNat_mul, Nat.mod_eq_of_lt hlt64,
      Nat.mod_eq_of_lt (hlt'.trans_le (Nat.pow_le_pow_right (by decide) hn))]
  -- the product in a pair of halves
  have hpair : size ≠ .byte → ∀ r : Value, r.toNat = (s.getValue size.quotientReg).toNat * v.toNat →
      callMul S I s = .ok () ({ s with
        flags := withCFOF (clearCFOF s.flags) (r >>> size.bits != 0) }.setResult size
        (cutValue r size) (r >>> size.bits)) → Multiplies .mul S I s v := by
    intro hbyte r hnat hrun
    refine multiplies_of_setResult hs hfirst hbyte hrun hxeq ?_
      (high_ne_zero_iff size.bits (congrArg _ hnat))
    have hmod : r.toNat < 2 ^ (2 * size.bits) := by rw [hnat, Nat.two_mul, Nat.pow_add]; exact hlt
    rw [low_cutValue]
    unfold MulCommand.number Size.low
    dsimp only
    rw [join_halves, BitVec.toNat_setWidth, Nat.mod_eq_of_lt hmod, hnat]
  cases size with
  | qword =>
    have hj := mul64_spec (s.getValue (.r64 0)) v
    have hrun : MulCommand.mul.call S I s = .ok ()
        ({ s with
          flags := withCFOF (clearCFOF s.flags) ((mul64 (s.getValue (.r64 0)) v).2 != 0) }.setResult
          .qword (mul64 (s.getValue (.r64 0)) v).1 (mul64 (s.getValue (.r64 0)) v).2) := by
      change callMul S I s = _
      unfold callMul
      rw [bind_of_ok hread, hfirst]
      rfl
    generalize mul64 (s.getValue (.r64 0)) v = p at hj hrun
    obtain ⟨q, h⟩ := p
    refine multiplies_of_setResult hs hfirst (by decide) hrun hxeq ?_ ?_
    · have hnat : (BitVec.ofNat 128 (join q h)).toNat = join q h := by
        rw [BitVec.toNat_ofNat, Nat.mod_eq_of_lt (join_lt q h)]
      rw [number_words]
      exact congrArg Nat.cast (hnat.trans hj)
    · have hq := q.isLt
      have hzero : h = 0 ↔ h.toNat = 0 := ⟨fun e => e ▸ rfl, fun e => BitVec.eq_of_toNat_eq e⟩
      have hjoin : join q h = h.toNat * 2 ^ 64 + q.toNat := rfl
      have hbits : Size.qword.bits = 64 := rfl
      have hreg : Size.qword.quotientReg = .r64 0 := rfl
      rw [hjoin] at hj
      unfold MulCommand.Fits
      dsimp only
      rw [bne_iff_ne, Ne, hzero, hreg, hbits, ← hj]
      omega
  | dword =>
    refine hpair (by decide) (s.getValue (.r32 0) * v)
      ((congrArg _ (BitVec.setWidth_eq _).symm).trans (hprod 64 (by decide) (by decide))) ?_
    unfold callMul
    rw [bind_of_ok hread, hfirst]
    rfl
  | word =>
    refine hpair (by decide) (cutValue (s.getValue (.r16 0) * v) .dword)
      ((toNat_cutValue _ _).trans (hprod 32 (by decide) (by decide))) ?_
    unfold callMul
    rw [bind_of_ok hread, hfirst]
    rfl
  | byte =>
    have hword : cutValue v .word = v := by
      apply BitVec.eq_of_toNat_eq
      rw [toNat_cutValue, toNat_low_of_lt (hvlt.trans (by decide))]
    have hnat : (cutValue (s.getValue (.r8 0) * v) .word).toNat =
        (s.getValue (.r8 0)).toNat * v.toNat :=
      (toNat_cutValue _ _).trans (hprod 16 (by decide) (by decide))
    have hrun : MulCommand.mul.call S I s = .ok ()
        ({ s with
          flags := withCFOF (clearCFOF s.flags)
            (cutValue (s.getValue (.r8 0) * v) .word >>> 8 != 0) }.setValue
          (.r16 0) (cutValue (s.getValue (.r8 0) * v) .word)) := by
      change callMul S I s = _
      unfold callMul
      rw [bind_of_ok hread, hfirst]
      dsimp only
      rw [hword]
      rfl
    refine multiplies_of_byte hs hfirst hrun hxeq ?_ (high_ne_zero_iff 8 (congrArg _ hnat))
    rw [low_cutValue]
    exact congrArg Nat.cast ((toNat_cutValue _ .word).symm.trans hnat)

omit hI in
theorem callImul_multiplies (hone : I.operands.length = 1) : Multiplies .imul S I s v := by
  obtain ⟨size, hfirst⟩ : ∃ size, I.firstSize = size := ⟨_, rfl⟩
  have hread' := getOperand_flags (clearCFOF s.flags) hread
  rw [hfirst] at hread'
  have hstart : callImul S I s = callImul1 S I { s with flags := clearCFOF s.flags } := by
    unfold callImul
    rw [hone]
    rfl
  -- the product in one word
  have hprod : ∀ n, size.bits + size.bits ≤ n → n ≤ 64 → ∀ r : Value,
      r = (((signedPart (s.getValue size.quotientReg) size) * signedPart v size).setWidth
        n).signExtend 64 →
        r.toInt = (size.low (s.getValue size.quotientReg)).toInt * (size.low v).toInt := by
    rintro n hn hn64 r rfl
    have hpos := size.bits_pos
    have hsize : size ≠ .qword := by
      rintro rfl
      exact absurd (hn.trans hn64) (by decide)
    have hval := toInt_product hsize (s.getValue size.quotientReg) v
    have hfits := product_fits size (size.low (s.getValue size.quotientReg)) (size.low v) hn
    rw [← hval] at hfits
    rw [BitVec.toInt_signExtend_of_le hn64, toInt_setWidth_of_fits (by omega) hn64 hfits, hval]
  have hmarks : ∀ r : Value,
    r.toInt = (size.low (s.getValue size.quotientReg)).toInt * (size.low v).toInt →
      ((signedPart r size != r) = true ↔ ¬ MulCommand.imul.Fits size.bits
        (MulCommand.imul.number (size.low (s.getValue size.quotientReg)) * MulCommand.imul.number
          (size.low v))) := by
    intro r hint
    rw [bne_iff_ne, Ne, signedPart_eq_iff, hint]
    rfl
  have hpair : size ≠ .byte → size.bits + size.bits ≤ 64 → ∀ r : Value,
      r.toInt = (size.low (s.getValue size.quotientReg)).toInt * (size.low v).toInt →
      callImul S I s = .ok () ({ s with
        flags := withCFOF (clearCFOF s.flags) (signedPart r size != r) }.setResult size
        (cutValue r size) (r.sshiftRight size.bits)) → Multiplies .imul S I s v := by
    intro hbyte hbits r hint hrun
    have hpos := size.bits_pos
    have hfits := product_fits size (size.low (s.getValue size.quotientReg)) (size.low v)
        (Nat.two_mul _).ge
    rw [← hint] at hfits
    refine multiplies_of_setResult hs hfirst hbyte hrun rfl ?_ (hmarks r hint)
    rw [low_cutValue]
    unfold MulCommand.number Size.low
    dsimp only
    rw [join_signed_halves hbits, toInt_setWidth_of_fits (by omega) (by omega) hfits, hint]
    rfl
  cases size with
  | qword =>
    have hj := imul64_spec (s.getValue (.r64 0)) v
    have hrun : MulCommand.imul.call S I s = .ok ()
        ({ s with flags := withCFOF (clearCFOF s.flags) ((imul64 (s.getValue (.r64 0)) v).2 !=
            (imul64 (s.getValue (.r64 0)) v).1.sshiftRight 63) }.setResult .qword
          (imul64 (s.getValue (.r64 0)) v).1 (imul64 (s.getValue (.r64 0)) v).2) := by
      change callImul S I s = _
      rw [hstart]
      unfold callImul1
      rw [bind_of_ok hread', hfirst]
      rfl
    generalize imul64 (s.getValue (.r64 0)) v = p at hj hrun
    obtain ⟨q, h⟩ := p
    have hlow : ∀ w : Value, (Size.qword.low w).toInt = w.toInt :=
      fun w => congrArg BitVec.toInt (BitVec.setWidth_eq w)
    refine multiplies_of_setResult (x := signedJoin q h) hs hfirst (by decide) hrun ?_ ?_
      (high_ne_sign_iff q h)
    · unfold MulCommand.number
      dsimp only
      rw [hlow, hlow, hj]
      rfl
    · rw [number_words]
      rfl
  | dword =>
    refine hpair (by decide) (by decide)
      (signedPart (s.getValue (.r32 0)) .dword * signedPart v .dword)
      (hprod 64 (by decide) (by decide) _ ?_) ?_
    · rw [BitVec.setWidth_eq, BitVec.signExtend_eq]
      rfl
    rw [hstart]
    unfold callImul1
    rw [bind_of_ok hread', hfirst]
    rfl
  | word =>
    refine hpair (by decide) (by decide)
      (signedPart (signedPart (s.getValue (.r16 0)) .word * signedPart v .word) .dword)
      (hprod 32 (by decide) (by decide) _ rfl) ?_
    rw [hstart]
    unfold callImul1
    rw [bind_of_ok hread', hfirst]
    rfl
  | byte =>
    obtain ⟨r, hr⟩ : ∃ r, r =
        signedPart (signedPart (s.getValue (.r8 0)) .byte * signedPart v .byte) .word :=
      ⟨_, rfl⟩
    have hint := hprod 16 (by decide) (by decide) r hr
    have hfits := product_fits .byte (Size.byte.low (s.getValue (.r8 0))) (Size.byte.low v)
        (n := 16) (by decide)
    have hrun : MulCommand.imul.call S I s =
        .ok () ({ s with flags := withCFOF (clearCFOF s.flags) (signedPart r .byte != r) }.setValue
          (.r16 0) r) := by
      change callImul S I s = _
      rw [hstart, hr]
      unfold callImul1
      rw [bind_of_ok hread', hfirst]
      rfl
    refine multiplies_of_byte hs hfirst hrun rfl ?_ (hmarks r hint)
    exact (toInt_setWidth_of_fits (n := 16) (by decide) (by decide) (hint ▸ hfits)).trans hint

end

end

/-! ## Two and three operands -/

theorem toInt_signExtend_qword (v : Value) (size : Size) :
    (signExtend v size .qword).toInt = (size.low v).toInt := by
  unfold signExtend
  split
  · subst_vars
    exact congrArg BitVec.toInt (BitVec.setWidth_eq v).symm
  · rw [cutValue_qword]
    exact toInt_signedPart

/-- The low part of a number that was cut to a word. -/
theorem low_ofInt (size : Size) (x : Int) :
    size.low (BitVec.ofInt 64 x) = BitVec.ofInt size.bits x := by
  have hdvd : 2 ^ size.bits ∣ 2 ^ 64 := Nat.pow_dvd_pow 2 size.bits_le
  apply BitVec.eq_of_toInt_eq
  rw [Size.low, BitVec.toInt_setWidth, BitVec.toInt_ofInt, ← Int.bmod_bmod_of_dvd hdvd,
    ← BitVec.toInt_eq_toNat_bmod, BitVec.toInt_ofInt, Int.bmod_bmod_of_dvd hdvd]

/-- The low word of a signed product. -/
theorem imul64_low (a b : Value) : (imul64 a b).1 = BitVec.ofInt 64 (a.toInt * b.toInt) := by
  have hspec := imul64_spec a b
  rw [← hspec]
  generalize imul64 a b = p
  obtain ⟨q, h⟩ := p
  have hq := q.isLt
  have hcond := signedJoin_cond q h
  have hjoin : join q h = h.toNat * 2 ^ 64 + q.toNat := rfl
  apply BitVec.eq_of_toNat_eq
  rw [BitVec.toNat_ofInt]
  dsimp only
  omega

section

variable {S : MemoryStream μ} {I : Insn} {s : Proc μ} {op1 op2 : Value} {size1 size2 : Size}

/-- `imulImpl`: the product as far as a word holds it, and whether it fits the first operand. -/
theorem imulImpl_run (h1 : size1.bits ≤ I.firstSize.bits) (h2 : size2.bits ≤ I.firstSize.bits) :
    ∃ b, imulImpl I op1 op2 size1 size2 { s with flags := clearCFOF s.flags } =
        .ok (BitVec.ofInt 64 ((size1.low op1).toInt * (size2.low op2).toInt))
          { s with flags := withCFOF (clearCFOF s.flags) b } ∧
      (b = true ↔ ¬ MulCommand.imul.Fits I.firstSize.bits
        ((size1.low op1).toInt * (size2.low op2).toInt)) := by
  have hresult : signExtend op1 size1 .qword * signExtend op2 size2 .qword =
      BitVec.ofInt 64 ((size1.low op1).toInt * (size2.low op2).toInt) := by
    rw [BitVec.ofInt_mul, ← toInt_signExtend_qword, ← toInt_signExtend_qword, BitVec.ofInt_toInt,
      BitVec.ofInt_toInt]
  obtain ⟨size, hfirst⟩ : ∃ size, I.firstSize = size := ⟨_, rfl⟩
  rw [hfirst] at h1 h2
  -- in up to 32 bits the word holds the product
  have hshort : size ≠ .qword → (signExtend op1 size1 .qword * signExtend op2 size2 .qword).toInt =
      (size1.low op1).toInt * (size2.low op2).toInt := by
    intro hsize
    have hbits : size.bits ≤ 32 := by cases size <;> first | exact absurd rfl hsize | decide
    have hb1 : (size1.low op1).toInt.natAbs ≤ 2 ^ 31 :=
      (natAbs_low_le size1 op1).trans (Nat.pow_le_pow_right (by decide) (by omega))
    have hb2 : (size2.low op2).toInt.natAbs ≤ 2 ^ 31 :=
      (natAbs_low_le size2 op2).trans (Nat.pow_le_pow_right (by decide) (by omega))
    have hbound := Nat.mul_le_mul hb1 hb2
    rw [← Int.natAbs_mul] at hbound
    rw [hresult, BitVec.toInt_ofInt]
    exact Int.bmod_eq_of_le_mul_two (by omega) (by omega)
  have hmarks : size ≠ .qword →
      ((signedPart (signExtend op1 size1 .qword * signExtend op2 size2 .qword) size !=
          signExtend op1 size1 .qword * signExtend op2 size2 .qword) = true ↔
        ¬ MulCommand.imul.Fits size.bits ((size1.low op1).toInt * (size2.low op2).toInt)) := by
    intro hsize
    rw [bne_iff_ne, Ne, signedPart_eq_iff, hshort hsize]
    rfl
  unfold imulImpl
  rw [hfirst]
  cases size with
  | qword =>
    have hlow := imul64_low (signExtend op1 size1 .qword) (signExtend op2 size2 .qword)
    have hspec := imul64_spec (signExtend op1 size1 .qword) (signExtend op2 size2 .qword)
    rw [toInt_signExtend_qword, toInt_signExtend_qword] at hlow hspec
    refine ⟨_, congrArg (fun r => EStateM.Result.ok r _) hlow, ?_⟩
    rw [← hspec]
    exact high_ne_sign_iff _ _
  | dword => exact ⟨_, congrArg (fun r => EStateM.Result.ok r _) hresult, hmarks (by decide)⟩
  | word => exact ⟨_, congrArg (fun r => EStateM.Result.ok r _) hresult, hmarks (by decide)⟩
  | byte => exact ⟨_, congrArg (fun r => EStateM.Result.ok r _) hresult, hmarks (by decide)⟩

/-- How a multiplication with more operands ends. -/
theorem setOperand_product {d : Value × Size} (hI : I.HasDest) (hs : s.Idle)
    (hread : getOperand S I 0 s = .ok d s) (h1 : size1.bits ≤ I.firstSize.bits)
    (h2 : size2.bits ≤ I.firstSize.bits) :
    Post (imulImpl I op1 op2 size1 size2 >>= setOperand S I 0) { s with flags := clearCFOF s.flags }
      (fun _ t => Stores S I s t
          ((BitVec.ofInt I.firstSize.bits
            ((size1.low op1).toInt * (size2.low op2).toInt)).setWidth 64) ∧
        MarksHigh .imul I.firstSize.bits ((size1.low op1).toInt * (size2.low op2).toInt) t.flags)
      (fun _ t => Refused S I s t
        ((BitVec.ofInt I.firstSize.bits ((size1.low op1).toInt * (size2.low op2).toInt)).setWidth
          64)) := by
  obtain ⟨b, hrun, hb⟩ : ∃ b,
      imulImpl I op1 op2 size1 size2 { s with flags := clearCFOF s.flags } = _ ∧ _ :=
    imulImpl_run h1 h2
  rw [post_bind, post_of_ok hrun, ← low_ofInt, ← cutValue_eq]
  refine (setOperand_stores (u := { s with flags := withCFOF (clearCFOF s.flags) b }) S hI hread rfl
    (fun _ _ => rfl) _).mono ?_ fun _ _ h => h
  rintro _ t ⟨hstores, hflags⟩
  refine ⟨hstores, ?_⟩
  have hidle : s.stateFlags.updateFlagsPsz = false := hs
  rw [hflags, Proc.writtenFlags, hidle]
  exact marksHigh_of hb

theorem callImul_two {dest : Value} (hI : I.HasDest) (hs : s.Idle) (hlen : I.operands.length = 2)
    (h0 : getOperand S I 0 s = .ok (dest, I.firstSize) s)
    (h1 : getOperand S I 1 s = .ok (op1, size1) s) (hsize : size1.bits ≤ I.firstSize.bits) :
    MultipliesInto S I s ((size1.low op1).toInt * (I.firstSize.low dest).toInt) := by
  have hstart : callImul S I s = callImul2 S I { s with flags := clearCFOF s.flags } := by
    unfold callImul
    rw [hlen]
    rfl
  have hrun : callImul2 S I { s with flags := clearCFOF s.flags } =
      (imulImpl I op1 dest size1 I.firstSize >>= setOperand S I 0) { s with
        flags := clearCFOF s.flags } := by
    unfold callImul2
    rw [bind_of_ok (getOperand_flags _ h0)]
    dsimp only
    rw [bind_of_ok (getOperand_flags _ h1)]
  unfold MultipliesInto Post
  rw [hstart, hrun]
  exact setOperand_product hI hs h0 hsize le_rfl

theorem callImul_three {dest : Value × Size} (hI : I.HasDest) (hs : s.Idle)
    (hlen : I.operands.length = 3) (h0 : getOperand S I 0 s = .ok dest s)
    (h1 : getOperand S I 1 s = .ok (op1, size1) s) (h2 : getOperand S I 2 s = .ok (op2, size2) s)
    (hsize1 : size1.bits ≤ I.firstSize.bits) (hsize2 : size2.bits ≤ I.firstSize.bits) :
    MultipliesInto S I s ((size1.low op1).toInt * (size2.low op2).toInt) := by
  have hstart : callImul S I s = callImul3 S I { s with flags := clearCFOF s.flags } := by
    unfold callImul
    rw [hlen]
    rfl
  have hrun : callImul3 S I { s with flags := clearCFOF s.flags } =
      (imulImpl I op1 op2 size1 size2 >>= setOperand S I 0) { s with
        flags := clearCFOF s.flags } := by
    unfold callImul3
    rw [bind_of_ok (getOperand_flags _ h0)]
    dsimp only
    rw [bind_of_ok (getOperand_flags _ h1)]
    dsimp only
    rw [bind_of_ok (getOperand_flags _ h2)]
  unfold MultipliesInto Post
  rw [hstart, hrun]
  exact setOperand_product hI hs h0 hsize1 hsize2

end

/-! ## All of them -/

/-- `div64` fails where the quotient is longer than a word. -/
theorem div64_eq_none_iff {low high b : Value} (hb : b ≠ 0) :
    div64 low high b = none ↔ 2 ^ 64 ≤ join low high / b.toNat := by
  have hpos : 0 < b.toNat := Nat.pos_of_ne_zero fun h => hb (BitVec.eq_of_toNat_eq h)
  have hspec := div64_spec low high b hb
  cases hdiv : div64 low high b with
  | none =>
    rw [hdiv] at hspec
    exact iff_of_true rfl ((Nat.le_div_iff_mul_le hpos).2 (by rw [Nat.mul_comm]; exact hspec))
  | some p =>
    rw [hdiv] at hspec
    have hq := p.1.isLt
    rw [hspec.1] at hq
    exact iff_of_false nofun (by omega)

theorem idiv64_eq_none_iff {low high b : Value} (hb : b ≠ 0) :
    idiv64 low high b = none ↔
      ¬ (-2 ^ 63 ≤ (signedJoin low high).tdiv b.toInt ∧ (signedJoin low high).tdiv b.toInt <
        2 ^ 63) := by
  have hspec := idiv64_spec low high b hb
  cases hdiv : idiv64 low high b with
  | none =>
    rw [hdiv] at hspec
    exact iff_of_true rfl hspec
  | some p =>
    rw [hdiv] at hspec
    rw [← hspec.1]
    exact iff_of_false nofun (not_not.2 ⟨BitVec.le_toInt p.1, BitVec.toInt_lt⟩)

/-- The operations on two words are exact, and so are the multiplications, of every size and number
of operands; the commands divide by no zero. -/
theorem multiplications_exact (S : MemoryStream μ) (I : Insn) (s : Proc μ) :
    (∀ a b, join (mul64 a b).1 (mul64 a b).2 = a.toNat * b.toNat) ∧
    (∀ a b, signedJoin (imul64 a b).1 (imul64 a b).2 = a.toInt * b.toInt) ∧
    (∀ low high b, b ≠ 0 → (div64 low high b = none ↔ 2 ^ 64 ≤ join low high / b.toNat) ∧
      ∀ q r, div64 low high b = some (q, r) →
        q.toNat = join low high / b.toNat ∧ r.toNat = join low high % b.toNat) ∧
    (∀ low high b, b ≠ 0 → (idiv64 low high b = none ↔
        ¬ (-2 ^ 63 ≤ (signedJoin low high).tdiv b.toInt ∧
          (signedJoin low high).tdiv b.toInt < 2 ^ 63)) ∧
      ∀ q r, idiv64 low high b = some (q, r) →
        q.toInt = (signedJoin low high).tdiv b.toInt ∧
        r.toInt = (signedJoin low high).tmod b.toInt) ∧
    (I.HasDest → s.Idle → ∀ v, getOperand S I 0 s = .ok (v, I.firstSize) s →
      Multiplies .mul S I s v ∧
      (I.operands.length = 1 → Multiplies .imul S I s v) ∧
      (I.operands.length = 2 → ∀ op size, getOperand S I 1 s = .ok (op, size) s →
        size.bits ≤ I.firstSize.bits →
        MultipliesInto S I s ((size.low op).toInt * (I.firstSize.low v).toInt)) ∧
      (I.operands.length = 3 → ∀ op1 size1 op2 size2, getOperand S I 1 s = .ok (op1, size1) s →
        getOperand S I 2 s = .ok (op2, size2) s → size1.bits ≤ I.firstSize.bits →
        size2.bits ≤ I.firstSize.bits →
          MultipliesInto S I s ((size1.low op1).toInt * (size2.low op2).toInt))) := by
  refine ⟨mul64_spec, imul64_spec, fun low high b hb => ⟨div64_eq_none_iff hb, ?_⟩,
    fun low high b hb => ⟨idiv64_eq_none_iff hb, ?_⟩,
    fun hI hs v hread => ⟨callMul_multiplies hI hs hread,
      callImul_multiplies hs hread, ?_, ?_⟩⟩
  · intro q r hdiv
    have hspec := div64_spec low high b hb
    rw [hdiv] at hspec
    exact hspec
  · intro q r hdiv
    have hspec := idiv64_spec low high b hb
    rw [hdiv] at hspec
    exact hspec
  · exact fun hlen op size h1 hsize => callImul_two hI hs hlen hread h1 hsize
  · exact fun hlen op1 size1 op2 size2 h1 h2 hsize1 hsize2 =>
      callImul_three hI hs hlen hread h1 h2 hsize1 hsize2

/-- `imul cl` -/
def imulCl : Insn := { idivCl with command := .general .imul }

/-- `al = -3` and `cl = 5`. -/
theorem multiplications_imulCl :
    Multiplies .imul zeroStream imulCl ((raxAt 0xFD).setValue (.r8 1) 5) 5 :=
  ((multiplications_exact zeroStream imulCl ((raxAt 0xFD).setValue (.r8 1) 5)).2.2.2.2
    ⟨.inl rfl, fun _ h => by cases h; rfl, rfl⟩ rfl 5 rfl).2.1 rfl

end Diana.Processor
