import Diana.Processor.ArithCommands
import Mathlib.Tactic.Linarith
import Mathlib.Tactic.Ring

/-!
# Division

`div` and `idiv` divide a dividend of twice the width of their operand; the quotient is to fit the
operand, or the command fails.

* `div64_spec`, `idiv64_spec`: the long division of 128 bits by 64;
* `Divides`: what the architecture asks of a division;
* `divides_iff`: `idiv` of 8, 16 and 32 bits accepts quotients up to the unsigned limit, and its own
  division can overflow.
-/

namespace Diana.Processor

open Diana.Lib

/-! ## Long division -/

/-- The number in two words. -/
def join (low high : Value) : Nat := high.toNat * 2 ^ 64 + low.toNat

section Long

/-- The words of `div64` moved one place to the left, with the top bit of the lower word coming
in. -/
theorem toNat_shift_in (a0 a1 : Value) :
    ((a1 <<< 1) ||| (a0 >>> 63)).toNat = (2 * a1.toNat + a0.toNat / 2 ^ 63) % 2 ^ 64 := by
  have h1 := a1.isLt
  have h0 := a0.isLt
  have hbit : a0.toNat / 2 ^ 63 < 2 := by omega
  rw [BitVec.toNat_or, BitVec.toNat_shiftLeft, BitVec.toNat_ushiftRight, Nat.shiftRight_eq_div_pow,
    Nat.shiftLeft_eq, Nat.pow_one]
  have hcut : a1.toNat * 2 % 2 ^ 64 = (a1.toNat % 2 ^ 63) <<< 1 := by
    rw [Nat.shiftLeft_eq]
    omega
  rw [hcut, ← Nat.shiftLeft_add_eq_or_of_lt (i := 1) hbit, Nat.shiftLeft_eq]
  omega

theorem toNat_shift_bit (a0 : Value) (b : Bool) :
    ((a0 <<< 1) ||| carryValue b).toNat = 2 * (a0.toNat % 2 ^ 63) + b.toNat := by
  have h0 := a0.isLt
  have hb : (carryValue b).toNat = b.toNat := by cases b <;> rfl
  have hbit : b.toNat < 2 := b.toNat_lt
  rw [BitVec.toNat_or, BitVec.toNat_shiftLeft, hb, Nat.shiftLeft_eq, Nat.pow_one]
  have hcut : a0.toNat * 2 % 2 ^ 64 = (a0.toNat % 2 ^ 63) <<< 1 := by
    rw [Nat.shiftLeft_eq]
    omega
  rw [hcut, ← Nat.shiftLeft_add_eq_or_of_lt (i := 1) hbit, Nat.shiftLeft_eq]
  omega

/-- One turn of the loop: the two words are doubled, and the divisor is taken off the upper one
where it can be, for a bit of the quotient in the lower one. -/
theorem div64_turn {b a0 a1 : Value} (h : a1 < b) : ∃ (bit : Bool) (c0 c1 : Value),
    (∀ n, div64Loop b (n + 1) a0 a1 = div64Loop b n c0 c1) ∧ c1 < b ∧
      join c0 c1 + 2 ^ 64 * b.toNat * bit.toNat = 2 * join a0 a1 + bit.toNat := by
  have hb := b.isLt
  have h0 := a0.isLt
  have hlt : a1.toNat < b.toNat := h
  have hmsb : a1.msb = decide (2 ^ 63 ≤ a1.toNat) := BitVec.msb_eq_decide a1
  have hin := toNat_shift_in a0 a1
  set c := (a1 <<< 1) ||| (a0 >>> 63) with hc
  by_cases htake : a1.msb = true ∨ b ≤ c
  · have hge : b.toNat ≤ 2 * a1.toNat + a0.toNat / 2 ^ 63 := by
      rcases htake with ht | ht
      · rw [hmsb, decide_eq_true_eq] at ht
        omega
      · have : b.toNat ≤ c.toNat := ht
        omega
    have hsub : (c - b).toNat = 2 * a1.toNat + a0.toNat / 2 ^ 63 - b.toNat := by
      rw [BitVec.toNat_sub, hin]
      omega
    have hbit := toNat_shift_bit a0 true
    refine ⟨true, (a0 <<< 1) ||| 1, c - b, fun n => ?_, ?_, ?_⟩
    · rw [div64Loop, ← hc]
      exact if_pos htake
    · change (c - b).toNat < b.toNat
      omega
    · unfold join
      have hone : ((a0 <<< 1) ||| 1).toNat = 2 * (a0.toNat % 2 ^ 63) + 1 := hbit
      rw [hone, hsub]
      simp only [Bool.toNat_true]
      omega
  · have hlow : ¬ a1.msb = true ∧ ¬ b ≤ c := not_or.1 htake
    have hsmall : 2 * a1.toNat < 2 ^ 64 := by
      have := hlow.1
      rw [hmsb, decide_eq_true_eq] at this
      omega
    have hc' : c.toNat = 2 * a1.toNat + a0.toNat / 2 ^ 63 := by omega
    have hbit := toNat_shift_bit a0 false
    refine ⟨false, a0 <<< 1, c, fun n => ?_, BitVec.not_le.1 hlow.2, ?_⟩
    · rw [div64Loop, ← hc]
      exact if_neg htake
    · unfold join
      have hzero : (a0 <<< 1).toNat = 2 * (a0.toNat % 2 ^ 63) := by
        have : (a0 <<< 1) ||| carryValue false = a0 <<< 1 := BitVec.or_zero
        rw [this] at hbit
        exact hbit
      rw [hzero, hc']
      simp only [Bool.toNat_false]
      omega

/-- What `n` turns leave: the quotient bits `m` stand for `m` divisors taken off. -/
theorem div64Loop_spec {b : Value} (n : Nat) {a0 a1 : Value} (h : a1 < b) :
    (div64Loop b n a0 a1).2 < b ∧ ∃ m < 2 ^ n,
      join (div64Loop b n a0 a1).1 (div64Loop b n a0 a1).2 + 2 ^ 64 * b.toNat * m =
      2 ^ n * join a0 a1 + m := by
  induction n generalizing a0 a1 with
  | zero => exact ⟨h, 0, by decide, by simp [div64Loop]⟩
  | succ n ih =>
    obtain ⟨bit, c0, c1, hloop, hlt, hturn⟩ := @div64_turn b a0 a1 h
    obtain ⟨hr, m, hm, hrun⟩ := @ih c0 c1 hlt
    rw [hloop]
    refine ⟨hr, 2 ^ n * bit.toNat + m, ?_, ?_⟩
    · have := bit.toNat_lt
      rw [Nat.pow_succ]
      nlinarith
    · rw [Nat.pow_succ]
      calc _ = (join (div64Loop b n c0 c1).1 (div64Loop b n c0 c1).2 + 2 ^ 64 * b.toNat * m)
            + 2 ^ n * (2 ^ 64 * b.toNat * bit.toNat) := by ring
        _ = 2 ^ n * (join c0 c1 + 2 ^ 64 * b.toNat * bit.toNat) + m := by
          rw [hrun]
          ring
        _ = _ := by
          rw [hturn]
          ring

/-- The quotient and the remainder of a division of two words by one, where the
quotient is one word. -/
theorem div64_spec (low high b : Value) (hb : b ≠ 0) :
    match div64 low high b with
    | none => b.toNat * 2 ^ 64 ≤ join low high
    | some (q, r) => q.toNat = join low high / b.toNat ∧ r.toNat = join low high % b.toNat := by
  have hpos : 0 < b.toNat := Nat.pos_of_ne_zero fun h => hb (BitVec.eq_of_toNat_eq h)
  unfold div64
  by_cases h0 : high = 0
  · rw [if_pos h0]
    have hj : join low high = low.toNat := by
      rw [h0, join]
      exact Nat.zero_add _
    dsimp only
    rw [hj, BitVec.toNat_udiv, BitVec.toNat_umod]
    exact ⟨rfl, rfl⟩
  · rw [if_neg h0]
    by_cases hle : b ≤ high
    · rw [if_pos hle]
      have : b.toNat ≤ high.toNat := hle
      exact (Nat.mul_le_mul_right _ this).trans (Nat.le_add_right _ _)
    · rw [if_neg hle]
      obtain ⟨hr, m, hm, hrun⟩ := @div64Loop_spec b 64 low high (BitVec.not_le.1 hle)
      generalize div64Loop b 64 low high = p at *
      obtain ⟨q, r⟩ := p
      have hr : r.toNat < b.toNat := hr
      have hq := q.isLt
      have hrun : (r.toNat * 2 ^ 64 + q.toNat) + 2 ^ 64 * b.toNat * m =
          2 ^ 64 * join low high + m := hrun
      -- the lower word holds the bits of the quotient alone
      have hqm : q.toNat = m := by
        have h1 : (q.toNat + 2 ^ 64 * (r.toNat + b.toNat * m)) % 2 ^ 64 =
            (m + 2 ^ 64 * join low high) % 2 ^ 64 :=
          congrArg (· % 2 ^ 64) (by linarith)
        rw [Nat.add_mul_mod_self_left, Nat.add_mul_mod_self_left, Nat.mod_eq_of_lt hq,
          Nat.mod_eq_of_lt hm] at h1
        exact h1
      have hdiv : r.toNat + b.toNat * m = join low high := by
        rw [hqm] at hrun
        have : 2 ^ 64 * (r.toNat + b.toNat * m) = 2 ^ 64 * join low high := by linarith
        exact Nat.eq_of_mul_eq_mul_left (by decide) this
      dsimp only
      rw [hqm, ← hdiv, Nat.add_mul_div_left _ _ hpos, Nat.div_eq_of_lt hr, Nat.zero_add,
        Nat.add_mul_mod_self_left, Nat.mod_eq_of_lt hr]
      exact ⟨rfl, rfl⟩

end Long

/-! ## Truncated division -/

section Truncated

variable (x y : Int)

theorem tdiv_of_signs : x.tdiv y =
    if decide (x < 0) = decide (y < 0) then ((x.natAbs / y.natAbs : Nat) : Int)
    else -((x.natAbs / y.natAbs : Nat) : Int) := by
  have hnat : ∀ n : Nat, ¬ (Int.ofNat n < 0) := fun n => not_lt.2 (Int.natCast_nonneg n)
  cases x <;> cases y <;> simp only [hnat, Int.negSucc_lt_zero] <;> rfl

theorem tmod_of_sign : x.tmod y =
    if x < 0 then -((x.natAbs % y.natAbs : Nat) : Int)
    else ((x.natAbs % y.natAbs : Nat) : Int) := by
  cases x <;> cases y <;> simp [Int.tmod, Int.negSucc_lt_zero]

end Truncated

/-! ## Signed long division -/

section Signed

theorem toInt_neg_of_le {v : Value} (h : v.toNat ≤ 2 ^ 63) : (-v).toInt = -(v.toNat : Int) := by
  have hv := v.isLt
  have hn : (-v).toNat = (2 ^ 64 - v.toNat) % 2 ^ 64 := BitVec.toNat_neg v
  rw [BitVec.toInt_eq_toNat_cond, hn]
  split <;> omega

theorem toInt_of_lt_half {v : Value} (h : v.toNat < 2 ^ 63) : v.toInt = v.toNat :=
  BitVec.toInt_eq_toNat_of_lt (by omega)

/-- The magnitude of a word, as the code takes it. -/
theorem magnitude (v : Value) : (if v.msb then -v else v).toNat = v.toInt.natAbs ∧
    v.msb = decide (v.toInt < 0) := by
  have hv := v.isLt
  have hn : (-v).toNat = (2 ^ 64 - v.toNat) % 2 ^ 64 := BitVec.toNat_neg v
  have hi := BitVec.toInt_eq_toNat_cond v
  have hmsb : v.msb = decide (2 ^ 63 ≤ v.toNat) := BitVec.msb_eq_decide v
  by_cases h : 2 ^ 63 ≤ v.toNat
  · rw [decide_eq_true h] at hmsb
    rw [if_neg (by omega)] at hi
    rw [hmsb, if_pos rfl, hn]
    exact ⟨by omega, (decide_eq_true (by omega)).symm⟩
  · rw [decide_eq_false h] at hmsb
    rw [if_pos (by omega)] at hi
    rw [hmsb, if_neg (by decide)]
    exact ⟨by omega, (decide_eq_false (by omega)).symm⟩

/-- The two words negated. -/
theorem join_neg128 (low high : Value) (h : high.msb = true) :
    join (neg128 low high).1 (neg128 low high).2 = 2 ^ 128 - join low high := by
  have hl := low.isLt
  have hh := high.isLt
  have hmsb : high.msb = decide (2 ^ 63 ≤ high.toNat) := BitVec.msb_eq_decide high
  rw [h, eq_comm, decide_eq_true_eq] at hmsb
  have hnl : (~~~low + 1).toNat = (2 ^ 64 - low.toNat) % 2 ^ 64 := by
    rw [BitVec.toNat_add, BitVec.toNat_not]
    change (2 ^ 64 - 1 - low.toNat + 1) % 2 ^ 64 = _
    omega
  have hnh : (~~~high).toNat = 2 ^ 64 - 1 - high.toNat := BitVec.toNat_not
  unfold neg128 add128 join
  dsimp only
  have hzero : ∀ x : Value, (x + 0).toNat = x.toNat :=
    fun x => congrArg BitVec.toNat (BitVec.add_zero x)
  rw [hzero, hnl]
  by_cases hcarry : ~~~low + 1 < 1
  · rw [if_pos hcarry]
    have hlt : (~~~low + 1).toNat < 1 := hcarry
    have hinc : (~~~high + 1).toNat = 2 ^ 64 - high.toNat := by
      rw [BitVec.toNat_add, hnh]
      change (2 ^ 64 - 1 - high.toNat + 1) % 2 ^ 64 = _
      omega
    rw [hinc]
    omega
  · rw [if_neg hcarry, hnh]
    have hge : ¬ (~~~low + 1).toNat < 1 := hcarry
    omega

/-- The dividend of `idiv64`. -/
def signedJoin (low high : Value) : Int := (BitVec.ofNat 128 (join low high)).toInt

theorem magnitude_join (low high : Value) :
    join (if high.msb then neg128 low high else (low, high)).1
    (if high.msb then neg128 low high else (low, high)).2 =
      (signedJoin low high).natAbs ∧ high.msb = decide (signedJoin low high < 0) := by
  have hl := low.isLt
  have hh := high.isLt
  have hmsb : high.msb = decide (2 ^ 63 ≤ high.toNat) := BitVec.msb_eq_decide high
  have hlt : join low high < 2 ^ 128 := by
    unfold join
    omega
  have hj : join low high = high.toNat * 2 ^ 64 + low.toNat := rfl
  have hnat : (BitVec.ofNat 128 (join low high)).toNat = join low high := by
    rw [BitVec.toNat_ofNat, Nat.mod_eq_of_lt hlt]
  have hi := BitVec.toInt_eq_toNat_cond (BitVec.ofNat 128 (join low high))
  rw [hnat] at hi
  unfold signedJoin
  by_cases h : 2 ^ 63 ≤ high.toNat
  · rw [decide_eq_true h] at hmsb
    rw [if_neg (by omega)] at hi
    rw [if_pos hmsb, join_neg128 low high hmsb, hmsb, hi]
    exact ⟨by omega, (decide_eq_true (by omega)).symm⟩
  · rw [decide_eq_false h] at hmsb
    rw [if_pos (by omega)] at hi
    rw [hmsb, if_neg (by decide), hi]
    exact ⟨by simp, (decide_eq_false (by omega)).symm⟩

/-- The quotient and the remainder of a signed division, where the quotient is a signed word. -/
theorem idiv64_spec (low high b : Value) (hb : b ≠ 0) :
    match idiv64 low high b with
    | none =>
      ¬ (-2 ^ 63 ≤ (signedJoin low high).tdiv b.toInt ∧ (signedJoin low high).tdiv b.toInt < 2 ^ 63)
    | some (q, r) => q.toInt = (signedJoin low high).tdiv b.toInt ∧
      r.toInt = (signedJoin low high).tmod b.toInt := by
  obtain ⟨habs, hsa⟩ := magnitude_join low high
  obtain ⟨hbabs, hsb⟩ := magnitude b
  have hbound : b.toInt.natAbs ≤ 2 ^ 63 := by
    have h1 := b.toInt_lt
    have h2 := b.le_toInt
    omega
  have hpos : 0 < b.toInt.natAbs :=
    Int.natAbs_pos.2 fun h => hb (BitVec.eq_of_toInt_eq (h.trans BitVec.toInt_zero.symm))
  have hB : (if b.msb then -b else b) ≠ 0 := by
    intro h
    rw [h] at hbabs
    exact absurd hbabs.symm hpos.ne'
  have hdiv := div64_spec (if high.msb then neg128 low high else (low, high)).1
    (if high.msb then neg128 low high else (low, high)).2 _ hB
  rw [habs, hbabs] at hdiv
  rw [tdiv_of_signs, tmod_of_sign]
  unfold idiv64
  dsimp only
  cases hrun : div64 (if high.msb then neg128 low high else (low, high)).1
    (if high.msb then neg128 low high else (low, high)).2 (if b.msb then -b else b) with
  | none =>
    rw [hrun] at hdiv
    have hlarge : 2 ^ 64 ≤ (signedJoin low high).natAbs / b.toInt.natAbs :=
      (Nat.le_div_iff_mul_le hpos).2 (by rwa [Nat.mul_comm] at hdiv)
    change ¬ _
    split <;> omega
  | some p =>
    obtain ⟨q, r⟩ := p
    rw [hrun] at hdiv
    obtain ⟨hq, hr⟩ := hdiv
    have hrlt : r.toNat < 2 ^ 63 := by
      rw [hr]
      exact lt_of_lt_of_le (Nat.mod_lt _ hpos) hbound
    have hrem : (if high.msb then -r else r).toInt =
        if signedJoin low high < 0 then
        -(((signedJoin low high).natAbs % b.toInt.natAbs : Nat) : Int)
        else (((signedJoin low high).natAbs % b.toInt.natAbs : Nat) : Int) := by
      rw [hsa]
      by_cases hs : signedJoin low high < 0
      · rw [if_pos (decide_eq_true hs), if_pos hs, toInt_neg_of_le hrlt.le, hr]
      · rw [if_neg (by simpa using hs), if_neg hs, toInt_of_lt_half hrlt, hr]
    rw [← hsa, ← hsb, ← hq]
    change (match (do
      let q ← if high.msb != b.msb then (if 0x8000000000000000 < q then none else some (-q))
        else (if 0x8000000000000000 ≤ q then none else some q)
      some (q, if high.msb then -r else r) : Option (Value × Value)) with
      | none => _
      | some (q, r) => _)
    by_cases hsign : high.msb = b.msb
    · rw [if_pos hsign, if_neg (by simp [hsign])]
      by_cases hfit : (0x8000000000000000 : Value) ≤ q
      · rw [if_pos hfit]
        have : 2 ^ 63 ≤ q.toNat := hfit
        change ¬ _
        omega
      · rw [if_neg hfit]
        have : q.toNat < 2 ^ 63 := Nat.lt_of_not_le hfit
        exact ⟨toInt_of_lt_half this, hrem⟩
    · rw [if_neg hsign, if_pos (by simpa using hsign)]
      by_cases hfit : (0x8000000000000000 : Value) < q
      · rw [if_pos hfit]
        have : 2 ^ 63 < q.toNat := hfit
        change ¬ _
        omega
      · rw [if_neg hfit]
        have : q.toNat ≤ 2 ^ 63 := Nat.le_of_not_lt hfit
        exact ⟨toInt_neg_of_le this, hrem⟩

end Signed

/-! ## What a division is to do -/

variable {μ : Type}

inductive DivCommand where
  | div | idiv
  deriving DecidableEq, Repr

/-- The register of the quotient, which holds the lower half of the dividend before. -/
def Size.quotientReg : Size → Register
  | .byte => .r8 0
  | .word => .r16 0
  | .dword => .r32 0
  | .qword => .r64 0

/-- The register of the remainder. -/
def Size.remainderReg : Size → Register
  | .byte => .r8h 0
  | .word => .r16 2
  | .dword => .r32 2
  | .qword => .r64 2

/-- The dividend: `ax`, or the two registers. -/
def Proc.dividend (s : Proc μ) (size : Size) : BitVec (2 * size.bits) :=
  BitVec.ofNat (2 * size.bits) <|
    match size with
    | .byte => (s.getValue (.r16 0)).toNat
    | _ =>
      (s.getValue size.remainderReg).toNat * 2 ^ size.bits + (s.getValue size.quotientReg).toNat

/-- A signed division of C: it overflows where the most negative number is divided by -1. -/
structure HostDivision where
  width : Nat
  dividend : BitVec width
  divisor : BitVec width

def HostDivision.Overflows (d : HostDivision) :
    Prop := d.dividend = BitVec.intMin d.width ∧ d.divisor = -1

namespace DivCommand

def call (S : MemoryStream μ) (I : Insn) : DivCommand → Exec μ Unit
  | div => callDiv S I
  | idiv => callIdiv S I

def number {n : Nat} (c : DivCommand) (v : BitVec n) : Int :=
  match c with
  | div => v.toNat
  | idiv => v.toInt

/-- The quotient is a number of `n` bits. -/
def Fits (c : DivCommand) (n : Nat) (q : Int) : Prop :=
  match c with
  | div => 0 ≤ q ∧ q < 2 ^ n
  | idiv => -2 ^ (n - 1) ≤ q ∧ q < 2 ^ (n - 1)

/-- The division `src / divisor` that the code leaves to C: in `int` for 8 and 16
bits, in 64 bits for 32. -/
def hostDivision (c : DivCommand) (size : Size) (s : Proc μ) (divisor : Value) :
    Option HostDivision :=
  match c, size with
  | idiv, .byte =>
    some ⟨32, (s.dividend .byte).signExtend 32, (Size.byte.low divisor).signExtend 32⟩
  | idiv, .word =>
    some ⟨32, (s.dividend .word).signExtend 32, (Size.word.low divisor).signExtend 32⟩
  | idiv, .dword =>
    some ⟨64, (s.dividend .dword).signExtend 64, (Size.dword.low divisor).signExtend 64⟩
  | _, _ => none

end DivCommand

/-- What the architecture asks of a division. -/
structure Divides (c : DivCommand) (S : MemoryStream μ) (I : Insn) (s : Proc μ) (divisor : Value) :
    Prop where
  faults : (∃ e t, c.call S I s = .error e t) ↔
    c.number (I.firstSize.low divisor) = 0 ∨
      ¬ c.Fits I.firstSize.bits
        ((c.number (s.dividend I.firstSize)).tdiv (c.number (I.firstSize.low divisor)))
  exact : ∀ d ∈ c.hostDivision I.firstSize s divisor, ¬ d.Overflows
  results : ∀ t, c.call S I s = .ok () t →
    ∃ q r, q = c.number (I.firstSize.low (t.getValue I.firstSize.quotientReg)) ∧
      r = c.number (I.firstSize.low (t.getValue I.firstSize.remainderReg)) ∧
      c.number (s.dividend I.firstSize) = q * c.number (I.firstSize.low divisor) + r ∧
      r.natAbs < (c.number (I.firstSize.low divisor)).natAbs ∧
      (r = 0 ∨ r.sign = (c.number (s.dividend I.firstSize)).sign)

/-- The quotients between the signed and the unsigned limit, of a dividend and a divisor. -/
def InGap (n : Nat) (x y : Int) : Prop :=
  (2 ^ (n - 1) + if decide (x < 0) = decide (y < 0) then 0 else 1) * y.natAbs ≤ x.natAbs ∧
    x.natAbs < 2 ^ n * y.natAbs

/-- How a division runs that meets its specification. -/
inductive DivisionRun (c : DivCommand) (size : Size) (s : Proc μ) (x y : Int) (run : Exec μ Unit) :
    Prop where
  | fault (e : Fault) (t : Proc μ) (hrun : run s = .error e t) (h : y = 0 ∨
      ¬ c.Fits size.bits (x.tdiv y))
  | result (t : Proc μ) (hrun : run s = .ok () t) (h0 : y ≠ 0) (hfit : c.Fits size.bits (x.tdiv y))
      (hq : c.number (size.low (t.getValue size.quotientReg)) = x.tdiv y)
      (hr : c.number (size.low (t.getValue size.remainderReg)) = x.tmod y)

theorem sign_tmod_cases (x y : Int) : x.tmod y = 0 ∨ (x.tmod y).sign = x.sign := by
  rw [Int.sign_tmod]
  by_cases h : y ∣ x
  · exact .inl (Int.tmod_eq_zero_of_dvd h)
  · rw [if_neg h]
    exact .inr rfl

theorem divides_of_run {c : DivCommand} {S : MemoryStream μ} {I : Insn} {s : Proc μ}
    {divisor : Value}
    (hrun : DivisionRun c I.firstSize s (c.number (s.dividend I.firstSize))
      (c.number (I.firstSize.low divisor)) (c.call S I))
    (hhost : ∀ d ∈ c.hostDivision I.firstSize s divisor, ¬ d.Overflows) :
    Divides c S I s divisor := by
  cases hrun with
  | fault e t hrun h =>
    exact ⟨⟨fun _ => h, fun _ => ⟨e, t, hrun⟩⟩, hhost, fun u hu => by cases hrun.symm.trans hu⟩
  | result t hrun h0 hfit hq hr =>
    refine ⟨⟨?_, ?_⟩, hhost, ?_⟩
    · rintro ⟨e, u, hu⟩
      cases hrun.symm.trans hu
    · rintro (h | h)
      · exact absurd h h0
      · exact absurd hfit h
    · intro u hu
      cases hrun.symm.trans hu
      refine ⟨_, _, hq.symm, hr.symm, (Int.tdiv_mul_add_tmod _ _).symm, ?_, sign_tmod_cases _ _⟩
      rw [Int.natAbs_tmod]
      exact Nat.mod_lt _ (Int.natAbs_pos.2 h0)

/-! ## Registers -/

section Registers

variable (s : Proc μ) (size : Size)

/-- The remainder does not reach the register of the quotient. -/
theorem getValue_quotientReg (v : Value) :
    (s.setValue size.remainderReg v).getValue size.quotientReg = s.getValue size.quotientReg := by
  have hregs : ∀ r : Register, r.size ≠ .dword →
      (s.setValue r v).regs = s.regs.set r.cell (8 * r.offset) (8 * r.size.bytes) (v.setWidth _) :=
    fun r h => Proc.setValueEx_regs s (some r) r v r.size fun hr => h hr.1
  unfold Proc.getValue Proc.getValueEx
  congr 1
  cases size with
  | byte =>
    change (s.setValue (.r8h 0) v).regs.get (.gp 0) 0 8 = _
    rw [hregs (.r8h 0) (by decide)]
    exact Cells.get_set_window _ _ (.inl (by decide)) (by decide)
  | word =>
    change (s.setValue (.r16 2) v).regs.get (.gp 0) 0 16 = _
    rw [hregs (.r16 2) (by decide)]
    exact Cells.get_set_cell _ _ _ _ (by decide)
  | dword =>
    change (s.setValue (.r32 2) v).regs.get (.gp 0) 0 32 = _
    by_cases hm : s.mode.amd64 = true
    · rw [setValue_regs32 s v 2 hm]
      exact Cells.get_set_cell _ _ _ _ (by decide)
    · have h := Proc.setValueEx_regs s (some (.r32 2)) (.r32 2) v .dword fun hr => hm hr.2.1
      change (s.setValueEx (some (.r32 2)) (.r32 2) v .dword).regs.get (.gp 0) 0 32 = _
      rw [h]
      exact Cells.get_set_cell _ _ _ _ (by decide)
  | qword =>
    change (s.setValue (.r64 2) v).regs.get (.gp 0) 0 64 = _
    rw [hregs (.r64 2) (by decide)]
    exact Cells.get_set_cell _ _ _ _ (by decide)

/-- The registers a division ends with. -/
def Proc.setResult (q r : Value) :
    Proc μ := (s.setValue size.quotientReg q).setValue size.remainderReg r

theorem setRegs_result (q r : Value) :
    setRegs [(size.quotientReg, q), (size.remainderReg, r)] s = .ok () (s.setResult size q r) := rfl

theorem low_quotient (q r : Value) :
    size.low ((s.setResult size q r).getValue size.quotientReg) = size.low q := by
  have hsize : size.quotientReg.size = size := by cases size <;> rfl
  unfold Proc.setResult
  rw [getValue_quotientReg, getValue_setValue, hsize, low_cutValue]

theorem low_remainder (q r : Value) :
    size.low ((s.setResult size q r).getValue size.remainderReg) = size.low r := by
  have hsize : size.remainderReg.size = size := by cases size <;> rfl
  unfold Proc.setResult
  rw [getValue_setValue, hsize, low_cutValue]

theorem toNat_getValue_lt (r : Register) : (s.getValue r).toNat < 2 ^ r.size.bits := by
  unfold Proc.getValue Proc.getValueEx
  rw [BitVec.toNat_setWidth]
  exact lt_of_le_of_lt (Nat.mod_le _ _) (BitVec.isLt _)

end Registers

/-! ## Unsigned division -/

section Unsigned

variable {S : MemoryStream μ} {I : Insn} {s : Proc μ} {divisor : Value} {size : Size}

theorem DivisionRun.congr {c : DivCommand} {size : Size} {x y : Int} {run run' : Exec μ Unit}
    (h : run s = run' s) (hr : DivisionRun c size s x y run') : DivisionRun c size s x y run := by
  cases hr with
  | fault e t hrun hf => exact .fault e t (h.trans hrun) hf
  | result t hrun h0 hfit hq hr => exact .result t (h.trans hrun) h0 hfit hq hr

/-- `Diana_Call_div8`, `Diana_Call_div16` and `Diana_Call_div32`. -/
def divWith (src divisor : Value) (size : Size) (failure : Status) : Exec μ Unit := do
  if cutValue divisor size = 0 then throw (.command .divisionByZero)
  if BitVec.ofNat 64 (2 ^ size.bits - 1) < src / cutValue divisor size then throw (.command failure)
  setRegs [(size.quotientReg, src / cutValue divisor size),
    (size.remainderReg, src % cutValue divisor size)]

theorem toNat_low_of_lt {v : Value} {size : Size} (h : v.toNat < 2 ^ size.bits) :
    (size.low v).toNat = v.toNat := by
  rw [Size.low, BitVec.toNat_setWidth, Nat.mod_eq_of_lt h]

/-- The results of an unsigned division, where the quotient is a number of the size. -/
theorem run_of_udiv {size : Size} {run : Exec μ Unit} {q r : Value} {x y : Nat} (hy : 0 < y)
    (hyb : y < 2 ^ size.bits) (hq : q.toNat = x / y) (hr : r.toNat = x % y)
    (hfit : x / y < 2 ^ size.bits) (hrun : run s = .ok () (s.setResult size q r)) :
    DivisionRun .div size s x y run := by
  have hdiv : (x : Int).tdiv y = ((x / y : Nat) : Int) := rfl
  have hmod : (x : Int).tmod y = ((x % y : Nat) : Int) := rfl
  refine .result _ hrun (by omega) ?_ ?_ ?_
  · rw [hdiv]
    exact ⟨Int.natCast_nonneg _, by exact_mod_cast hfit⟩
  · change ((size.low _).toNat : Int) = _
    rw [low_quotient, toNat_low_of_lt (by omega), hq, hdiv]
  · change ((size.low _).toNat : Int) = _
    have := Nat.mod_lt x hy
    rw [low_remainder, toNat_low_of_lt (by omega), hr, hmod]

theorem not_fits_of_udiv {n x y : Nat} (h : 2 ^ n ≤ x / y) :
    ¬ DivCommand.div.Fits n ((x : Int).tdiv y) := by
  intro hfit
  have hlt : ((x / y : Nat) : Int) < 2 ^ n := hfit.2
  have : x / y < 2 ^ n := by exact_mod_cast hlt
  omega

theorem divWith_run {src : Value} {size : Size} (failure : Status) (hsize : size ≠ .qword)
    (hsrc : src.toNat = (s.dividend size).toNat) :
    DivisionRun .div size s (DivCommand.div.number (s.dividend size))
    (DivCommand.div.number (size.low divisor))
      (divWith src divisor size failure) := by
  have hcut : (cutValue divisor size).toNat = (size.low divisor).toNat :=
    toNat_cutValue divisor size
  have hbits : size.bits ≤ 32 := by cases size <;> first | decide | exact absurd rfl hsize
  have hlow := (size.low divisor).isLt
  change DivisionRun .div size s ((s.dividend size).toNat : Int) ((size.low divisor).toNat : Int) _
  by_cases h0 : cutValue divisor size = 0
  · refine .fault _ s (by rw [divWith, if_pos h0]; rfl) (.inl ?_)
    rw [← hcut, h0]
    rfl
  · have hpos : 0 < (size.low divisor).toNat := by
      rw [← hcut]
      exact Nat.pos_of_ne_zero fun h => h0 (BitVec.eq_of_toNat_eq h)
    have hq : (src / cutValue divisor size).toNat =
        (s.dividend size).toNat / (size.low divisor).toNat := by
      rw [BitVec.toNat_udiv, hcut, hsrc]
    have hr : (src % cutValue divisor size).toNat =
        (s.dividend size).toNat % (size.low divisor).toNat := by
      rw [BitVec.toNat_umod, hcut, hsrc]
    have hmax : (BitVec.ofNat 64 (2 ^ size.bits - 1)).toNat = 2 ^ size.bits - 1 := by
      rw [BitVec.toNat_ofNat, Nat.mod_eq_of_lt]
      exact lt_of_le_of_lt (Nat.sub_le_sub_right (Nat.pow_le_pow_right (by decide) hbits) 1)
        (by decide)
    have hone := Nat.one_le_two_pow (n := size.bits)
    by_cases hbig : BitVec.ofNat 64 (2 ^ size.bits - 1) < src / cutValue divisor size
    · have hrun : (divWith src divisor size failure : Exec μ Unit) s =
          .error (.command failure) s := by
        rw [divWith, if_neg h0]
        dsimp only
        rw [if_pos hbig]
        rfl
      refine .fault _ s hrun (.inr ?_)
      have : 2 ^ size.bits - 1 < (src / cutValue divisor size).toNat := by
        rw [← hmax]
        exact hbig
      exact not_fits_of_udiv (by omega)
    · have : (src / cutValue divisor size).toNat ≤ 2 ^ size.bits - 1 := by
        rw [← hmax]
        exact BitVec.not_lt.1 hbig
      refine run_of_udiv hpos hlow hq hr (by omega) ?_
      rw [divWith, if_neg h0]
      dsimp only
      rw [if_neg hbig]
      rfl

/-- Two registers side by side. -/
theorem toNat_joined {n : Nat} {high low : Value} (hn : n ≤ 32) (hh : high.toNat < 2 ^ n)
    (hl : low.toNat < 2 ^ n) :
    (high <<< n ||| low).toNat = high.toNat * 2 ^ n + low.toNat ∧
    high.toNat * 2 ^ n + low.toNat < 2 ^ (2 * n) := by
  have hpow : 2 ^ (2 * n) = 2 ^ n * 2 ^ n := by rw [Nat.two_mul, Nat.pow_add]
  have hlt : high.toNat * 2 ^ n + low.toNat < 2 ^ (2 * n) := by
    rw [hpow]
    nlinarith
  have h64 : 2 ^ (2 * n) ≤ 2 ^ 64 := Nat.pow_le_pow_right (by decide) (by omega)
  refine ⟨?_, hlt⟩
  rw [BitVec.toNat_or, BitVec.toNat_shiftLeft, Nat.shiftLeft_eq, Nat.mod_eq_of_lt (by omega),
    ← Nat.shiftLeft_eq, ← Nat.shiftLeft_add_eq_or_of_lt hl]

/-- The dividend in the two registers, joined by the code. -/
theorem toNat_dividend (s : Proc μ) {size : Size} (h : size = .word ∨ size = .dword) {n : Nat}
    {high low : Value} (hn : n = size.bits) (hhigh : high = s.getValue size.remainderReg)
    (hlow : low = s.getValue size.quotientReg) :
    (high <<< n ||| low).toNat = (s.dividend size).toNat := by
  subst hn hhigh hlow
  have hh := toNat_getValue_lt s size.remainderReg
  have hl := toNat_getValue_lt s size.quotientReg
  have hrs : size.remainderReg.size = size := by cases size <;> rfl
  have hqs : size.quotientReg.size = size := by cases size <;> rfl
  rw [hrs] at hh
  rw [hqs] at hl
  obtain ⟨hjoin, hlt⟩ := toNat_joined (by rcases h with rfl | rfl <;> decide) hh hl
  unfold Proc.dividend
  rw [hjoin, BitVec.toNat_ofNat]
  rcases h with rfl | rfl
  · exact (Nat.mod_eq_of_lt hlt).symm
  · exact (Nat.mod_eq_of_lt hlt).symm

theorem toNat_dividend_byte (s : Proc μ) :
    (s.getValue (.r16 0)).toNat = (s.dividend .byte).toNat := by
  have h : (s.getValue (.r16 0)).toNat < 2 ^ 16 := toNat_getValue_lt s (.r16 0)
  unfold Proc.dividend
  rw [BitVec.toNat_ofNat]
  exact (Nat.mod_eq_of_lt h).symm

theorem toNat_dividend_qword (s : Proc μ) :
    (s.dividend .qword).toNat = join (s.getValue (.r64 0)) (s.getValue (.r64 2)) := by
  have hh := (s.getValue (.r64 2)).isLt
  have hl := (s.getValue (.r64 0)).isLt
  have hlt : join (s.getValue (.r64 0)) (s.getValue (.r64 2)) < 2 ^ 128 := by
    unfold join
    omega
  unfold Proc.dividend
  rw [BitVec.toNat_ofNat]
  exact Nat.mod_eq_of_lt hlt

/-- `Diana_Call_div64` -/
def divQword (divisor : Value) (s : Proc μ) : Exec μ Unit := do
  if divisor = 0 then throw (.command .divisionByZero)
  match div64 (s.getValue (.r64 0)) (s.getValue (.r64 2)) divisor with
  | none => throw (.command .divisionByZero)
  | some (q, r) => setRegs [(.r64 0, q), (.r64 2, r)]

/-- The switch of `Diana_Call_div`. -/
theorem callDiv_eq (hread : getOperand S I 0 s = .ok (divisor, size) s) :
    callDiv S I s =
      (match I.firstSize with
      | .qword => divQword divisor s
      | .dword =>
        divWith (s.getValue (.r32 2) <<< 32 ||| s.getValue (.r32 0)) divisor .dword
        .divisionOverflow
      | .word =>
        divWith (s.getValue (.r16 2) <<< 16 ||| s.getValue (.r16 0)) divisor .word .divisionOverflow
      | .byte => divWith (s.getValue (.r16 0)) divisor .byte .divisionByZero : Exec μ Unit) s := by
  unfold callDiv
  rw [bind_of_ok hread]
  dsimp only
  rw [get_bind]
  cases I.firstSize <;> rfl

theorem divQword_run :
    DivisionRun .div .qword s (DivCommand.div.number (s.dividend .qword))
      (DivCommand.div.number (Size.qword.low divisor)) (divQword divisor s) := by
  have hlow : (Size.qword.low divisor).toNat = divisor.toNat := toNat_low_of_lt divisor.isLt
  change DivisionRun .div .qword s ((s.dividend .qword).toNat : Int)
    ((Size.qword.low divisor).toNat : Int) _
  rw [toNat_dividend_qword, hlow]
  unfold divQword
  by_cases h0 : divisor = 0
  · rw [if_pos h0]
    exact .fault _ s rfl (.inl (by rw [h0]; rfl))
  · rw [if_neg h0]
    have hpos : 0 < divisor.toNat := Nat.pos_of_ne_zero fun h => h0 (BitVec.eq_of_toNat_eq h)
    have hspec := div64_spec (s.getValue (.r64 0)) (s.getValue (.r64 2)) divisor h0
    dsimp only
    cases hd : div64 (s.getValue (.r64 0)) (s.getValue (.r64 2)) divisor with
    | none =>
      rw [hd] at hspec
      have hle : 2 ^ 64 ≤ join (s.getValue (.r64 0)) (s.getValue (.r64 2)) / divisor.toNat :=
        (Nat.le_div_iff_mul_le hpos).2 (by rwa [Nat.mul_comm] at hspec)
      exact .fault _ s rfl (.inr (not_fits_of_udiv hle))
    | some p =>
      obtain ⟨q, r⟩ := p
      rw [hd] at hspec
      obtain ⟨hq, hr⟩ := hspec
      exact run_of_udiv hpos divisor.isLt hq hr (hq ▸ q.isLt) rfl

/-- `div` meets its specification. -/
theorem callDiv_run (hread : getOperand S I 0 s = .ok (divisor, size) s) :
    DivisionRun .div I.firstSize s (DivCommand.div.number (s.dividend I.firstSize))
      (DivCommand.div.number (I.firstSize.low divisor)) (callDiv S I) := by
  refine .congr (callDiv_eq hread) ?_
  cases I.firstSize with
  | byte => exact divWith_run .divisionByZero (by decide) (toNat_dividend_byte s)
  | word =>
    exact divWith_run .divisionOverflow (by decide) (toNat_dividend s (.inl rfl) rfl rfl rfl)
  | dword =>
    exact divWith_run .divisionOverflow (by decide) (toNat_dividend s (.inr rfl) rfl rfl rfl)
  | qword => exact divQword_run

end Unsigned

/-! ## Signed division -/

section SignedRuns

variable {S : MemoryStream μ} {I : Insn} {s : Proc μ} {divisor : Value} {size : Size}

/-- The gap, by the quotient. -/
theorem inGap_iff {n : Nat} {x y : Int} (hy : y ≠ 0) :
    InGap n x y ↔ ¬ DivCommand.idiv.Fits n (x.tdiv y) ∧ (x.tdiv y).natAbs < 2 ^ n := by
  have hpos : 0 < y.natAbs := Int.natAbs_pos.2 hy
  have hhalf : ((2 ^ (n - 1) : Nat) : Int) = 2 ^ (n - 1) := by norm_cast
  unfold InGap DivCommand.Fits
  rw [← Nat.le_div_iff_mul_le hpos, ← Nat.div_lt_iff_lt_mul hpos, Int.natAbs_tdiv, tdiv_of_signs]
  change _ ↔ _ ∧ x.natAbs / y.natAbs < 2 ^ n
  refine and_congr_left fun _ => ?_
  dsimp only
  rw [← hhalf]
  have hone := Nat.one_le_two_pow (n := n - 1)
  generalize x.natAbs / y.natAbs = k
  generalize 2 ^ (n - 1) = half at hone
  split <;> omega

theorem toInt_signedPart : (signedPart divisor size).toInt = (size.low divisor).toInt :=
  BitVec.toInt_signExtend_of_le size.bits_le

/-- A word that is a signed number of `n` bits. -/
theorem toInt_setWidth_of_fits {n : Nat} (hpos : 0 < n) (hn : n ≤ 64) {v : Value}
    (h : DivCommand.idiv.Fits n v.toInt) : (v.setWidth n).toInt = v.toInt := by
  have hdvd : 2 ^ n ∣ 2 ^ 64 := Nat.pow_dvd_pow 2 hn
  have hhalf : ((2 ^ n : Nat) : Int) = 2 ^ (n - 1) * 2 := by
    rw [← Nat.two_pow_pred_mul_two hpos]
    norm_cast
  obtain ⟨h1, h2⟩ := h
  rw [BitVec.toInt_setWidth, ← Int.bmod_bmod_of_dvd hdvd, ← BitVec.toInt_eq_toNat_bmod]
  exact Int.bmod_eq_of_le_mul_two (by omega) (by omega)

theorem toInt_low_of_fits {v : Value} (h : DivCommand.idiv.Fits size.bits v.toInt) :
    (size.low v).toInt = v.toInt :=
  toInt_setWidth_of_fits size.bits_pos size.bits_le h

theorem natAbs_low_le (size : Size) (v : Value) :
    (size.low v).toInt.natAbs ≤ 2 ^ (size.bits - 1) := by
  have h1 := (size.low v).toInt_lt
  have h2 := (size.low v).le_toInt
  have hhalf : ((2 ^ (size.bits - 1) : Nat) : Int) = 2 ^ (size.bits - 1) := by norm_cast
  rw [← hhalf] at h1 h2
  omega

/-- The remainder is a signed number of the size. -/
theorem fits_tmod {n : Nat} {x y : Int} (hy : y ≠ 0) (hb : y.natAbs ≤ 2 ^ (n - 1)) :
    DivCommand.idiv.Fits n (x.tmod y) := by
  have hlt := Nat.mod_lt x.natAbs (Int.natAbs_pos.2 hy)
  have habs : (x.tmod y).natAbs = x.natAbs % y.natAbs := Int.natAbs_tmod x y
  have hhalf : ((2 ^ (n - 1) : Nat) : Int) = 2 ^ (n - 1) := by norm_cast
  unfold DivCommand.Fits
  dsimp only
  rw [← hhalf]
  omega

section Narrow

variable {dividend : Value} {bound : Int} {failure : Status} {x : Int}

theorem idivWith_of_zero (h : (size.low divisor).toInt = 0) :
    (idivWith dividend divisor bound failure size size.quotientReg size.remainderReg :
      Exec μ Unit) s = .error (.command .divisionByZero) s := by
  have h0 : signedPart divisor size = 0 := BitVec.eq_of_toInt_eq (toInt_signedPart.trans h)
  unfold idivWith
  rw [if_pos h0]
  rfl

variable (hy : (size.low divisor).toInt ≠ 0)
  (hover : ¬ (dividend.toInt = -2 ^ 63 ∧ (size.low divisor).toInt = -1))

include hy hover

omit hy in
/-- The quotient the code computes. -/
theorem toInt_quotient : (dividend.sdiv (signedPart divisor size)).toInt =
    dividend.toInt.tdiv (size.low divisor).toInt := by
  rw [BitVec.toInt_sdiv_of_ne_or_ne, toInt_signedPart]
  by_contra h
  obtain ⟨h1, h2⟩ := not_or.1 h
  rw [not_not] at h1 h2
  refine hover ⟨?_, ?_⟩
  · rw [h1]
    decide
  · rw [← toInt_signedPart, h2]
    decide

theorem idivWith_of_gt (h : bound < dividend.toInt.tdiv (size.low divisor).toInt ∨
      dividend.toInt.tdiv (size.low divisor).toInt < -bound) :
    (idivWith dividend divisor bound failure size size.quotientReg size.remainderReg :
      Exec μ Unit) s = .error (.command failure) s := by
  have h0 : signedPart divisor size ≠ 0 :=
    fun h0 => hy (toInt_signedPart.symm.trans (by rw [h0]; rfl))
  rw [← toInt_quotient hover] at h
  unfold idivWith
  rw [if_neg h0]
  dsimp only
  rw [if_pos h]
  rfl

theorem idivWith_of_le (h : ¬ (bound < dividend.toInt.tdiv (size.low divisor).toInt ∨
      dividend.toInt.tdiv (size.low divisor).toInt < -bound)) :
    (idivWith dividend divisor bound failure size size.quotientReg size.remainderReg :
      Exec μ Unit) s = .ok ()
      (s.setResult size (dividend.sdiv (signedPart divisor size))
        (dividend.srem (signedPart divisor size))) := by
  have h0 : signedPart divisor size ≠ 0 :=
    fun h0 => hy (toInt_signedPart.symm.trans (by rw [h0]; rfl))
  rw [← toInt_quotient hover] at h
  unfold idivWith
  rw [if_neg h0]
  dsimp only
  rw [if_neg h]
  exact setRegs_result s size _ _

/-- Outside the gap, a division of 8, 16 or 32 bits meets its specification. -/
theorem idivWith_run (hbound : bound = 2 ^ size.bits - 1)
    (hgap : ¬ InGap size.bits dividend.toInt (size.low divisor).toInt) :
    DivisionRun .idiv size s dividend.toInt (size.low divisor).toInt
      (idivWith dividend divisor bound failure size size.quotientReg size.remainderReg) := by
  have hpow : ((2 ^ size.bits : Nat) : Int) = 2 ^ size.bits := by norm_cast
  rw [inGap_iff hy, not_and] at hgap
  by_cases hfit : DivCommand.idiv.Fits size.bits (dividend.toInt.tdiv (size.low divisor).toInt)
  · have hle : ¬ (bound < dividend.toInt.tdiv (size.low divisor).toInt ∨
        dividend.toInt.tdiv (size.low divisor).toInt < -bound) := by
      obtain ⟨h1, h2⟩ := hfit
      have hmono : (2 : Int) ^ (size.bits - 1) < 2 ^ size.bits :=
        pow_lt_pow_right₀ (by decide) (by have := size.bits_pos; omega)
      rw [hbound]
      omega
    refine .result _ (idivWith_of_le hy hover hle) hy hfit ?_ ?_
    · rw [low_quotient]
      have hq := toInt_quotient hover
      change (size.low _).toInt = _
      rw [toInt_low_of_fits (hq ▸ hfit), hq]
    · rw [low_remainder]
      have hr : (dividend.srem (signedPart divisor size)).toInt =
          dividend.toInt.tmod (size.low divisor).toInt := by
        rw [BitVec.toInt_srem, toInt_signedPart]
      change (size.low _).toInt = _
      rw [toInt_low_of_fits (hr ▸ fits_tmod hy (natAbs_low_le size divisor)), hr]
  · have hbig := hgap hfit
    refine .fault _ s (idivWith_of_gt hy hover ?_) (.inr hfit)
    rw [hbound, ← hpow]
    omega

end Narrow

/-- `Diana_Call_idiv64` -/
def idivQword (divisor : Value) (s : Proc μ) : Exec μ Unit := do
  if divisor = 0 then throw (.command .divisionByZero)
  match idiv64 (s.getValue (.r64 0)) (s.getValue (.r64 2)) divisor with
  | none => throw (.command .divisionByZero)
  | some (q, r) => setRegs [(.r64 0, q), (.r64 2, r)]

/-- The switch of `Diana_Call_idiv`. -/
theorem callIdiv_eq (hread : getOperand S I 0 s = .ok (divisor, size) s) :
    callIdiv S I s =
      (match I.firstSize with
      | .qword => idivQword divisor s
      | .dword =>
        idivWith (s.getValue (.r32 2) <<< 32 ||| s.getValue (.r32 0)) divisor 0xFFFFFFFF
        .divisionOverflow .dword (.r32 0) (.r32 2)
      | .word =>
        idivWith (signedPart (s.getValue (.r16 2) <<< 16 ||| s.getValue (.r16 0)) .dword)
        divisor 0xFFFF .divisionOverflow .word (.r16 0) (.r16 2)
      | .byte =>
        idivWith (signedPart (s.getValue (.r16 0)) .word) divisor 0xFF .divisionByZero .byte
        (.r8 0) (.r8h 0) : Exec μ Unit) s := by
  unfold callIdiv
  rw [bind_of_ok hread]
  dsimp only
  rw [get_bind]
  cases I.firstSize <;> rfl

theorem idivQword_run :
    DivisionRun .idiv .qword s (DivCommand.idiv.number (s.dividend .qword))
      (DivCommand.idiv.number (Size.qword.low divisor)) (idivQword divisor s) := by
  have hD : (s.dividend .qword).toInt = signedJoin (s.getValue (.r64 0)) (s.getValue (.r64 2)) :=
    rfl
  have hd : (Size.qword.low divisor).toInt = divisor.toInt :=
    congrArg BitVec.toInt (BitVec.setWidth_eq divisor)
  change DivisionRun .idiv .qword s (s.dividend .qword).toInt (Size.qword.low divisor).toInt _
  rw [hD, hd]
  unfold idivQword
  by_cases h0 : divisor = 0
  · rw [if_pos h0]
    exact .fault _ s rfl (.inl (by rw [h0]; rfl))
  · rw [if_neg h0]
    have hy : divisor.toInt ≠ 0 := fun h => h0 (BitVec.eq_of_toInt_eq h)
    have hspec := idiv64_spec (s.getValue (.r64 0)) (s.getValue (.r64 2)) divisor h0
    dsimp only
    cases hrun : idiv64 (s.getValue (.r64 0)) (s.getValue (.r64 2)) divisor with
    | none =>
      rw [hrun] at hspec
      exact .fault _ s rfl (.inr hspec)
    | some p =>
      obtain ⟨q, r⟩ := p
      rw [hrun] at hspec
      obtain ⟨hq, hr⟩ := hspec
      have hlow : ∀ v : Value, (Size.qword.low v).toInt = v.toInt :=
        fun v => congrArg BitVec.toInt (BitVec.setWidth_eq v)
      refine .result _ (setRegs_result s .qword q r) hy ?_ ?_ ?_
      · rw [← hq]
        exact ⟨q.le_toInt, q.toInt_lt⟩
      · rw [low_quotient]
        exact (hlow q).trans hq
      · rw [low_remainder]
        exact (hlow r).trans hr

theorem toInt_of_toNat {m n : Nat} (h : m = n) {v : BitVec m} {w : BitVec n}
    (hnat : v.toNat = w.toNat) : v.toInt = w.toInt := by
  subst h
  rw [BitVec.eq_of_toNat_eq hnat]

/-- The division of 8, 16 or 32 bits that `idiv` comes down to. -/
theorem callIdiv_narrow (hread : getOperand S I 0 s = .ok (divisor, size) s)
    (h : I.firstSize ≠ .qword) :
    ∃ dividend failure, dividend.toInt = (s.dividend I.firstSize).toInt ∧
      callIdiv S I s = (idivWith dividend divisor (2 ^ I.firstSize.bits - 1) failure I.firstSize
        I.firstSize.quotientReg I.firstSize.remainderReg : Exec μ Unit) s := by
  rw [callIdiv_eq hread]
  cases hsize : I.firstSize with
  | byte =>
    refine ⟨_, _, ?_, rfl⟩
    rw [toInt_signedPart]
    exact toInt_of_toNat rfl ((toNat_low_of_lt (toNat_getValue_lt s (.r16 0))).trans
      (toNat_dividend_byte s))
  | word =>
    refine ⟨_, _, ?_, rfl⟩
    have hnat := toNat_dividend s (.inl rfl) (n := 16) rfl rfl rfl
    rw [toInt_signedPart]
    refine toInt_of_toNat rfl ((toNat_low_of_lt ?_).trans hnat)
    exact hnat.symm ▸ (s.dividend .word).isLt
  | dword =>
    refine ⟨_, _, ?_, rfl⟩
    exact toInt_of_toNat rfl (toNat_dividend s (.inr rfl) rfl rfl rfl)
  | qword => exact absurd hsize h

/-- The division of C overflows for the most negative dividend of 32 or 64 bits and the divisor
-1. -/
theorem hostOverflows_iff (hsize : size ≠ .qword) :
    (∃ d ∈ DivCommand.idiv.hostDivision size s divisor, d.Overflows) ↔
      size ≠ .byte ∧ (s.dividend size).toInt = -2 ^ (2 * size.bits - 1) ∧
      (size.low divisor).toInt = -1 := by
  have hone : ∀ {w : Nat} (x : BitVec w), 0 < w → (x = -1 ↔ x.toInt = -1) := by
    intro w x hw
    rw [← BitVec.toInt_inj]
    change x.toInt = (-1#w).toInt ↔ _
    rw [BitVec.neg_one_eq_allOnes, BitVec.toInt_allOnes, if_pos hw]
  cases size with
  | byte =>
    refine ⟨?_, fun h => absurd rfl h.1⟩
    rintro ⟨d, hd, hmin, -⟩
    cases hd
    have hmin : ((s.dividend .byte).signExtend 32).toInt = (BitVec.intMin 32).toInt :=
      congrArg BitVec.toInt hmin
    rw [BitVec.toInt_signExtend_of_le (by decide)] at hmin
    have hlow : -2 ^ 15 ≤ (s.dividend .byte).toInt := (s.dividend .byte).le_toInt
    have hval : (BitVec.intMin 32).toInt = -2 ^ 31 := by decide
    rw [hval] at hmin
    omega
  | word =>
    have hval : (BitVec.intMin 32).toInt = -2 ^ 31 := by decide
    change (∃ d ∈ some (HostDivision.mk 32 ((s.dividend .word).signExtend 32)
      ((Size.word.low divisor).signExtend 32)), d.Overflows) ↔ _
    simp only [Option.mem_some_iff, exists_eq_left', HostDivision.Overflows]
    rw [hone _ (by decide), ← BitVec.toInt_inj, hval, BitVec.toInt_signExtend_of_le (by decide),
      BitVec.toInt_signExtend_of_le (by decide)]
    exact ⟨fun h => ⟨by decide, h⟩, fun h => h.2⟩
  | dword =>
    have hval : (BitVec.intMin 64).toInt = -2 ^ 63 := by decide
    change (∃ d ∈ some (HostDivision.mk 64 ((s.dividend .dword).signExtend 64)
      ((Size.dword.low divisor).signExtend 64)), d.Overflows) ↔ _
    simp only [Option.mem_some_iff, exists_eq_left', HostDivision.Overflows]
    rw [hone _ (by decide), ← BitVec.toInt_inj, hval, BitVec.toInt_signExtend_of_le (by decide),
      BitVec.toInt_signExtend_of_le (by decide)]
    exact ⟨fun h => ⟨by decide, h⟩, fun h => h.2⟩
  | qword => exact absurd rfl hsize

/-- No dividend of 8 or 16 bits is the most negative one of 64. -/
theorem not_overflow64 (hsize : size ≠ .qword)
    (h : ¬ (size ≠ .byte ∧ (s.dividend size).toInt = -2 ^ (2 * size.bits - 1) ∧
      (size.low divisor).toInt = -1)) :
    ¬ ((s.dividend size).toInt = -2 ^ 63 ∧ (size.low divisor).toInt = -1) := by
  rintro ⟨hD, hd⟩
  cases size with
  | byte =>
    have hlow : -2 ^ 15 ≤ (s.dividend .byte).toInt := (s.dividend .byte).le_toInt
    omega
  | word =>
    have hlow : -2 ^ 31 ≤ (s.dividend .word).toInt := (s.dividend .word).le_toInt
    omega
  | dword => exact h ⟨by decide, hD, hd⟩
  | qword => exact absurd rfl hsize

end SignedRuns

/-! ## When a division is right -/

section Main

variable {S : MemoryStream μ} {I : Insn} {s : Proc μ} {divisor : Value} {size : Size}

theorem divides_div (hread : getOperand S I 0 s = .ok (divisor, size) s) :
    Divides .div S I s divisor :=
  divides_of_run (callDiv_run hread) nofun

theorem divides_qword (hread : getOperand S I 0 s = .ok (divisor, size) s)
    (h : I.firstSize = .qword) : Divides .idiv S I s divisor := by
  have hrun : DivisionRun .idiv .qword s (DivCommand.idiv.number (s.dividend .qword))
      (DivCommand.idiv.number (Size.qword.low divisor)) (callIdiv S I) := by
    refine .congr ?_ idivQword_run
    rw [callIdiv_eq hread, h]
  refine divides_of_run (by rw [h]; exact hrun) ?_
  rw [h]
  exact nofun

theorem divides_zero (hread : getOperand S I 0 s = .ok (divisor, size) s) (h : I.firstSize ≠ .qword)
    (h0 : (I.firstSize.low divisor).toInt = 0) : Divides .idiv S I s divisor := by
  obtain ⟨dividend, failure, hD, hrun⟩ := callIdiv_narrow hread h
  refine divides_of_run (.fault _ s (hrun.trans (idivWith_of_zero h0)) (.inl h0)) fun d hd hover =>
    ?_
  have hone := ((hostOverflows_iff h).1 ⟨d, hd, hover⟩).2.2
  rw [h0] at hone
  cases hone

theorem divides_narrow (hread : getOperand S I 0 s = .ok (divisor, size) s)
    (h : I.firstSize ≠ .qword) (h0 : (I.firstSize.low divisor).toInt ≠ 0)
    (hgap : ¬ InGap I.firstSize.bits (s.dividend I.firstSize).toInt (I.firstSize.low divisor).toInt)
    (hover : ¬ (I.firstSize ≠ .byte ∧
      (s.dividend I.firstSize).toInt = -2 ^ (2 * I.firstSize.bits - 1) ∧
      (I.firstSize.low divisor).toInt = -1)) : Divides .idiv S I s divisor := by
  obtain ⟨dividend, failure, hD, hrun⟩ := callIdiv_narrow hread h
  have h64 := not_overflow64 h hover
  rw [← hD] at hgap h64
  refine divides_of_run (.congr hrun ?_) fun d hd hd' =>
    hover ((hostOverflows_iff h).1 ⟨d, hd, hd'⟩)
  change DivisionRun _ _ _ (s.dividend I.firstSize).toInt _ _
  rw [← hD]
  exact idivWith_run h0 h64 rfl hgap

/-- In the gap the quotient is cut and no error is returned. -/
theorem not_divides_of_inGap (hread : getOperand S I 0 s = .ok (divisor, size) s)
    (h : I.firstSize ≠ .qword) (h0 : (I.firstSize.low divisor).toInt ≠ 0)
    (hgap : InGap I.firstSize.bits (s.dividend I.firstSize).toInt (I.firstSize.low divisor).toInt) :
    ¬ Divides .idiv S I s divisor := by
  intro hdiv
  have hover : ¬ (I.firstSize ≠ .byte ∧
    (s.dividend I.firstSize).toInt = -2 ^ (2 * I.firstSize.bits - 1) ∧
      (I.firstSize.low divisor).toInt = -1) := by
    intro hover
    obtain ⟨d, hd, hd'⟩ := (hostOverflows_iff h).2 hover
    exact hdiv.exact d hd hd'
  obtain ⟨dividend, failure, hD, hrun⟩ := callIdiv_narrow hread h
  have h64 := not_overflow64 h hover
  obtain ⟨hfit, hlt⟩ := (inGap_iff h0).1 hgap
  obtain ⟨e, t, herr⟩ := hdiv.faults.2 (.inr hfit)
  rw [← hD] at h64 hlt
  have hpow : ((2 ^ I.firstSize.bits : Nat) : Int) = 2 ^ I.firstSize.bits := by norm_cast
  have hok : idivWith _ _ (2 ^ I.firstSize.bits - 1) failure _ _ _ s = _ :=
    idivWith_of_le h0 h64 (by rw [← hpow]; omega)
  cases (hrun.trans hok).symm.trans herr

/-- When `div` and `idiv` do what the architecture asks: a signed division of 8, 16 or 32
bits must have a quotient outside the gap between the signed and the unsigned limit, and
must not overflow in C. -/
theorem divides_iff (c : DivCommand) (hread : getOperand S I 0 s = .ok (divisor, size) s) :
    Divides c S I s divisor ↔
      c = .div ∨ I.firstSize = .qword ∨ (I.firstSize.low divisor).toInt = 0 ∨
        ¬ InGap I.firstSize.bits (s.dividend I.firstSize).toInt (I.firstSize.low divisor).toInt ∧
          ¬ (I.firstSize ≠ .byte ∧ (s.dividend I.firstSize).toInt =
            -2 ^ (2 * I.firstSize.bits - 1) ∧ (I.firstSize.low divisor).toInt = -1) := by
  cases c with
  | div => exact ⟨fun _ => .inl rfl, fun _ => divides_div hread⟩
  | idiv =>
    by_cases hsize : I.firstSize = .qword
    · exact ⟨fun _ => .inr (.inl hsize), fun _ => divides_qword hread hsize⟩
    by_cases h0 : (I.firstSize.low divisor).toInt = 0
    · exact ⟨fun _ => .inr (.inr (.inl h0)), fun _ => divides_zero hread hsize h0⟩
    constructor
    · intro hdiv
      refine .inr
        (.inr (.inr ⟨fun hgap => not_divides_of_inGap hread hsize h0 hgap hdiv, fun hover => ?_⟩))
      obtain ⟨d, hd, hd'⟩ := (hostOverflows_iff hsize).2 hover
      exact hdiv.exact d hd hd'
    · rintro (h | h | h | ⟨hgap, hover⟩)
      · cases h
      · exact absurd h hsize
      · exact absurd h h0
      · exact divides_narrow hread hsize h0 hgap hover

end Main

/-- `idiv cl` -/
def idivCl : Insn where
  command := .general .idiv
  operands := [⟨.register (.r8 1), .byte, .qword⟩]
  iPrefix := .none
  opsize := .dword
  addressSize := .qword
  rexW := false
  fullCmdSize := 2
  signExtends := false
  pushSeg := false
  lockable := false
  isEvex := false

/-- `ax = -7` and `cl = 2`. -/
theorem divides_idivCl :
    getOperand zeroStream idivCl 0 ((raxAt 0xFFF9).setValue (.r8 1) 2) =
        .ok (2, .byte) ((raxAt 0xFFF9).setValue (.r8 1) 2) ∧
      Divides .idiv zeroStream idivCl ((raxAt 0xFFF9).setValue (.r8 1) 2) 2 := by
  have hread : getOperand zeroStream idivCl 0 ((raxAt 0xFFF9).setValue (.r8 1) 2) =
      .ok (2, .byte) ((raxAt 0xFFF9).setValue (.r8 1) 2) := rfl
  refine ⟨hread, (divides_iff .idiv hread).2 (.inr (.inr (.inr ⟨?_, ?_⟩)))⟩
  · unfold InGap
    decide
  · decide

/-- `ax = 128` and `cl = 1`: the quotient 128 is no signed byte, and `al` is set to -128. -/
theorem not_divides_idivCl :
    ¬ Divides .idiv zeroStream idivCl ((raxAt 128).setValue (.r8 1) 1) 1 := by
  intro h
  obtain ⟨e, t, herr⟩ := h.faults.2 (.inr (by unfold DivCommand.Fits; decide))
  cases herr

end Diana.Processor
