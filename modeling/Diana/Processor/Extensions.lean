import Diana.Lib.Bits
import Diana.Processor.Effects
import Diana.Processor.Flags
import Diana.Processor.Multiplication

/-!
# General-register extensions

`diana_processor_cmd_ext.c`: `popcnt`, `lzcnt`, `tzcnt`, BMI1, BMI2, `crc32`, `movbe` and ADX. The
operands are in the order of the decoder.

* `visited_eq`: a loop over `tzcnt` and `blsr` finds the set bits, and `popcnt` of them;
* `pdep_pext`: the bits of a mask are taken out and put back;
* `mulx_spec`: the product from 32-bit halves;
* `addCarries_sums`: two interleaved chains of additions.
-/

namespace Diana.Processor

open Diana.Lib

variable {μ : Type} (S : MemoryStream μ) (I : Insn)

/-! ## Handlers -/

/-- `Di_SizeMask` -/
def sizeMask (size : Size) :
    Value := if size = .qword then ~~~0 else (1#64 <<< (8 * size.bytes)) - 1

/-- `Di_SetZFSF` -/
def setZFSF (flags value : Value) (size : Size) : Value :=
  let f := clearFlag (clearFlag flags flagZF) flagSF
  let value := value &&& sizeMask size
  setIf (setIf f flagZF (value == 0)) flagSF (hasBit value (signMask size))

/-- `DI_EXT_ARITH_FLAGS_CLEAR` -/
def clearArith (flags : Value) : Value :=
  [flagCF, flagPF, flagAF, flagZF, flagSF, flagOF].foldl clearFlag flags

theorem and_sub_one_lt {value : Value} (h : value ≠ 0) :
    (value &&& (value - 1)).toNat < value.toNat := by
  have hpos : 0 < value.toNat := Nat.pos_of_ne_zero fun hzero => h (BitVec.eq_of_toNat_eq hzero)
  have hless : (value - 1).toNat = value.toNat - 1 := BitVec.toNat_sub_of_le hpos
  rw [BitVec.toNat_and, hless]
  exact Nat.lt_of_le_of_lt Nat.and_le_right (Nat.sub_lt hpos Nat.one_pos)

/-- The loop of `Diana_Call_popcnt`. -/
def popcntLoop (value count : Value) : Value :=
  if value = 0 then count else popcntLoop (value &&& (value - 1)) (count + 1)
termination_by value.toNat
decreasing_by exact and_sub_one_lt ‹_›

def popcntValue (src : Value) (size : Size) : Value := popcntLoop (src &&& sizeMask size) 0

def callPopcnt : Exec μ Unit := do
  let _ ← getOperand S I 0
  let (src, srcSize) ← getOperand S I 1
  modifyFlags fun f => setIf (clearArith f) flagZF (src &&& sizeMask srcSize == 0)
  setOperand S I 0 (popcntValue src srcSize)

/-- The loop of `lzcnt`; `left` is what `count` is short of the size. -/
def leadingLoop (value : Value) : (left : Nat) → (count bit : Value) → Value
  | 0, count, _ => count
  | left + 1, count, bit =>
    if value &&& bit ≠ 0 then count else leadingLoop value left (count + 1) (bit >>> 1)

/-- The loop of `tzcnt`. -/
def trailingLoop (value : Value) : (left : Nat) → (count : Value) → Value
  | 0, count => count
  | left + 1, count =>
    if (value >>> count) &&& 1 ≠ 0 then count else trailingLoop value left (count + 1)

def countZeros (leading : Bool) (src : Value) (size : Size) : Value :=
  let value := src &&& sizeMask size
  if leading then leadingLoop value (8 * size.bytes) 0 (1#64 <<< (8 * size.bytes - 1))
  else trailingLoop value (8 * size.bytes) 0

/-- `Di_CountZeros` -/
def callCountZeros (leading : Bool) : Exec μ Unit := do
  let _ ← getOperand S I 0
  let (src, srcSize) ← getOperand S I 1
  let count := countZeros leading src srcSize
  modifyFlags fun f =>
    setIf (setIf (clearFlag (clearFlag f flagCF) flagZF) flagCF (src &&& sizeMask srcSize == 0))
      flagZF (count == 0)
  setOperand S I 0 count

def callLzcnt : Exec μ Unit := callCountZeros S I true
def callTzcnt : Exec μ Unit := callCountZeros S I false

def callAndn : Exec μ Unit := do
  let (_, destSize) ← getOperand S I 0
  let (src1, _) ← getOperand S I 1
  let (src2, _) ← getOperand S I 2
  let dest := ~~~src1 &&& src2 &&& sizeMask destSize
  modifyFlags fun f => clearCFOF (setZFSF f dest destSize)
  setOperand S I 0 dest

def bextrValue (src control : Value) (size : Size) : Value :=
  let start := (control &&& 0xff).toNat
  let length := ((control >>> 8) &&& 0xff).toNat
  let src := src &&& sizeMask size
  let dest := if start < 8 * size.bytes then src >>> start else 0
  if length < 8 * size.bytes then dest &&& ((1#64 <<< length) - 1) else dest

def callBextr : Exec μ Unit := do
  let (_, destSize) ← getOperand S I 0
  let (src, _) ← getOperand S I 1
  let (control, _) ← getOperand S I 2
  let dest := bextrValue src control destSize
  modifyFlags fun f => clearCFOF (setZFSF f dest destSize)
  setOperand S I 0 dest

/-- `DiBlsOperation` -/
inductive BlsOperation where
  | blsi | blsmsk | blsr
  deriving DecidableEq, Repr

def blsValue (operation : BlsOperation) (src : Value) (size : Size) : Value :=
  let src := src &&& sizeMask size
  (match operation with
    | .blsi => (0 - src) &&& src
    | .blsmsk => (src - 1) ^^^ src
    | .blsr => (src - 1) &&& src) &&& sizeMask size

/-- `Di_Bls` -/
def callBls (operation : BlsOperation) : Exec μ Unit := do
  let (_, destSize) ← getOperand S I 0
  let (src, _) ← getOperand S I 1
  let dest := blsValue operation src destSize
  let zero := src &&& sizeMask destSize == 0
  modifyFlags fun f =>
    let f :=
      setIf (clearCFOF (setZFSF f dest destSize)) flagCF (if operation = .blsi then !zero else zero)
    if operation = .blsmsk then clearFlag f flagZF else f
  setOperand S I 0 dest

def bzhiValue (src control : Value) (size : Size) : Value :=
  let index := (control &&& 0xff).toNat
  let dest := src &&& sizeMask size
  if index < 8 * size.bytes then dest &&& ((1#64 <<< index) - 1) else dest

def callBzhi : Exec μ Unit := do
  let (_, destSize) ← getOperand S I 0
  let (src, _) ← getOperand S I 1
  let (control, _) ← getOperand S I 2
  let dest := bzhiValue src control destSize
  modifyFlags fun f =>
    setIf (clearCFOF (setZFSF f dest destSize)) flagCF
      (8 * destSize.bytes - 1 < (control &&& 0xff).toNat)
  setOperand S I 0 dest

/-- The product in 32-bit halves: `low` and `high`. -/
def mulxValue (a b : Value) : Value × Value :=
  let aLow := a &&& 0xffffffff#64
  let aHigh := a >>> 32
  let bLow := b &&& 0xffffffff#64
  let bHigh := b >>> 32
  let ll := aLow * bLow
  let lh := aLow * bHigh
  let hl := aHigh * bLow
  let hh := aHigh * bHigh
  let middle := (ll >>> 32) + (lh &&& 0xffffffff#64) + (hl &&& 0xffffffff#64)
  (middle <<< 32 ||| ll &&& 0xffffffff#64, hh + (lh >>> 32) + (hl >>> 32) + (middle >>> 32))

def callMulx : Exec μ Unit := do
  let (_, highSize) ← getOperand S I 0
  let _ ← getOperand S I 1
  let (src, _) ← getOperand S I 2
  let s ← get
  let (low, high) :=
    if highSize = .qword then mulxValue (s.getValue (.r64 2)) src
    else
      let product := cutValue (s.getValue (.r32 2)) .dword * cutValue src .dword
      (product &&& 0xffffffff#64, product >>> 32)
  setOperand S I 1 low
  setOperand S I 0 high

/-- The loop of `Di_BitsDepositExtract`. -/
def bitsLoop (deposit : Bool) (src mask : Value) : (turns : Nat) → (result bit k : Value) → Value
  | 0, result, _, _ => result
  | turns + 1, result, bit, k =>
    if mask &&& bit = 0 then bitsLoop deposit src mask turns result (bit <<< 1) k
    else
      let result :=
        if deposit then if src &&& k ≠ 0 then result ||| bit else result
        else if src &&& bit ≠ 0 then result ||| k else result
      bitsLoop deposit src mask turns result (bit <<< 1) (k <<< 1)

def bitsDepositExtract (deposit : Bool) (src mask : Value) (size : Size) : Value :=
  bitsLoop deposit src (mask &&& sizeMask size) (8 * size.bytes) 0 1 1

/-- `Di_BitsDepositExtract` -/
def callBitsDepositExtract (deposit : Bool) : Exec μ Unit := do
  let (_, destSize) ← getOperand S I 0
  let (src, _) ← getOperand S I 1
  let (mask, _) ← getOperand S I 2
  setOperand S I 0 (bitsDepositExtract deposit src mask destSize)

def callPdep : Exec μ Unit := callBitsDepositExtract S I true
def callPext : Exec μ Unit := callBitsDepositExtract S I false

def rorxValue (src imm : Value) (size : Size) : Value :=
  let count := (imm &&& (BitVec.ofNat 64 (8 * size.bytes) - 1)).toNat
  let src := src &&& sizeMask size
  if count ≠ 0 then (src >>> count ||| src <<< (8 * size.bytes - count)) &&& sizeMask size else src

def callRorx : Exec μ Unit := do
  let (_, destSize) ← getOperand S I 0
  let (src, _) ← getOperand S I 1
  let (imm, _) ← getOperand S I 2
  setOperand S I 0 (rorxValue src imm destSize)

/-- `DiShiftOperation` -/
inductive ShiftOperation where
  | sarx | shlx | shrx
  deriving DecidableEq, Repr

def shiftXValue (operation : ShiftOperation) (src shift : Value) (size : Size) : Value :=
  let count := (shift &&& (BitVec.ofNat 64 (8 * size.bytes) - 1)).toNat
  let src := src &&& sizeMask size
  (match operation with
    | .shlx => src <<< count
    | .shrx => src >>> count
    | .sarx =>
      if count ≠ 0 ∧ hasBit src (signMask size) then
        src >>> count ||| (sizeMask size &&& ~~~(sizeMask size >>> count))
      else src >>> count) &&& sizeMask size

/-- `Di_ShiftX` -/
def callShiftX (operation : ShiftOperation) : Exec μ Unit := do
  let (_, destSize) ← getOperand S I 0
  let (src, _) ← getOperand S I 1
  let (shift, _) ← getOperand S I 2
  setOperand S I 0 (shiftXValue operation src shift destSize)

/-- A bit of the loop of `Diana_Call_crc32`. -/
def crc32Bit (crc : BitVec 32) :
    BitVec 32 := (crc >>> 1) ^^^ (0x82F63B78#32 &&& (0#32 - (crc &&& 1#32)))

def crc32Byte (crc : BitVec 32) (b : Byte) : BitVec 32 := crc32Bit^[8] (crc ^^^ b.setWidth 32)

/-- The loop of `Diana_Call_crc32`, from the lowest byte of the source on. -/
def crc32Value (crc : BitVec 32) (src : Value) (size : Size) :
    BitVec 32 := (leBytes size.bytes src).foldl crc32Byte crc

def callCrc32 : Exec μ Unit := do
  let (dest, _) ← getOperand S I 0
  let (src, srcSize) ← getOperand S I 1
  setOperand S I 0 ((crc32Value (dest.setWidth 32) src srcSize).setWidth 64)

/-- The loop of `Diana_Call_movbe`. -/
def movbeValue (src : Value) (size : Size) : Value :=
  (List.range size.bytes).foldl
    (fun dest i => dest ||| ((src >>> (8 * i)) &&& 0xff) <<< (8 * (size.bytes - 1 - i))) 0

def callMovbe : Exec μ Unit := do
  let (_, destSize) ← getOperand S I 0
  let (src, _) ← getOperand S I 1
  setOperand S I 0 (movbeValue src destSize)

/-- The sum of `Di_AddCarry` and the carry out of it. -/
def addCarry (dest src carry : Value) (size : Size) : Value × Bool :=
  let dest := dest &&& sizeMask size
  let src := src &&& sizeMask size
  let sum := (dest + src + carry) &&& sizeMask size
  (sum, sum < dest || (carry != 0 && sum == dest))

/-- `Di_AddCarry` -/
def callAddCarry (overflowFlag : Bool) : Exec μ Unit := do
  let (dest, destSize) ← getOperand S I 0
  let (src, _) ← getOperand S I 1
  let s ← get
  let flag := if overflowFlag then flagOF else flagCF
  let (sum, carry) := addCarry dest src (if queryFlag s.flags flag then 1 else 0) destSize
  modifyFlags fun f => setIf (clearFlag f flag) flag carry
  setOperand S I 0 sum

def callAdcx : Exec μ Unit := callAddCarry S I false
def callAdox : Exec μ Unit := callAddCarry S I true

/-! ## Masks -/

theorem sizeMask_eq (size : Size) : sizeMask size = (BitVec.allOnes size.bits).setWidth 64 := by
  cases size <;> decide

/-- The bits of an operand. -/
theorem getLsbD_masked (v : Value) (size : Size) (i : Nat) :
    (v &&& sizeMask size).getLsbD i = (decide (i < size.bits) && v.getLsbD i) := by
  have hbits := size.bits_le
  rw [BitVec.getLsbD_and, sizeMask_eq, BitVec.getLsbD_setWidth, BitVec.getLsbD_allOnes]
  by_cases hi : i < size.bits
  · simp [hi, Nat.lt_of_lt_of_le hi hbits]
  · simp [hi]

theorem masked_eq_cutValue (v : Value) (size : Size) : v &&& sizeMask size = cutValue v size := by
  apply BitVec.eq_of_getLsbD_eq
  intro i hi
  rw [getLsbD_masked, cutValue_eq, BitVec.getLsbD_setWidth, Size.low, BitVec.getLsbD_setWidth]
  simp [hi]

/-! ## Set bits -/

/-- Each turn clears the lowest set bit. -/
theorem popcntLoop_eq (value count : Value) :
    popcntLoop value count = count + BitVec.ofNat 64 (rank value 64) := by
  fun_induction popcntLoop with
  | case1 count =>
    have hzero : rank (0 : Value) 64 = 0 := rfl
    rw [hzero]
    exact (BitVec.add_zero count).symm
  | case2 value count hne ih =>
    obtain ⟨k, hk⟩ := exists_lowest hne
    have hclear : ∀ j, (value &&& (value - 1)).getLsbD j = (value.getLsbD j && decide (j ≠ k)) := by
      intro j
      rw [BitVec.getLsbD_and]
      change (value.getLsbD j && (value - 1#64).getLsbD j) = _
      rw [hk.getLsbD_sub_one]
      by_cases hj : j < k
      · simp [hj, hk.2 j hj]
      · simp [hj]
    have hrank := rank_clear (i := 64) hk.1 fun j _ => hclear j
    rw [if_pos hk.lt] at hrank
    rw [ih, ← hrank, BitVec.add_assoc, BitVec.ofNat_add, BitVec.add_comm (BitVec.ofNat 64 _)]
    rfl

theorem toNat_popcntValue (src : Value) (size : Size) :
    (popcntValue src size).toNat = rank src size.bits := by
  have hbits := size.bits_le
  have hmask : rank (src &&& sizeMask size) 64 = rank src size.bits := by
    have hle : ∀ i, size.bits ≤ i →
        rank (src &&& sizeMask size) i = rank (src &&& sizeMask size) size.bits := by
      intro i hi
      induction hi with
      | refl => rfl
      | step hi ih =>
        rw [rank_succ, ih, getLsbD_masked, decide_eq_false (Nat.not_lt.2 hi), Bool.false_and,
          if_neg Bool.false_ne_true, Nat.add_zero]
    rw [hle 64 hbits]
    refine rank_congr fun j hj => ?_
    rw [getLsbD_masked, decide_eq_true hj, Bool.true_and]
  have hle := rank_le src size.bits
  rw [popcntValue, popcntLoop_eq, hmask]
  change (0#64 + _).toNat = _
  rw [BitVec.zero_add, BitVec.toNat_ofNat]
  exact Nat.mod_eq_of_lt (by omega)

theorem shifted_ne_zero_iff (value count : Value) :
    (value >>> count) &&& 1 ≠ 0 ↔ value.getLsbD count.toNat = true := by
  have h := BitVec.and_twoPow (value >>> count) 0
  change (value >>> count) &&& 1 = _ at h
  rw [h, BitVec.ushiftRight_eq', BitVec.getLsbD_ushiftRight, Nat.add_zero]
  cases value.getLsbD count.toNat <;> decide

/-- The loop of `tzcnt` stops at the lowest set bit, or at its end. -/
theorem trailingLoop_eq {value : Value} {k : Nat} (hlow : ∀ j < k, value.getLsbD j = false)
    {left c : Nat} (hc : c ≤ k) (hk : k = c + left ∨ k < c + left ∧ value.getLsbD k = true)
    (hleft : c + left ≤ 64) : trailingLoop value left (BitVec.ofNat 64 c) = BitVec.ofNat 64 k := by
  induction left generalizing c with
  | zero =>
    rw [trailingLoop]
    congr 1
    omega
  | succ left ih =>
    have hnat : (BitVec.ofNat 64 c).toNat = c := Nat.mod_eq_of_lt (by omega)
    have hbit := shifted_ne_zero_iff value (BitVec.ofNat 64 c)
    rw [hnat] at hbit
    rw [trailingLoop]
    rcases Nat.eq_or_lt_of_le hc with rfl | hlt
    · rcases hk with hk | ⟨-, hset⟩
      · omega
      · exact if_pos (hbit.2 hset)
    · rw [if_neg fun h => absurd (hbit.1 h) (by rw [hlow c hlt]; exact Bool.false_ne_true)]
      have hnext : BitVec.ofNat 64 c + 1 = BitVec.ofNat 64 (c + 1) := (BitVec.ofNat_add c 1).symm
      rw [hnext]
      exact ih hlt (hk.imp (fun h => by omega) fun h => ⟨by omega, h.2⟩) (by omega)

theorem toNat_tzcnt {src : Value} {size : Size} {k : Nat} (hk : k < size.bits)
    (hset : src.getLsbD k = true) (hlow : ∀ j < k, src.getLsbD j = false) :
    (countZeros false src size).toNat = k := by
  have hbits := size.bits_le
  have hloop : trailingLoop (src &&& sizeMask size) size.bits (BitVec.ofNat 64 0) =
      BitVec.ofNat 64 k := by
    refine trailingLoop_eq (fun j hj => ?_) (Nat.zero_le k) (.inr ⟨by omega, ?_⟩) (by omega)
    · rw [getLsbD_masked, hlow j hj, Bool.and_false]
    · rw [getLsbD_masked, hset, decide_eq_true hk, Bool.true_and]
  have hcount : countZeros false src size = BitVec.ofNat 64 k := hloop
  rw [hcount]
  exact Nat.mod_eq_of_lt (by omega)

/-- `blsr` clears the lowest set bit. -/
theorem getLsbD_blsr {src : Value} {size : Size} {k : Nat} (hk : k < size.bits)
    (hset : src.getLsbD k = true) (hlow : ∀ j < k, src.getLsbD j = false) (j : Nat) :
    (blsValue .blsr src size).getLsbD j =
    (decide (j < size.bits) && (src.getLsbD j && decide (j ≠ k))) := by
  have hlowest : Lowest (src &&& sizeMask size) k := by
    constructor
    · rw [getLsbD_masked, hset, decide_eq_true hk, Bool.true_and]
    · intro j hj
      rw [getLsbD_masked, hlow j hj, Bool.and_false]
  have hbits := size.bits_le
  rw [blsValue, getLsbD_masked]
  change (_ && ((src &&& sizeMask size) - 1#64 &&& (src &&& sizeMask size)).getLsbD j) = _
  rw [BitVec.getLsbD_and, hlowest.getLsbD_sub_one, getLsbD_masked]
  by_cases hj : j < k
  · simp [hj, hlow j hj]
  · by_cases hin : j < size.bits
    · cases src.getLsbD j <;> simp [hj, hin]
    · simp [hin]

/-- The bits that a loop over `tzcnt` and `blsr` comes to. -/
def visited (size : Size) : (turns : Nat) → (src : Value) → List Value
  | 0, _ => []
  | turns + 1, src => countZeros false src size :: visited size turns (blsValue .blsr src size)

theorem filter_range_of_lowest {p q : Nat → Bool} {k n : Nat} (hk : k < n) (hset : p k = true)
    (hlow : ∀ j < k, p j = false) (hq : ∀ j < n, q j = (p j && decide (j ≠ k))) :
    (List.range n).filter p = k :: (List.range n).filter q := by
  obtain ⟨d, rfl⟩ : ∃ d, n = k + 1 + d := ⟨n - (k + 1), by omega⟩
  have hnone : ∀ r : Nat → Bool, (∀ j < k, r j = false) → (List.range k).filter r = [] :=
    fun r hr =>
    List.filter_eq_nil_iff.2 fun j hj => Bool.eq_false_iff.1 (hr j (List.mem_range.1 hj))
  have hrest : ((List.range d).map (k + 1 + ·)).filter q =
      ((List.range d).map (k + 1 + ·)).filter p := by
    refine List.filter_congr fun j hj => ?_
    obtain ⟨i, hi, rfl⟩ := List.mem_map.1 hj
    rw [hq _ (Nat.add_lt_add_left (List.mem_range.1 hi) _), decide_eq_true (by omega),
      Bool.and_true]
  rw [List.range_add, List.range_succ]
  simp only [List.filter_append]
  rw [hrest, hnone p hlow, hnone q fun j hj => by rw [hq j (by omega), hlow j hj, Bool.false_and]]
  simp [hset, hq k (by omega)]

/-- The loop comes to each set bit once, from the lowest to the highest, in as many turns as
`popcnt` counts. -/
theorem visited_eq (src : Value) (size : Size) :
    (visited size (popcntValue src size).toNat src).map BitVec.toNat =
    (List.range size.bits).filter src.getLsbD := by
  rw [toNat_popcntValue]
  generalize hcount : rank src size.bits = count
  induction count generalizing src with
  | zero =>
    have hnone := rank_eq_zero_iff.1 hcount
    exact (List.filter_eq_nil_iff.2 fun j hj => Bool.eq_false_iff.1
      (hnone j (List.mem_range.1 hj))).symm
  | succ count ih =>
    have hmasked : src &&& sizeMask size ≠ 0#64 := by
      intro hzero
      have hnone : rank src size.bits = 0 := rank_eq_zero_iff.2 fun j hj => by
        have := getLsbD_masked src size j
        rw [hzero, decide_eq_true hj, Bool.true_and, BitVec.getLsbD_zero] at this
        exact this.symm
      omega
    obtain ⟨k, hkset, hklow⟩ := exists_lowest hmasked
    rw [getLsbD_masked, Bool.and_eq_true, decide_eq_true_eq] at hkset
    have hlow : ∀ j < k, src.getLsbD j = false := by
      intro j hj
      have := hklow j hj
      rwa [getLsbD_masked, decide_eq_true (by omega), Bool.true_and] at this
    have hblsr := getLsbD_blsr hkset.1 hkset.2 hlow
    have hclear : ∀ j < size.bits,
        (blsValue .blsr src size).getLsbD j = (src.getLsbD j && decide (j ≠ k)) := by
      intro j hj
      rw [hblsr, decide_eq_true hj, Bool.true_and]
    have hrank : rank (blsValue .blsr src size) size.bits = count := by
      have h := rank_clear hkset.2 hclear
      rw [if_pos hkset.1] at h
      omega
    rw [visited, List.map_cons, toNat_tzcnt hkset.1 hkset.2 hlow, ih _ hrank]
    exact (filter_range_of_lowest hkset.1 hkset.2 hlow hclear).symm

/-! ## Bits under a mask -/

theorem and_twoPow_eq_zero_iff (v : Value) {i : Nat} (hi : i < 64) :
    v &&& BitVec.twoPow 64 i = 0 ↔ v.getLsbD i = false := by
  rw [← hasBit_twoPow v hi, hasBit, bne_eq_false_iff_eq]

theorem and_twoPow_ne_zero_iff (v : Value) {i : Nat} (hi : i < 64) :
    v &&& BitVec.twoPow 64 i ≠ 0 ↔ v.getLsbD i = true := by
  rw [Ne, and_twoPow_eq_zero_iff v hi, Bool.not_eq_false]

theorem twoPow_shiftLeft (i : Nat) : BitVec.twoPow 64 i <<< 1 = BitVec.twoPow 64 (i + 1) :=
  (BitVec.shiftLeft_add 1#64 i 1).symm

theorem getLsbD_or_twoPow (v result : Value) {i b : Nat} (hi : i < 64) (hb : b < 64) (j : Nat) :
    (if v &&& BitVec.twoPow 64 i ≠ 0 then result ||| BitVec.twoPow 64 b
      else result).getLsbD j = true ↔ result.getLsbD j = true ∨ b = j ∧ v.getLsbD i = true := by
  by_cases hv : v.getLsbD i = true
  · rw [if_pos ((and_twoPow_ne_zero_iff v hi).2 hv), BitVec.getLsbD_or, BitVec.getLsbD_twoPow]
    simp [hb, hv]
  · rw [if_neg fun h => hv ((and_twoPow_ne_zero_iff v hi).1 h)]
    simp [hv]

/-- What is put down from bit `i` on: bit `j` of the mask gets the bit of the source
that has its number. -/
theorem bitsLoop_deposit (src mask : Value) (turns : Nat) {i : Nat} (h : i + turns ≤ 64)
    (result : Value) (j : Nat) :
    (bitsLoop true src mask turns result (BitVec.twoPow 64 i)
      (BitVec.twoPow 64 (rank mask i))).getLsbD j = true ↔ result.getLsbD j = true ∨
        i ≤ j ∧ j < i + turns ∧ mask.getLsbD j = true ∧ src.getLsbD (rank mask j) = true := by
  induction turns generalizing i result with
  | zero =>
    rw [bitsLoop]
    exact (or_iff_left fun hj => by omega).symm
  | succ turns ih =>
    have hi : i < 64 := by omega
    have hrank : rank mask i < 64 := Nat.lt_of_le_of_lt (rank_le mask i) hi
    rw [bitsLoop, twoPow_shiftLeft]
    by_cases hmask : mask.getLsbD i = true
    · have hnext : rank mask (i + 1) = rank mask i + 1 := by rw [rank_succ, if_pos hmask]
      rw [if_neg ((and_twoPow_ne_zero_iff mask hi).2 hmask), twoPow_shiftLeft, ← hnext,
        ih (by omega), if_pos rfl]
      rw [getLsbD_or_twoPow src result hrank hi, or_assoc]
      refine or_congr_right ⟨?_, ?_⟩
      · rintro (⟨rfl, hsrc⟩ | hj)
        · exact ⟨Nat.le_refl _, by omega, hmask, hsrc⟩
        · exact ⟨by omega, by omega, hj.2.2⟩
      · rintro ⟨hle, hlt, hj⟩
        rcases Nat.eq_or_lt_of_le hle with rfl | hgt
        · exact .inl ⟨rfl, hj.2⟩
        · exact .inr ⟨hgt, by omega, hj⟩
    · have hnext : rank mask (i + 1) = rank mask i := by rw [rank_succ, if_neg hmask, add_zero]
      rw [if_pos ((and_twoPow_eq_zero_iff mask hi).2 (Bool.eq_false_iff.2 hmask)), ← hnext,
        ih (by omega)]
      refine or_congr_right ⟨fun hj => ⟨by omega, by omega, hj.2.2⟩, ?_⟩
      rintro ⟨hle, hlt, hj⟩
      rcases Nat.eq_or_lt_of_le hle with rfl | hgt
      · exact absurd hj.1 hmask
      · exact ⟨hgt, by omega, hj⟩

/-- What is taken out from bit `i` on: a bit under the mask goes to the place that has its
number. -/
theorem bitsLoop_extract (src mask : Value) (turns : Nat) {i : Nat} (h : i + turns ≤ 64)
    (result : Value) (j : Nat) :
    (bitsLoop false src mask turns result (BitVec.twoPow 64 i)
      (BitVec.twoPow 64 (rank mask i))).getLsbD j = true ↔ result.getLsbD j = true ∨
        ∃ p, i ≤ p ∧ p < i + turns ∧ mask.getLsbD p = true ∧ rank mask p = j ∧
        src.getLsbD p = true := by
  induction turns generalizing i result with
  | zero =>
    rw [bitsLoop]
    refine (or_iff_left ?_).symm
    rintro ⟨p, hp, hlt, -⟩
    omega
  | succ turns ih =>
    have hi : i < 64 := by omega
    have hrank : rank mask i < 64 := Nat.lt_of_le_of_lt (rank_le mask i) hi
    rw [bitsLoop, twoPow_shiftLeft]
    by_cases hmask : mask.getLsbD i = true
    · have hnext : rank mask (i + 1) = rank mask i + 1 := by rw [rank_succ, if_pos hmask]
      rw [if_neg ((and_twoPow_ne_zero_iff mask hi).2 hmask), twoPow_shiftLeft, ← hnext,
        ih (by omega), if_neg Bool.false_ne_true]
      rw [getLsbD_or_twoPow src result hi hrank, or_assoc]
      refine or_congr_right ⟨?_, ?_⟩
      · rintro (⟨hj, hsrc⟩ | ⟨p, hle, hlt, hp⟩)
        · exact ⟨i, Nat.le_refl _, by omega, hmask, hj, hsrc⟩
        · exact ⟨p, by omega, by omega, hp⟩
      · rintro ⟨p, hle, hlt, hp⟩
        rcases Nat.eq_or_lt_of_le hle with rfl | hgt
        · exact .inl hp.2
        · exact .inr ⟨p, hgt, by omega, hp⟩
    · have hnext : rank mask (i + 1) = rank mask i := by rw [rank_succ, if_neg hmask, add_zero]
      rw [if_pos ((and_twoPow_eq_zero_iff mask hi).2 (Bool.eq_false_iff.2 hmask)), ← hnext,
        ih (by omega)]
      refine or_congr_right ⟨?_, ?_⟩
      · rintro ⟨p, hle, hlt, hp⟩
        exact ⟨p, by omega, by omega, hp⟩
      · rintro ⟨p, hle, hlt, hp⟩
        rcases Nat.eq_or_lt_of_le hle with rfl | hgt
        · exact absurd hp.1 hmask
        · exact ⟨p, hgt, by omega, hp⟩

/-- The bits of a mask below the size of the operand have their numbers. -/
theorem rank_masked (mask : Value) {size : Size} {j : Nat} (h : j ≤ size.bits) :
    rank (mask &&& sizeMask size) j = rank mask j :=
  rank_congr fun i hi => by rw [getLsbD_masked, decide_eq_true (by omega), Bool.true_and]

theorem getLsbD_pdep (src mask : Value) (size : Size) (j : Nat) :
    (bitsDepositExtract true src mask size).getLsbD j = true ↔
      j < size.bits ∧ mask.getLsbD j = true ∧ src.getLsbD (rank mask j) = true := by
  have hbits := size.bits_le
  have h := bitsLoop_deposit src (mask &&& sizeMask size) size.bits (i := 0) (by omega) 0 j
  rw [Nat.zero_add] at h
  refine h.trans ⟨?_, ?_⟩
  · rintro (hj | ⟨-, hlt, hmask, hsrc⟩)
    · exact absurd hj (by simp)
    · rw [rank_masked mask (Nat.le_of_lt hlt)] at hsrc
      rw [getLsbD_masked, decide_eq_true hlt, Bool.true_and] at hmask
      exact ⟨hlt, hmask, hsrc⟩
  · rintro ⟨hlt, hmask, hsrc⟩
    refine .inr ⟨Nat.zero_le j, hlt, ?_, ?_⟩
    · rwa [getLsbD_masked, decide_eq_true hlt, Bool.true_and]
    · rwa [rank_masked mask (Nat.le_of_lt hlt)]

theorem getLsbD_pext (src mask : Value) (size : Size) (j : Nat) :
    (bitsDepositExtract false src mask size).getLsbD j = true ↔
      ∃ p < size.bits, mask.getLsbD p = true ∧ rank mask p = j ∧ src.getLsbD p = true := by
  have hbits := size.bits_le
  have h := bitsLoop_extract src (mask &&& sizeMask size) size.bits (i := 0) (by omega) 0 j
  rw [Nat.zero_add] at h
  refine h.trans ⟨?_, ?_⟩
  · rintro (hj | ⟨p, -, hlt, hmask, hrank, hsrc⟩)
    · exact absurd hj (by simp)
    · rw [rank_masked mask (Nat.le_of_lt hlt)] at hrank
      rw [getLsbD_masked, decide_eq_true hlt, Bool.true_and] at hmask
      exact ⟨p, hlt, hmask, hrank, hsrc⟩
  · rintro ⟨p, hlt, hmask, hrank, hsrc⟩
    refine .inr ⟨p, Nat.zero_le p, hlt, ?_, ?_, hsrc⟩
    · rwa [getLsbD_masked, decide_eq_true hlt, Bool.true_and]
    · rwa [rank_masked mask (Nat.le_of_lt hlt)]

/-- `bzhi` with a number of bits. -/
theorem getLsbD_bzhi {src control : Value} {size : Size} (h : control.toNat ≤ size.bits) (j : Nat) :
    (bzhiValue src control size).getLsbD j = (decide (j < control.toNat) && src.getLsbD j) := by
  have hbits := size.bits_le
  have hindex : (control &&& 0xff).toNat = control.toNat := by
    have hand : (control &&& 0xff).toNat = control.toNat &&& 2 ^ 8 - 1 := BitVec.toNat_and ..
    rw [hand, Nat.and_two_pow_sub_one_eq_mod]
    omega
  rw [bzhiValue, hindex]
  split
  · next hlt =>
    rw [BitVec.getLsbD_and, getLsbD_masked]
    change (_ && (((1 : Value) <<< control.toNat) - 1).getLsbD j) = _
    rw [getLsbD_lowMask (Nat.lt_of_lt_of_le hlt hbits)]
    by_cases hj : j < control.toNat
    · simp [hj, show j < size.bits from by omega]
    · simp [hj]
  · next hge =>
    have heq : control.toNat = size.bits := by
      rw [Size.bits] at h ⊢
      omega
    rw [getLsbD_masked, heq]

/-- What is taken out from under a mask and put back; what is put down under it and taken out
again. -/
theorem pdep_pext (src mask : Value) (size : Size) :
    bitsDepositExtract true (bitsDepositExtract false src mask size) mask size =
    src &&& mask &&& sizeMask size ∧
      bitsDepositExtract false (bitsDepositExtract true src mask size) mask size =
        bzhiValue src (popcntValue mask size) size := by
  constructor
  · apply BitVec.eq_of_getLsbD_eq
    intro j _
    rw [Bool.eq_iff_iff, getLsbD_pdep, getLsbD_pext, getLsbD_masked, BitVec.getLsbD_and]
    simp only [Bool.and_eq_true, decide_eq_true_eq]
    constructor
    · rintro ⟨hj, hmask, p, -, hp, hrank, hsrc⟩
      rw [rank_injective hp hmask hrank] at hsrc
      exact ⟨hj, hsrc, hmask⟩
    · rintro ⟨hj, hsrc, hmask⟩
      exact ⟨hj, hmask, j, hj, hmask, rfl, hsrc⟩
  · have hcount := toNat_popcntValue mask size
    have hle := rank_le mask size.bits
    apply BitVec.eq_of_getLsbD_eq
    intro j _
    rw [Bool.eq_iff_iff, getLsbD_pext, getLsbD_bzhi (by omega), hcount]
    simp only [Bool.and_eq_true, decide_eq_true_eq]
    constructor
    · rintro ⟨p, hp, hmask, rfl, hdep⟩
      exact ⟨rank_lt hmask hp, ((getLsbD_pdep ..).1 hdep).2.2⟩
    · rintro ⟨hlt, hsrc⟩
      obtain ⟨p, hp, hmask, rfl⟩ := exists_rank hlt
      exact ⟨p, hp, hmask, rfl, (getLsbD_pdep ..).2 ⟨hp, hmask, hsrc⟩⟩

/-! ## Products -/

theorem mulx_spec (a b : Value) : join (mulxValue a b).1 (mulxValue a b).2 = a.toNat * b.toNat := by
  have ha := a.isLt
  have hb := b.isLt
  have hlow : ∀ v : Value, (v &&& 0xffffffff#64).toNat = v.toNat % 2 ^ 32 := fun v =>
    (BitVec.toNat_and ..).trans (Nat.and_two_pow_sub_one_eq_mod _ 32)
  have hhigh : ∀ v : Value, (v >>> 32).toNat = v.toNat / 2 ^ 32 := fun v => by
    rw [BitVec.toNat_ushiftRight, Nat.shiftRight_eq_div_pow]
  have hsplit : a.toNat * b.toNat =
      a.toNat % 2 ^ 32 * (b.toNat % 2 ^ 32) + a.toNat % 2 ^ 32 * (b.toNat / 2 ^ 32) * 2 ^ 32 +
        a.toNat / 2 ^ 32 * (b.toNat % 2 ^ 32) * 2 ^ 32 + a.toNat / 2 ^ 32 * (b.toNat / 2 ^ 32) *
        2 ^ 64 := by
    conv_lhs => rw [← Nat.mod_add_div a.toNat (2 ^ 32), ← Nat.mod_add_div b.toNat (2 ^ 32)]
    ring
  have hbound : ∀ {x y : Nat}, x < 2 ^ 32 → y < 2 ^ 32 → x * y ≤ (2 ^ 32 - 1) * (2 ^ 32 - 1) :=
    fun hx hy =>
    Nat.mul_le_mul (Nat.le_sub_one_of_lt hx) (Nat.le_sub_one_of_lt hy)
  have hla : a.toNat % 2 ^ 32 < 2 ^ 32 := Nat.mod_lt _ (by decide)
  have hha : a.toNat / 2 ^ 32 < 2 ^ 32 := by omega
  have hlb : b.toNat % 2 ^ 32 < 2 ^ 32 := Nat.mod_lt _ (by decide)
  have hhb : b.toNat / 2 ^ 32 < 2 ^ 32 := by omega
  have h00 : ((a &&& 0xffffffff#64) * (b &&& 0xffffffff#64)).toNat =
      a.toNat % 2 ^ 32 * (b.toNat % 2 ^ 32) := by
    rw [toNat_mul_of_lt (by rwa [hlow]) (by rwa [hlow]), hlow, hlow]
  have h01 : ((a &&& 0xffffffff#64) * (b >>> 32)).toNat =
      a.toNat % 2 ^ 32 * (b.toNat / 2 ^ 32) := by
    rw [toNat_mul_of_lt (by rwa [hlow]) (by rwa [hhigh]), hlow, hhigh]
  have h10 : ((a >>> 32) * (b &&& 0xffffffff#64)).toNat =
      a.toNat / 2 ^ 32 * (b.toNat % 2 ^ 32) := by
    rw [toNat_mul_of_lt (by rwa [hhigh]) (by rwa [hlow]), hhigh, hlow]
  have h11 : ((a >>> 32) * (b >>> 32)).toNat = a.toNat / 2 ^ 32 * (b.toNat / 2 ^ 32) := by
    rw [toNat_mul_of_lt (by rwa [hhigh]) (by rwa [hhigh]), hhigh, hhigh]
  have b00 := hbound hla hlb
  have b01 := hbound hla hhb
  have b10 := hbound hha hlb
  have b11 := hbound hha hhb
  rw [hsplit, ← h00, ← h01, ← h10, ← h11]
  rw [← h00] at b00
  rw [← h01] at b01
  rw [← h10] at b10
  rw [← h11] at b11
  unfold mulxValue join
  dsimp only
  generalize (a &&& 0xffffffff#64) * (b &&& 0xffffffff#64) = ll at *
  generalize (a &&& 0xffffffff#64) * (b >>> 32) = lh at *
  generalize (a >>> 32) * (b &&& 0xffffffff#64) = hl at *
  generalize (a >>> 32) * (b >>> 32) = hh at *
  have hmiddle : ((ll >>> 32) + (lh &&& 0xffffffff#64) + (hl &&& 0xffffffff#64)).toNat =
      ll.toNat / 2 ^ 32 + lh.toNat % 2 ^ 32 + hl.toNat % 2 ^ 32 := by
    rw [BitVec.toNat_add, BitVec.toNat_add, hhigh, hlow, hlow]
    omega
  generalize (ll >>> 32) + (lh &&& 0xffffffff#64) + (hl &&& 0xffffffff#64) = middle at *
  have hor : (middle <<< 32 ||| ll &&& 0xffffffff#64).toNat =
      middle.toNat % 2 ^ 32 * 2 ^ 32 + ll.toNat % 2 ^ 32 := by
    have hshift : (middle <<< 32).toNat = 2 ^ 32 * (middle.toNat % 2 ^ 32) := by
      rw [BitVec.toNat_shiftLeft, Nat.shiftLeft_eq]
      omega
    rw [BitVec.toNat_or, hshift, hlow, ← Nat.two_pow_add_eq_or_of_lt (Nat.mod_lt _ (by decide)),
      Nat.mul_comm]
  have hsum : (hh + (lh >>> 32) + (hl >>> 32) + (middle >>> 32)).toNat =
      hh.toNat + lh.toNat / 2 ^ 32 + hl.toNat / 2 ^ 32 + middle.toNat / 2 ^ 32 := by
    rw [BitVec.toNat_add, BitVec.toNat_add, BitVec.toNat_add, hhigh, hhigh, hhigh]
    omega
  rw [hor, hsum, hmiddle]
  omega

/-- The operand at a place is a 64-bit register. -/
def Insn.HasR64 (I : Insn) (n : Nat) (i : Fin 16) :
    Prop := ∃ a, I.operands[n]? = some ⟨.register (.r64 i), .qword, a⟩

variable {S I} {s : Proc μ}

theorem getOperand_r64 {n : Nat} {i : Fin 16} (h : I.HasR64 n i) (s : Proc μ) :
    getOperand S I n s = .ok (s.getValue (.r64 i), .qword) s := by
  obtain ⟨a, h⟩ := h
  unfold getOperand
  rw [h]
  rfl

theorem setOperand_r64 {n : Nat} {i : Fin 16} (h : I.HasR64 n i) (v : Value) (s : Proc μ) :
    setOperand S I n v s = .ok () (s.setValue (.r64 i) v) := by
  obtain ⟨a, h⟩ := h
  unfold setOperand
  rw [h]
  rfl

theorem getValue_setValue_r64_of_ne {i j : Fin 16} (h : i ≠ j) (v : Value) :
    (s.setValue (.r64 j) v).getValue (.r64 i) = s.getValue (.r64 i) :=
  getValue_setValue_of_ne s
    (show (Register.r64 i).cell ≠ (Register.r64 j).cell from fun hcell => h (Cell.gp.inj hcell)) v

theorem idle_setValue_r64 (hs : s.Idle) (i : Fin 16) (v : Value) :
    (s.setValue (.r64 i) v).Idle ∧ (s.setValue (.r64 i) v).flags = s.flags :=
  hs.setValueEx (some (.r64 i)) (.r64 i) v .qword

/-- `mulx` of 64-bit registers; if they are one, it has the high half. -/
theorem callMulx_product {high low : Fin 16} {src : Value} {size : Size} (hs : s.Idle)
    (h0 : I.HasR64 0 high) (h1 : I.HasR64 1 low) (h2 : getOperand S I 2 s = .ok (src, size) s) :
    ∃ t, callMulx S I s = .ok () t ∧ t.flags = s.flags ∧
      (t.getValue (.r64 high)).toNat = (s.getValue (.r64 2)).toNat * src.toNat / 2 ^ 64 ∧
        (low ≠ high → (t.getValue (.r64 low)).toNat =
          (s.getValue (.r64 2)).toNat * src.toNat % 2 ^ 64) := by
  have hspec := mulx_spec (s.getValue (.r64 2)) src
  have hlow := (mulxValue (s.getValue (.r64 2)) src).1.isLt
  have hidle := idle_setValue_r64 hs low (mulxValue (s.getValue (.r64 2)) src).1
  have hidle' := idle_setValue_r64 hidle.1 high (mulxValue (s.getValue (.r64 2)) src).2
  refine ⟨_, ?_, hidle'.2.trans hidle.2, ?_, fun hne => ?_⟩
  · unfold callMulx
    rw [bind_of_ok (getOperand_r64 h0 s)]
    dsimp only
    rw [bind_of_ok (getOperand_r64 h1 s), bind_of_ok h2]
    exact (bind_of_ok (setOperand_r64 h1 _ s)).trans (setOperand_r64 h0 _ _)
  · rw [getValue_setValue_r64, ← hspec, join]
    omega
  · rw [getValue_setValue_r64_of_ne hne, getValue_setValue_r64, ← hspec, join]
    omega

/-- A command of 64-bit registers. -/
def qwordInsn (registers : List (Fin 16)) : Insn where
  command := .other 0
  operands := registers.map fun i => ⟨.register (.r64 i), .qword, .qword⟩
  iPrefix := .none
  opsize := .qword
  addressSize := .qword
  rexW := true
  fullCmdSize := 5
  signExtends := false
  pushSeg := false
  lockable := false
  isEvex := false

/-- `rdx = 2^63 + 1` and `rbx = 3`. -/
def atMulx : Proc Unit := ((raxAt 0).setValue (.r64 2) 0x8000000000000001).setValue (.r64 3) 3

/-- `mulx rax, rcx, rbx`: `3 * 2^63 + 3` is `2^64 + (2^63 + 3)`. -/
theorem callMulx_product_rbx :
    ∃ t, callMulx zeroStream (qwordInsn [0, 1, 3]) atMulx = .ok () t ∧ t.flags = atMulx.flags ∧
      (t.getValue (.r64 0)).toNat = 1 ∧ (t.getValue (.r64 1)).toNat = 0x8000000000000003 := by
  have hdx : (atMulx.getValue (.r64 2)).toNat = 0x8000000000000001 :=
    (congrArg BitVec.toNat (getValue_setValue_r64_of_ne (by decide) _)).trans
      (congrArg BitVec.toNat (getValue_setValue_r64 _ _ _))
  have hbx : (atMulx.getValue (.r64 3)).toNat = 3 :=
    congrArg BitVec.toNat (getValue_setValue_r64 _ _ _)
  obtain ⟨t, hrun, hflags, hhigh, hlow⟩ :=
    callMulx_product (S := zeroStream) (I := qwordInsn [0, 1, 3]) (s := atMulx) rfl ⟨_, rfl⟩
      ⟨_, rfl⟩ (getOperand_r64 (i := 3) ⟨_, rfl⟩ _)
  rw [hdx, hbx] at hhigh hlow
  exact ⟨t, hrun, hflags, hhigh, hlow (by decide)⟩

/-! ## Carries -/

theorem toNat_masked (v : Value) (size : Size) :
    (v &&& sizeMask size).toNat = v.toNat % 2 ^ size.bits := by
  rw [masked_eq_cutValue, toNat_cutValue, Size.low, BitVec.toNat_setWidth]

/-- The sum of `Di_AddCarry` and its carry are the sum of three numbers. -/
theorem addCarry_spec (dest src : Value) (c : Bool) (size : Size) :
    (addCarry dest src (if c then 1 else 0) size).1.toNat +
        2 ^ size.bits * (addCarry dest src (if c then 1 else 0) size).2.toNat =
      dest.toNat % 2 ^ size.bits + src.toNat % 2 ^ size.bits + c.toNat := by
  have hdvd : 2 ^ size.bits ∣ 2 ^ 64 := Nat.pow_dvd_pow 2 size.bits_le
  have hd := toNat_masked dest size
  have hs := toNat_masked src size
  have hpos : 0 < 2 ^ size.bits := Nat.two_pow_pos _
  have hdlt := Nat.mod_lt dest.toNat hpos
  have hslt := Nat.mod_lt src.toNat hpos
  have hcarry : (if c then (1 : Value) else 0).toNat = c.toNat := by cases c <;> rfl
  have hbit : ((if c then (1 : Value) else 0) != 0) = c := by cases c <;> rfl
  have hcle : c.toNat ≤ 1 := Bool.toNat_le c
  unfold addCarry
  dsimp only
  rw [hbit]
  have hsum := toNat_masked ((dest &&& sizeMask size) + (src &&& sizeMask size) + if c then 1
      else 0) size
  rw [BitVec.toNat_add, BitVec.toNat_add, hd, hs, hcarry, Nat.mod_add_mod,
    Nat.mod_mod_of_dvd _ hdvd] at hsum
  rw [← hd, ← hs] at hsum ⊢
  rw [← hd] at hdlt
  rw [← hs] at hslt
  generalize (dest &&& sizeMask size) + (src &&& sizeMask size) + (if c then 1
    else 0) &&& sizeMask size = sum at *
  generalize dest &&& sizeMask size = d at *
  generalize src &&& sizeMask size = e at *
  have hout : (decide (sum < d) || (c && sum == d)) =
      decide (2 ^ size.bits ≤ d.toNat + e.toNat + c.toNat) := by
    rw [Bool.eq_iff_iff]
    simp only [Bool.or_eq_true, decide_eq_true_eq, Bool.and_eq_true, beq_iff_eq, BitVec.lt_def,
      ← BitVec.toNat_inj]
    rw [hsum, mod_of_lt_two_mul (by omega)]
    cases c with
    | false =>
      simp only [Bool.toNat_false, Bool.false_eq_true, false_and, or_false] at *
      split <;> omega
    | true =>
      simp only [Bool.toNat_true, true_and] at *
      split <;> omega
  rw [hout, hsum, mod_of_lt_two_mul (by omega)]
  by_cases hle : 2 ^ size.bits ≤ d.toNat + e.toNat + c.toNat
  · rw [if_pos hle, decide_eq_true hle, Bool.toNat_true]
    omega
  · rw [if_neg hle, decide_eq_false hle, Bool.toNat_false]
    omega

def carryFlag (overflowFlag : Bool) : Value := if overflowFlag then flagOF else flagCF

theorem queryFlag_carryFlag (f : Value) (b b' c : Bool) :
    queryFlag (setIf (clearFlag f (carryFlag b)) (carryFlag b) c) (carryFlag b') =
      if b' = b then c else queryFlag f (carryFlag b') := by
  obtain ⟨h0, -, -, -, -, h11⟩ := flags_twoPow
  cases b <;> cases b' <;> simp [carryFlag, h0, h11, queryFlag_setIf, queryFlag_clearFlag]

/-- An `adcx` or (`overflowFlag`) an `adox` of 64-bit registers. -/
structure CarryStep where
  overflowFlag : Bool
  insn : Insn
  dest : Fin 16
  src : Fin 16
  hasDest : insn.HasR64 0 dest
  hasSrc : insn.HasR64 1 src

/-- The carry a step adds. -/
def Proc.carryIn (s : Proc μ) (b : Bool) : Bool := queryFlag s.flags (carryFlag b)

/-- What a step leaves behind: the sum in its register and in its flag, all else as it was. -/
theorem callAddCarry_step (hs : s.Idle) (st : CarryStep) :
    ∃ t, callAddCarry S st.insn st.overflowFlag s = .ok () t ∧ t.Idle ∧
      (t.getValue (.r64 st.dest)).toNat + 2 ^ 64 * (t.carryIn st.overflowFlag).toNat =
          (s.getValue (.r64 st.dest)).toNat + (s.getValue (.r64 st.src)).toNat +
          (s.carryIn st.overflowFlag).toNat ∧
        t.carryIn (!st.overflowFlag) = s.carryIn (!st.overflowFlag) ∧
          ∀ i, i ≠ st.dest → t.getValue (.r64 i) = s.getValue (.r64 i) := by
  obtain ⟨b, I, d, e, hd, he⟩ := st
  have hspec := addCarry_spec (s.getValue (.r64 d)) (s.getValue (.r64 e)) (s.carryIn b) .qword
  have hlt := (s.getValue (.r64 d)).isLt
  have hlt' := (s.getValue (.r64 e)).isLt
  have h64 : Size.qword.bits = 64 := rfl
  rw [h64, Nat.mod_eq_of_lt hlt, Nat.mod_eq_of_lt hlt'] at hspec
  generalize hsum : addCarry (s.getValue (.r64 d)) (s.getValue (.r64 e)) (if s.carryIn b then 1
    else 0) .qword = p at hspec
  generalize hu : { s with flags := setIf (clearFlag s.flags (carryFlag b)) (carryFlag b) p.2 } = u
  have hflags : u.flags = setIf (clearFlag s.flags (carryFlag b)) (carryFlag b) p.2 := by rw [← hu]
  have hidle : u.Idle := by
    rw [← hu]
    exact hs
  have hset := idle_setValue_r64 hidle d p.1
  have hregs : ∀ i, u.getValue (.r64 i) = s.getValue (.r64 i) := fun i => by
    rw [← hu]
    rfl
  refine ⟨u.setValue (.r64 d) p.1, ?_, hset.1, ?_, ?_, fun i hi => ?_⟩
  · unfold callAddCarry
    rw [bind_of_ok (getOperand_r64 hd s)]
    dsimp only
    rw [bind_of_ok (getOperand_r64 he s), ← hu, ← hsum]
    exact setOperand_r64 hd _ _
  · rw [Proc.carryIn, hset.2, hflags, queryFlag_carryFlag, if_pos rfl, getValue_setValue_r64, hspec]
  · rw [Proc.carryIn, hset.2, hflags, queryFlag_carryFlag, if_neg (by simp)]
    rfl
  · rw [getValue_setValue_r64_of_ne hi, hregs]

variable (S) in
/-- The steps one after the other. -/
def runCarries : List CarryStep → Exec μ Unit
  | [] => pure ()
  | st :: steps => do
    callAddCarry S st.insn st.overflowFlag
    runCarries steps

/-- The number in the registers that the steps name, the first of them lowest. -/
def Proc.limbs (s : Proc μ) (register : CarryStep → Fin 16) (steps : List CarryStep) : Nat :=
  steps.foldr (fun st rest => (s.getValue (.r64 (register st))).toNat + 2 ^ 64 * rest) 0

theorem limbs_congr {t : Proc μ} {register : CarryStep → Fin 16} {steps : List CarryStep}
    (h : ∀ st ∈ steps, t.getValue (.r64 (register st)) = s.getValue (.r64 (register st))) :
    t.limbs register steps = s.limbs register steps := by
  induction steps with
  | nil => rfl
  | cons st steps ih =>
    have hrest := ih fun st' hst' => h st' (List.mem_cons_of_mem _ hst')
    unfold Proc.limbs at hrest ⊢
    rw [List.foldr_cons, List.foldr_cons, hrest, h st List.mem_cons_self]

/-- Two chains of additions with carry, one over CF and one over OF, in any order between them: each
adds its two numbers. No step reads or writes a register that a step before it has written. -/
theorem addCarries_sums (steps : List CarryStep) (hs : s.Idle)
    (hfresh : steps.Pairwise fun st st' => st'.dest ≠ st.dest ∧ st'.src ≠ st.dest) :
    ∃ t, runCarries S steps s = .ok () t ∧
    (∀ i, i ∉ steps.map CarryStep.dest → t.getValue (.r64 i) = s.getValue (.r64 i)) ∧
      ∀ b, t.limbs CarryStep.dest (steps.filter (·.overflowFlag = b)) +
          2 ^ (64 * (steps.filter (·.overflowFlag = b)).length) * (t.carryIn b).toNat =
        s.limbs CarryStep.dest (steps.filter (·.overflowFlag = b)) +
          s.limbs CarryStep.src (steps.filter (·.overflowFlag = b)) + (s.carryIn b).toNat := by
  induction steps generalizing s with
  | nil =>
    refine ⟨s, rfl, fun _ _ => rfl, fun b => ?_⟩
    simp [Proc.limbs]
  | cons st steps ih =>
    obtain ⟨hfirst, hrest⟩ := List.pairwise_cons.1 hfresh
    obtain ⟨u, hstep, hidle, hsum, hother, hframe⟩ := callAddCarry_step (S := S) hs st
    obtain ⟨t, hrun, hkeep, hsums⟩ := ih hidle hrest
    have hdest : st.dest ∉ steps.map CarryStep.dest := by
      intro hmem
      obtain ⟨st', hst', heq⟩ := List.mem_map.1 hmem
      exact (hfirst st' hst').1 heq
    refine ⟨t, (bind_of_ok hstep).trans hrun, fun i hi => ?_, fun b => ?_⟩
    · rw [List.map_cons, List.mem_cons, not_or] at hi
      rw [hkeep i hi.2, hframe i hi.1]
    · have hsame : ∀ register : CarryStep → Fin 16, (∀ st' ∈ steps, register st' ≠ st.dest) →
          u.limbs register (steps.filter (·.overflowFlag = b)) =
          s.limbs register (steps.filter (·.overflowFlag = b)) :=
        fun register hne => limbs_congr fun st' hst' =>
          hframe _ (hne st' (List.mem_filter.1 hst').1)
      have hb := hsums b
      rw [hsame _ fun st' hst' => (hfirst st' hst').1,
        hsame _ fun st' hst' => (hfirst st' hst').2] at hb
      by_cases hflag : st.overflowFlag = b
      · subst hflag
        rw [List.filter_cons_of_pos (by simp)]
        unfold Proc.limbs at hb ⊢
        rw [List.foldr_cons, List.foldr_cons, List.foldr_cons, List.length_cons, hkeep _ hdest,
          Nat.mul_succ, Nat.pow_add, Nat.mul_comm (2 ^ _) (2 ^ 64), Nat.mul_assoc]
        omega
      · rw [List.filter_cons_of_neg (by simpa using hflag), hb]
        obtain rfl : b = !st.overflowFlag := by
          cases b <;> cases hf : st.overflowFlag <;> simp_all
        rw [hother]

/-- `adcx` or `adox`, one 64-bit register to another. -/
def carryStep (overflowFlag : Bool) (dest src : Fin 16) : CarryStep :=
  ⟨overflowFlag, qwordInsn [dest, src], dest, src, ⟨_, rfl⟩, ⟨_, rfl⟩⟩

/-- `adcx rax, r8`, `adox rcx, r9`, `adcx rbx, r10`. -/
theorem addCarries_sums_three :
    ∃ t, runCarries zeroStream [carryStep false 0 8, carryStep true 1 9, carryStep false 3 10]
    (raxAt 7) = .ok () t ∧
      (∀ i, i ∉ [carryStep false 0 8, carryStep true 1 9, carryStep false 3 10].map CarryStep.dest →
        t.getValue (.r64 i) = (raxAt 7).getValue (.r64 i)) ∧
      ∀ b, t.limbs CarryStep.dest
            ([carryStep false 0 8, carryStep true 1 9, carryStep false 3 10].filter
              (·.overflowFlag = b)) +
          2 ^ (64 * ([carryStep false 0 8, carryStep true 1 9, carryStep false 3 10].filter
            (·.overflowFlag = b)).length) * (t.carryIn b).toNat =
        (raxAt 7).limbs CarryStep.dest
            ([carryStep false 0 8, carryStep true 1 9, carryStep false 3 10].filter
              (·.overflowFlag = b)) +
          (raxAt 7).limbs CarryStep.src
            ([carryStep false 0 8, carryStep true 1 9, carryStep false 3 10].filter
              (·.overflowFlag = b)) +
          ((raxAt 7).carryIn b).toNat :=
  addCarries_sums _ rfl (by simp [carryStep])

end Diana.Processor
