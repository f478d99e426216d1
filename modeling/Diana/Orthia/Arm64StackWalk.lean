import Diana.Lib.Field
import Diana.Lib.LittleEndian
import Diana.Lib.Loop
import Mathlib.Data.Nat.Find

/-!
# The stack of an ARM64 thread

`WalkArm64Stack` reports the return addresses of a thread: `lr` in a leaf function, then
those of the frame records that x29 chains. Where x29 is not known, the first record is
searched up from `sp`.

* `searchTurn`, `chainTurn`: one turn of the two loops;
* `walkArm64Stack`: the walk, its loops followed for a number of turns;
* `SearchEnds`: when the search for the first record ends;
* `Reported`: the addresses that the memory has for the walk;
* `sound_iff`: when the walk ends and only reports what stands behind a call.
-/

namespace Diana.Orthia.Arm64StackWalk

open Diana.Lib

abbrev Byte := BitVec 8

/-- `Address_type` -/
abbrev Address := BitVec 64

/-! ## Memory -/

/-- `oui::MemoryRegionInfo` -/
structure MemoryRegionInfo where
  regionBase : Address
  regionSize : Address
  /-- `protect & protect_exec` -/
  protectExec : Bool
  /-- The region is a part of the address space, up to its last byte. -/
  fits : regionBase.toNat + regionSize.toNat ≤ 2 ^ 64

/-- `oui::IProcess` -/
structure Process where
  /-- `QueryMemoryRegion` -/
  queryMemoryRegion : Address → Option MemoryRegionInfo
  /-- The bytes that can be read. -/
  memory : Address → Option Byte
  /-- A region has the address it was asked for. -/
  holds {a : Address} {info : MemoryRegionInfo} : queryMemoryRegion a = some info →
    info.regionBase.toNat ≤ a.toNat ∧ a.toNat < info.regionBase.toNat + info.regionSize.toNat

/-- `ReadExactEx2` -/
def Process.readExactEx2 (P : Process) (address : Address) (size : Nat) : Option (List Byte) :=
  (List.range size).mapM fun i => P.memory (address + BitVec.ofNat 64 i)

/-- `Arm64ThreadRegisters` -/
structure Arm64ThreadRegisters where
  pc : Address
  sp : Address
  fp : Address
  lr : Address
  hasFrameRegisters : Bool

def c_userAddressMask : Address := 0x0000FFFFFFFFFFFF
def c_frameSearchSize : Address := 0x4000
def c_sameFunctionDistance : Address := 0x400

variable (P : Process)

def readUInt64 (address : Address) : Option Address :=
  (P.readExactEx2 address 8).map fun bytes => BitVec.ofNat 64 (leNat bytes)

/-- The stack region from `sp` on. -/
structure StackRange where
  begin : Address
  stop : Address

def StackRange.Holds (range : StackRange) (address size : Address) : Bool :=
  decide (range.begin ≤ address) && decide (address ≤ range.stop) && decide
    (size ≤ range.stop - address)

def stripArm64PointerAuth (address : Address) : Address := address &&& c_userAddressMask

/-! ## Return addresses -/

/-- `BL imm26` -/
def isBl (instruction : BitVec 32) : Bool := instruction &&& 0xFC000000 == 0x94000000

/-- `BLR Xn` -/
def isBlr (instruction : BitVec 32) : Bool := instruction &&& 0xFFFFFC1F == 0xD63F0000

/-- The words that are taken for `BLRAA`, `BLRAB`, `BLRAAZ` and `BLRABZ`. -/
def masksBlra (instruction : BitVec 32) : Bool := instruction &&& 0xFEFFF800 == 0xD63F0800

/-- The word before an address. -/
def wordBefore (address : Address) : Option (BitVec 32) :=
  (P.readExactEx2 (address - 4) 4).map fun bytes => BitVec.ofNat 32 (leNat bytes)

/-- The word before an address is in executable memory. -/
def execBefore (address : Address) : Bool := (P.queryMemoryRegion (address - 4)).any (·.protectExec)

def isArm64ReturnAddress (address : Address) : Bool :=
  if address < 4 ∨ address &&& 3 ≠ 0 then false
  else if ¬ execBefore P address then false
  else
    match wordBefore P address with
    | none => false
    | some instruction =>
      if isBl instruction then true
      else if isBlr instruction then true
      else masksBlra instruction

/-! ## Frame records -/

/-- A record can be at `fp`. -/
def StackRange.admits (range : StackRange) (fp : Address) :
    Bool := fp &&& 7 == 0 && range.Holds fp 16

/-- The next record and the return address of the record at `fp`. -/
def readFrameRecord (range : StackRange) (fp : Address) : Option (Address × Address) :=
  if ¬ range.admits fp then none
  else
    match readUInt64 P fp, readUInt64 P (fp + 8) with
    | some nextFp, some returnAddress =>
      if isArm64ReturnAddress P (stripArm64PointerAuth returnAddress)
      then some (nextFp, stripArm64PointerAuth returnAddress)
      else none
    | _, _ => none

def isFrameRecord (range : StackRange) (fp : Address) : Bool :=
  match readFrameRecord P range fp with
  | none => false
  | some (nextFp, _) =>
    if nextFp = 0 then true else decide (fp < nextFp) && (readFrameRecord P range nextFp).isSome

/-! ## The walk -/

inductive Errno where
  | EFAULT
  deriving DecidableEq, Repr

/-- What the walk returns and delivers. `records` are the places where it has followed the chain,
for the statements only. -/
structure Walk where
  result : Except Errno Unit
  stack : List Address
  records : List Address

/-- A turn of the search. -/
def searchTurn (range : StackRange) (searchEnd slot : Address) : Address ⊕ Address :=
  if slot + 16 ≤ searchEnd then
    if isFrameRecord P range slot then .inr slot else .inl (slot + 8)
  else .inr 0

/-- The search for the first record. -/
def search (range : StackRange) (searchEnd : Address) (fuel : Nat) (slot : Address) :
    Address ⊕ Address :=
  runFrom (fun _ => searchTurn P range searchEnd) 0 fuel slot

/-- The state of the loop along the chain. -/
structure Chain where
  fp : Address
  stack : List Address
  records : List Address

/-- The bytes of a record are looked at where one can be. -/
def Chain.look (range : StackRange) (c : Chain) : Chain :=
  if range.admits c.fp then { c with records := c.records ++ [c.fp] } else c

/-- A turn of the loop along the chain. -/
def chainTurn (range : StackRange) (framesCount : Nat) (c : Chain) : Chain ⊕ Chain :=
  if c.fp ≠ 0 ∧ c.stack.length < framesCount then
    match readFrameRecord P range c.fp with
    | none => .inr (c.look range)
    | some (nextFp, returnAddress) =>
      let c' := { c.look range with stack := c.stack ++ [returnAddress] }
      if nextFp ≤ c.fp then .inr c' else .inl { c' with fp := nextFp }
  else .inr c

def sameFunction (registers : Arm64ThreadRegisters) : Bool :=
  decide (stripArm64PointerAuth registers.lr ≤ registers.pc) &&
    decide (registers.pc - stripArm64PointerAuth registers.lr < c_sameFunctionDistance)

/-- `lr` is the return address of a leaf function. -/
def usesLr (range : StackRange) (registers : Arm64ThreadRegisters) : Bool :=
  if ! sameFunction registers && isArm64ReturnAddress P (stripArm64PointerAuth registers.lr) then
    match readFrameRecord P range registers.fp with
    | none => true
    | some (_, recordReturn) => recordReturn != stripArm64PointerAuth registers.lr
  else false

def stackRange (registers : Arm64ThreadRegisters) (info : MemoryRegionInfo) : StackRange where
  begin := registers.sp
  stop := info.regionBase + info.regionSize

def searchEnd (range : StackRange) (registers : Arm64ThreadRegisters) : Address :=
  if c_frameSearchSize < range.stop - registers.sp then registers.sp + c_frameSearchSize
    else range.stop

def firstSlot (registers : Arm64ThreadRegisters) : Address := (registers.sp + 7) &&& ~~~7

/-- Where the chain begins, and what was reported before it. -/
def firstFrame (range : StackRange) (registers : Arm64ThreadRegisters) (fuel : Nat) :
    Option Chain :=
  if registers.hasFrameRegisters then
    some
      { fp := registers.fp
        stack := if usesLr P range registers then [stripArm64PointerAuth registers.lr] else []
        records := [] }
  else
    match search P range (searchEnd range registers) fuel (firstSlot registers) with
    | .inl _ => none
    | .inr fp => some ⟨fp, [], []⟩

/-- The walk, its loops followed for `fuel` turns each. -/
def walkArm64Stack (registers : Arm64ThreadRegisters) (framesCount fuel : Nat) : Option Walk :=
  match P.queryMemoryRegion registers.sp with
  | none => some ⟨.error .EFAULT, [], []⟩
  | some info =>
    let range := stackRange registers info
    match firstFrame P range registers fuel with
    | none => none
    | some c =>
      match runFrom (fun _ => chainTurn P range framesCount) 0 fuel c with
      | .inl _ => none
      | .inr c' => some ⟨.ok (), c'.stack.take framesCount, c'.records⟩

/-! ## What the walk should report -/

/-- `BLRAA Xn, Xm` and `BLRAB Xn, Xm` -/
def isBlra (instruction : BitVec 32) : Bool := instruction &&& 0xFFFFF800 == 0xD73F0800

/-- `BLRAAZ Xn` and `BLRABZ Xn`, whose second register is 31. -/
def isBlraz (instruction : BitVec 32) : Bool := instruction &&& 0xFFFFF81F == 0xD63F081F

/-- A call, authenticated or not. -/
def isCall (instruction : BitVec 32) : Bool :=
  isBl instruction || isBlr instruction || isBlra instruction || isBlraz instruction

/-- No instruction: that of `BLRAAZ` with another second register. -/
def unallocated (instruction : BitVec 32) : Bool :=
  instruction &&& 0xFFFFF800 == 0xD63F0800 && instruction &&& 0x1F != 0x1F

/-- An address right behind a call. -/
structure BehindCall (a : Address) : Prop where
  aligned : a.toNat % 4 = 0
  exec : execBefore P a = true
  call : ∃ instruction, wordBefore P a = some instruction ∧ isCall instruction = true

/-- The region that `sp` is in has a record at `fp`. -/
def InStack (registers : Arm64ThreadRegisters) (fp : Address) : Prop :=
  ∃ info, P.queryMemoryRegion registers.sp = some info ∧ info.regionBase.toNat ≤ fp.toNat ∧
    fp.toNat + 16 ≤ info.regionBase.toNat + info.regionSize.toNat

/-- The walk ends, and what it returns and follows is sound. -/
structure Sound (registers : Arm64ThreadRegisters) (framesCount : Nat) : Prop where
  ends : ∃ fuel w, walkArm64Stack P registers framesCount fuel = some w
  count : ∀ fuel w, walkArm64Stack P registers framesCount fuel = some w →
    w.stack.length ≤ framesCount
  returns : ∀ fuel w, walkArm64Stack P registers framesCount fuel = some w → ∀ a ∈ w.stack,
    BehindCall P a
  records : ∀ fuel w, walkArm64Stack P registers framesCount fuel = some w →
    w.records.Pairwise (· < ·) ∧ ∀ fp ∈ w.records, InStack P registers fp

/-- The search for the first record ends: below the last slot, or at a record. -/
def SearchEnds (registers : Arm64ThreadRegisters) : Prop :=
  ∀ info, P.queryMemoryRegion registers.sp = some info → registers.hasFrameRegisters = false →
    (searchEnd (stackRange registers info) registers).toNat < 2 ^ 64 - 8 ∨
      ∃ slot : Address, slot.toNat % 8 = 0 ∧ isFrameRecord P (stackRange registers info) slot = true

/-- `fp` is what x29 says or, where that is not known, the lowest record. -/
def Begins (range : StackRange) (registers : Arm64ThreadRegisters) (fp : Address) : Prop :=
  if registers.hasFrameRegisters then fp = registers.fp
  else
    (fp.toNat % 8 = 0 ∧ isFrameRecord P range fp = true ∧ fp + 16 ≤ searchEnd range registers) ∧
      ∀ slot, slot.toNat % 8 = 0 → isFrameRecord P range slot = true → fp ≤ slot

/-- `a` is the return address of one of the first `n` records of the chain from `fp` on. -/
inductive Returns (range : StackRange) : (n : Nat) → (fp a : Address) → Prop where
  | here {n : Nat} {fp nextFp a : Address} : fp ≠ 0 →
      readFrameRecord P range fp = some (nextFp, a) → Returns range (n + 1) fp a
  | up {n : Nat} {fp nextFp b a : Address} : fp ≠ 0 →
      readFrameRecord P range fp = some (nextFp, b) →
      fp < nextFp → Returns range n nextFp a → Returns range (n + 1) fp a

/-- The addresses that are there to be reported: in `lr`, and in the first records of the chain. -/
inductive Reported (registers : Arm64ThreadRegisters) (framesCount : Nat) :
    (a : Address) → Prop where
  | lr {info : MemoryRegionInfo} : P.queryMemoryRegion registers.sp = some info →
      registers.hasFrameRegisters = true → usesLr P (stackRange registers info) registers = true →
      0 < framesCount → Reported registers framesCount (stripArm64PointerAuth registers.lr)
  | record {info : MemoryRegionInfo} {fp a : Address} :
      P.queryMemoryRegion registers.sp = some info →
      Begins P (stackRange registers info) registers fp →
      Returns P (stackRange registers info)
        (framesCount - if registers.hasFrameRegisters ∧
          usesLr P (stackRange registers info) registers then 1 else 0)
        fp a →
      Reported registers framesCount a

/-! ## Call words -/

theorem masksBlra_iff (w : BitVec 32) :
    masksBlra w = true ↔ isBlra w = true ∨ isBlraz w = true ∨ unallocated w = true := by
  have hz : w &&& 0xFFFFF81F = 0xD63F081F ↔ w &&& 0xFFFFF800 = 0xD63F0800 ∧ w &&& 0x1F = 0x1F :=
    @mask_or_iff 32 w 0xFFFFF800 0x1F 0xD63F0800 0x1F (by decide) (by decide)
  have hclear : w &&& 0xFFFFF800 = 0xD63F0800 ↔ w &&& 0xFEFFF800 = 0xD63F0800 ∧
      w &&& 0x01000000 = 0 :=
    @mask_or_iff 32 w 0xFEFFF800 0x01000000 0xD63F0800 0 (by decide) (by decide)
  have hset : w &&& 0xFFFFF800 = 0xD73F0800 ↔ w &&& 0xFEFFF800 = 0xD63F0800 ∧
      w &&& 0x01000000 = 0x01000000 :=
    @mask_or_iff 32 w 0xFEFFF800 0x01000000 0xD63F0800 0x01000000 (by decide) (by decide)
  have hbit : w &&& 0x01000000 = 0 ∨ w &&& 0x01000000 = 0x01000000 := by
    have h := BitVec.and_twoPow w 24
    by_cases hw : w.getLsbD 24 = true
    · exact .inr (by rw [if_pos hw] at h; exact h)
    · exact .inl (by rw [if_neg hw] at h; exact h)
  simp only [masksBlra, isBlra, isBlraz, unallocated, beq_iff_eq, Bool.and_eq_true,
    bne_iff_ne, ne_eq]
  rw [hz, hset, hclear]
  tauto

theorem isCall_of_unallocated {w : BitVec 32} (h : unallocated w = true) : isCall w = false := by
  obtain ⟨hw, hlow⟩ := Bool.and_eq_true_iff.1 h
  have hz : isBlraz w = false := by
    rw [isBlraz, beq_eq_false_iff_ne]
    intro he
    have hmeet : w &&& 0x1F = 0x1F := by
      rw [show (0x1F : BitVec 32) = 0xFFFFF81F &&& 0x1F from rfl, ← BitVec.and_assoc, he]
      rfl
    rw [hmeet] at hlow
    exact absurd hlow (by decide)
  have hbl : isBl w = false := mask_exclusive hw (by decide)
  have hblr : isBlr w = false := mask_exclusive hw (by decide)
  have hblra : isBlra w = false := mask_exclusive hw (by decide)
  rw [isCall, hbl, hblr, hblra, hz]
  rfl

/-! ## Records -/

variable {P}
variable {range : StackRange} {fp : Address}

theorem isArm64ReturnAddress_iff {a : Address} :
    isArm64ReturnAddress P a = true ↔ 4 ≤ a.toNat ∧ a.toNat % 4 = 0 ∧ execBefore P a = true ∧
      ∃ w, wordBefore P a = some w ∧ (isCall w = true ∨ unallocated w = true) := by
  have hplace : (a < 4 ∨ a &&& 3 ≠ 0) ↔ ¬ (4 ≤ a.toNat ∧ a.toNat % 4 = 0) := by
    have h3 : (a &&& 3).toNat = a.toNat % 4 := toNat_and_low a 2 (by decide)
    rw [BitVec.lt_def, ← h3, ne_eq, ← BitVec.toNat_inj]
    change a.toNat < 4 ∨ ¬ (a &&& 3).toNat = 0 ↔ _
    omega
  have hword : ∀ w, (if isBl w then true else if isBlr w then true else masksBlra w) = true ↔
      isCall w = true ∨ unallocated w = true := by
    intro w
    have hm := masksBlra_iff w
    simp only [isCall, Bool.or_eq_true]
    cases isBl w <;> cases isBlr w <;> simp [hm, or_assoc]
  rw [isArm64ReturnAddress]
  by_cases hp : 4 ≤ a.toNat ∧ a.toNat % 4 = 0
  · rw [if_neg (fun h => hplace.1 h hp)]
    cases hx : execBefore P a with
    | false => simp
    | true =>
      cases hw : wordBefore P a with
      | none => simp
      | some w => simpa [hp] using hword w
  · rw [if_pos (hplace.2 hp)]
    constructor
    · intro h
      cases h
    · rintro ⟨h4, hm, -⟩
      exact absurd ⟨h4, hm⟩ hp

theorem admits_iff : range.admits fp = true ↔ fp.toNat % 8 = 0 ∧ range.begin.toNat ≤ fp.toNat ∧
    fp.toNat + 16 ≤ range.stop.toNat := by
  have h7 : (fp &&& 7).toNat = fp.toNat % 8 := toNat_and_low fp 3 (by decide)
  have h0 : fp &&& 7 = 0 ↔ fp.toNat % 8 = 0 := by
    rw [← h7, ← BitVec.toNat_inj]
    rfl
  rw [StackRange.admits, StackRange.Holds, Bool.and_eq_true, beq_iff_eq, h0, Bool.and_eq_true,
    Bool.and_eq_true, decide_eq_true_iff, decide_eq_true_iff, decide_eq_true_iff, BitVec.le_def,
    BitVec.le_def, BitVec.le_def]
  change _ ∧ (_ ∧ _) ∧ 16 ≤ _ ↔ _
  constructor
  · rintro ⟨h8, ⟨hlo, hhi⟩, hsize⟩
    rw [BitVec.toNat_sub_of_le hhi] at hsize
    omega
  · rintro ⟨h8, hlo, hhi⟩
    have hle : fp ≤ range.stop := by
      rw [BitVec.le_def]
      omega
    refine ⟨h8, ⟨hlo, BitVec.le_def.1 hle⟩, ?_⟩
    rw [BitVec.toNat_sub_of_le hle]
    omega

/-- What a record that was read is like. -/
theorem of_readFrameRecord {nextFp a : Address}
    (h : readFrameRecord P range fp = some (nextFp, a)) :
    range.admits fp = true ∧ isArm64ReturnAddress P a = true := by
  rw [readFrameRecord] at h
  split at h
  · cases h
  · next hadm =>
    have hadm : range.admits fp = true := by simpa using hadm
    split at h
    · split at h
      · next hret =>
        cases h
        exact ⟨hadm, hret⟩
      · cases h
    · cases h

theorem admits_of_isFrameRecord (h : isFrameRecord P range fp = true) : range.admits fp = true := by
  rw [isFrameRecord] at h
  split at h
  · cases h
  · next hr => exact (of_readFrameRecord hr).1

/-! ## The search -/

section Search

variable {registers : Arm64ThreadRegisters} {slot stop : Address}

/-- The search goes from slot to slot. -/
theorem search_inl {n : Nat} {t : Address} (h : search P range stop n slot = .inl t) :
    t = slot + BitVec.ofNat 64 (8 * n) := by
  induction n generalizing t with
  | zero =>
    cases h
    exact (BitVec.add_zero _).symm
  | succ n ih =>
    obtain ⟨u, hu, ht⟩ := runFrom_pred h
    rw [ih hu, searchTurn] at ht
    split at ht
    · split at ht
      · cases ht
      · cases ht
        rw [Nat.mul_succ, BitVec.ofNat_add, BitVec.add_assoc]
        rfl
    · cases ht

/-- It goes on where every slot before does not end it. -/
theorem search_eq_inl {n : Nat}
    (h : ∀ k < n, slot + BitVec.ofNat 64 (8 * k) + 16 ≤ stop ∧
      isFrameRecord P range (slot + BitVec.ofNat 64 (8 * k)) = false) :
    search P range stop n slot = .inl (slot + BitVec.ofNat 64 (8 * n)) := by
  induction n with
  | zero => exact congrArg Sum.inl (BitVec.add_zero _).symm
  | succ n ih =>
    have hn := ih fun k hk => h k (Nat.lt_succ_of_lt hk)
    obtain ⟨hle, hrec⟩ := h n (Nat.lt_succ_self n)
    rw [search, runFrom_succ hn, searchTurn, if_pos hle, hrec, Nat.mul_succ, BitVec.ofNat_add,
      BitVec.add_assoc]
    rfl

theorem toNat_slot (h8 : slot.toNat % 8 = 0) (n : Nat) :
    (slot + BitVec.ofNat 64 (8 * n)).toNat = (slot.toNat + 8 * n) % 2 ^ 64 ∧
      (slot + BitVec.ofNat 64 (8 * n)).toNat % 8 = 0 := by
  have h : (slot + BitVec.ofNat 64 (8 * n)).toNat = (slot.toNat + 8 * n) % 2 ^ 64 := by
    rw [BitVec.toNat_add, BitVec.toNat_ofNat, Nat.add_mod_mod]
  exact ⟨h, by omega⟩

theorem toNat_firstSlot (registers : Arm64ThreadRegisters) :
    (firstSlot registers).toNat = (registers.sp.toNat + 7) % 2 ^ 64 / 8 * 8 := by
  rw [firstSlot, show registers.sp + 7 &&& ~~~7 =
    registers.sp + 7 &&& ~~~BitVec.ofNat 64 (2 ^ 3 - 1) from rfl,
    toNat_clear_low, BitVec.toNat_add]
  rfl

/-- A search that is to stop below the last slot is left: at the latest in front of that slot. -/
theorem search_ends_of_lt (h8 : slot.toNat % 8 = 0) (hstop : stop.toNat < 2 ^ 64 - 8) :
    ∃ fuel fp, search P range stop fuel slot = .inr fp := by
  -- the turn at which the slot is 2^64 - 24
  obtain ⟨n, hn⟩ : ∃ n, (slot.toNat + 8 * n) % 2 ^ 64 = 2 ^ 64 - 24 := by
    refine ⟨(2 ^ 65 - 24 - slot.toNat) / 8, ?_⟩
    have := slot.isLt
    omega
  cases hrun : search P range stop n slot with
  | inr fp => exact ⟨n, fp, hrun⟩
  | inl t =>
    have ht : t.toNat = 2 ^ 64 - 24 := by rw [search_inl hrun, (toNat_slot h8 n).1, hn]
    refine ⟨n + 1, 0, (runFrom_succ hrun).trans ?_⟩
    rw [searchTurn, if_neg]
    rw [BitVec.le_def, BitVec.toNat_add, ht]
    change ¬ (2 ^ 64 - 24 + 16) % 2 ^ 64 ≤ stop.toNat
    omega

/-- A search with neither a record nor an end is never left. -/
theorem search_runs_on (h8 : slot.toNat % 8 = 0) (hstop : 2 ^ 64 - 8 ≤ stop.toNat)
    (hnone : ∀ t : Address, t.toNat % 8 = 0 → isFrameRecord P range t = false) (fuel : Nat) :
    search P range stop fuel slot = .inl (slot + BitVec.ofNat 64 (8 * fuel)) := by
  refine search_eq_inl fun k _ => ⟨?_, hnone _ (toNat_slot h8 k).2⟩
  have := (toNat_slot h8 k).2
  rw [BitVec.le_def, BitVec.toNat_add]
  change ((slot + BitVec.ofNat 64 (8 * k)).toNat + 16) % 2 ^ 64 ≤ stop.toNat
  omega

/-- The lowest record is found, where the search goes as far as that. -/
theorem search_finds {fp : Address} (h8 : slot.toNat % 8 = 0) (hle : slot ≤ fp)
    (hfp8 : fp.toNat % 8 = 0) (hfp : isFrameRecord P range fp = true) (hstop : fp + 16 ≤ stop)
    (hleast : ∀ t, t.toNat % 8 = 0 → isFrameRecord P range t = true → fp ≤ t) :
    ∃ fuel, search P range stop fuel slot = .inr fp := by
  obtain ⟨-, -, hfit⟩ := admits_iff.1 (admits_of_isFrameRecord hfp)
  have hmax := range.stop.isLt
  rw [BitVec.le_def] at hle
  have hstop' : fp.toNat + 16 ≤ stop.toNat := by
    rw [BitVec.le_def, BitVec.toNat_add] at hstop
    change (fp.toNat + 16) % 2 ^ 64 ≤ stop.toNat at hstop
    omega
  obtain ⟨n, hn⟩ : ∃ n, slot.toNat + 8 * n = fp.toNat := ⟨(fp.toNat - slot.toNat) / 8, by omega⟩
  have hrun : search P range stop n slot = .inl (slot + BitVec.ofNat 64 (8 * n)) := by
    refine search_eq_inl fun k hk => ?_
    obtain ⟨ht, ht8⟩ := toNat_slot h8 k
    refine ⟨?_, Bool.eq_false_iff.2 fun hrec => ?_⟩
    · rw [BitVec.le_def, BitVec.toNat_add, ht]
      change ((slot.toNat + 8 * k) % 2 ^ 64 + 16) % 2 ^ 64 ≤ stop.toNat
      omega
    · have := BitVec.le_def.1 (hleast _ ht8 hrec)
      omega
  have hat : slot + BitVec.ofNat 64 (8 * n) = fp := by
    rw [← BitVec.toNat_inj, (toNat_slot h8 n).1]
    omega
  refine ⟨n + 1, (runFrom_succ hrun).trans ?_⟩
  rw [hat, searchTurn, if_pos hstop, if_pos hfp]

/-- Where there is a record, there is a lowest one. -/
theorem exists_lowest {t : Address} (ht8 : t.toNat % 8 = 0) (ht : isFrameRecord P range t = true) :
    ∃ fp : Address, fp ≤ t ∧ fp.toNat % 8 = 0 ∧ isFrameRecord P range fp = true ∧
      ∀ u : Address, u.toNat % 8 = 0 → isFrameRecord P range u = true → fp ≤ u := by
  classical
  have h : ∃ n, ∃ u : Address, u.toNat = n ∧ u.toNat % 8 = 0 ∧ isFrameRecord P range u = true :=
    ⟨_, t, rfl, ht8, ht⟩
  obtain ⟨fp, hfp, hfp8, hrec⟩ := Nat.find_spec h
  have hmin : ∀ u : Address, u.toNat % 8 = 0 → isFrameRecord P range u = true → fp ≤ u := by
    intro u hu8 hu
    rw [BitVec.le_def, hfp]
    exact Nat.find_min' h ⟨u, rfl, hu8, hu⟩
  exact ⟨fp, hmin t ht8 ht, hfp8, hrec, hmin⟩

/-- A search that did not come to its end has found the lowest record. -/
theorem of_search {fuel : Nat} {fp : Address} (h8 : slot.toNat % 8 = 0)
    (hfirst : ∀ t : Address, t.toNat % 8 = 0 → isFrameRecord P range t = true → slot ≤ t)
    (h : search P range stop fuel slot = .inr fp) (h0 : fp ≠ 0) :
    (fp.toNat % 8 = 0 ∧ isFrameRecord P range fp = true ∧ fp + 16 ≤ stop) ∧
      ∀ t : Address, t.toNat % 8 = 0 → isFrameRecord P range t = true → fp ≤ t := by
  obtain ⟨n, t, -, hrun, hlast⟩ := exists_last h
  have ht8 : t.toNat % 8 = 0 := by
    rw [search_inl hrun]
    exact (toNat_slot h8 n).2
  rw [searchTurn] at hlast
  split at hlast
  · next hle =>
    split at hlast
    · next hrec =>
      obtain rfl := Sum.inr.inj hlast
      obtain ⟨u, hu, hu8, hurec, hmin⟩ := exists_lowest ht8 hrec
      -- the lowest record is found, and a search has one outcome
      have hustop : u + 16 ≤ stop := by
        have hfit := (admits_iff.1 (admits_of_isFrameRecord hrec)).2.2
        have hmax := range.stop.isLt
        rw [BitVec.le_def, BitVec.toNat_add] at hle ⊢
        rw [BitVec.le_def] at hu
        change (t.toNat + 16) % 2 ^ 64 ≤ _ at hle
        change (u.toNat + 16) % 2 ^ 64 ≤ _
        omega
      obtain ⟨fuel', hfound⟩ := search_finds h8 (hfirst u hu8 hurec) hu8 hurec hustop hmin
      obtain rfl := runFrom_inr_unique h hfound
      exact ⟨⟨hu8, hurec, hustop⟩, hmin⟩
    · cases hlast
  · exact absurd (Sum.inr.inj hlast).symm h0

/-- When the search is left. -/
theorem search_ends_iff (h8 : slot.toNat % 8 = 0)
    (hfirst : ∀ t : Address, t.toNat % 8 = 0 → isFrameRecord P range t = true → slot ≤ t) :
    (∃ fuel fp, search P range stop fuel slot = .inr fp) ↔
      stop.toNat < 2 ^ 64 - 8 ∨ ∃ t : Address,
      t.toNat % 8 = 0 ∧ isFrameRecord P range t = true := by
  constructor
  · rintro ⟨fuel, fp, h⟩
    by_contra hnot
    have hstop : 2 ^ 64 - 8 ≤ stop.toNat := Nat.le_of_not_lt fun hlt => hnot (.inl hlt)
    rw [search_runs_on h8 hstop
      (fun t ht8 => Bool.eq_false_iff.2 fun ht => hnot (.inr ⟨t, ht8, ht⟩))] at h
    cases h
  · rintro (hlt | ⟨t, ht8, ht⟩)
    · exact search_ends_of_lt h8 hlt
    · by_cases hstop : stop.toNat < 2 ^ 64 - 8
      · exact search_ends_of_lt h8 hstop
      · obtain ⟨fp, -, hfp8, hfp, hmin⟩ := exists_lowest ht8 ht
        have hfits : fp + 16 ≤ stop := by
          have hfit := (admits_iff.1 (admits_of_isFrameRecord hfp)).2.2
          have hmax := range.stop.isLt
          rw [BitVec.le_def, BitVec.toNat_add]
          change (fp.toNat + 16) % 2 ^ 64 ≤ _
          omega
        obtain ⟨fuel, hrun⟩ := search_finds h8 (hfirst fp hfp8 hfp) hfp8 hfp hfits hmin
        exact ⟨fuel, fp, hrun⟩

end Search

/-! ## The chain -/

section Chain

variable {framesCount : Nat} {c d : Chain}

theorem look_of_admits (h : range.admits c.fp = true) :
    c.look range = { c with records := c.records ++ [c.fp] } := by
  rw [Chain.look, if_pos h]

/-- A turn that goes on. -/
theorem chainTurn_inl (h : chainTurn P range framesCount c = .inl d) :
    ∃ nextFp a, c.fp ≠ 0 ∧ c.stack.length < framesCount ∧ readFrameRecord P range c.fp = some
    (nextFp, a) ∧
      c.fp < nextFp ∧ d = ⟨nextFp, c.stack ++ [a], c.records ++ [c.fp]⟩ := by
  rw [chainTurn] at h
  split at h
  · next hgo =>
    split at h
    · cases h
    · next nextFp a hread =>
      dsimp only at h
      split at h
      · cases h
      · next hlt =>
        cases h
        exact ⟨nextFp, a, hgo.1, hgo.2, hread, BitVec.not_le.1 hlt, by
          rw [look_of_admits (of_readFrameRecord hread).1]⟩
  · cases h

/-- A turn that ends the loop: at its condition, at no record, or at one that leads nowhere. -/
theorem chainTurn_inr (h : chainTurn P range framesCount c = .inr d) :
    ((c.fp = 0 ∨ framesCount ≤ c.stack.length) ∧ d = c) ∨
    (c.fp ≠ 0 ∧ c.stack.length < framesCount ∧ readFrameRecord P range c.fp = none ∧
      d = c.look range) ∨
    ∃ nextFp a, c.fp ≠ 0 ∧ c.stack.length < framesCount ∧ readFrameRecord P range c.fp = some
    (nextFp, a) ∧
      nextFp ≤ c.fp ∧ d = ⟨c.fp, c.stack ++ [a], c.records ++ [c.fp]⟩ := by
  rw [chainTurn] at h
  split at h
  · next hgo =>
    split at h
    · next hread =>
      cases h
      exact .inr (.inl ⟨hgo.1, hgo.2, hread, rfl⟩)
    · next nextFp a hread =>
      dsimp only at h
      split at h
      · next hle =>
        cases h
        exact .inr (.inr ⟨nextFp, a, hgo.1, hgo.2, hread, hle, by
          rw [look_of_admits (of_readFrameRecord hread).1]⟩)
      · cases h
  · next hstop =>
    cases h
    refine .inl ⟨?_, rfl⟩
    by_cases h0 : c.fp = 0
    · exact .inl h0
    · exact .inr (Nat.le_of_not_lt fun hlt => hstop ⟨h0, hlt⟩)

/-- The loop along the chain is left: each turn reports an address. -/
theorem chain_ends (P : Process) (range : StackRange) (framesCount : Nat) (c : Chain) :
    ∃ fuel d, runFrom (fun _ => chainTurn P range framesCount) 0 fuel c = .inr d := by
  refine exists_runFrom_inr_of_reached (fun c => framesCount - c.stack.length) fun p q _ hq => ?_
  obtain ⟨_, _, -, hlt, -, -, rfl⟩ := chainTurn_inl hq
  rw [List.length_append, List.length_singleton]
  omega

/-- No more addresses than asked for. -/
theorem chain_length {fuel k : Nat}
    (h : runFrom (fun _ => chainTurn P range framesCount) k fuel c = .inr d)
    (hc : c.stack.length ≤ framesCount) : d.stack.length ≤ framesCount := by
  obtain ⟨n, p, -, hrun, hlast⟩ := exists_last h
  have hp : p.stack.length ≤ framesCount := by
    refine runFrom_inv (P := fun c : Chain => c.stack.length ≤ framesCount)
      (fun _ s t _ hst => ?_) hc hrun
    obtain ⟨_, _, -, hlt, -, -, rfl⟩ := chainTurn_inl hst
    rw [List.length_append, List.length_singleton]
    omega
  obtain ⟨-, rfl⟩ | ⟨-, -, -, rfl⟩ | ⟨_, _, -, hlt, -, -, rfl⟩ := chainTurn_inr hlast
  · exact hp
  · rw [Chain.look]
    split <;> exact hp
  · rw [List.length_append, List.length_singleton]
    omega

/-- The records that were followed: ever higher, and each where one can be. -/
structure Climbs (range : StackRange) (c : Chain) : Prop where
  increasing : c.records.Pairwise (· < ·)
  admitted : ∀ fp ∈ c.records, range.admits fp = true
  below : ∀ fp ∈ c.records, fp < c.fp

theorem Climbs.append (h : Climbs range c) (hadm : range.admits c.fp = true) :
    (c.records ++ [c.fp]).Pairwise (· < ·) ∧ ∀ fp ∈ c.records ++ [c.fp],
    range.admits fp = true := by
  constructor
  · refine List.pairwise_append.2 ⟨h.increasing, List.pairwise_singleton _ _, fun fp hfp b hb => ?_⟩
    rw [List.mem_singleton.1 hb]
    exact h.below fp hfp
  · intro fp hfp
    rcases List.mem_append.1 hfp with hfp | hfp
    · exact h.admitted fp hfp
    · rw [List.mem_singleton.1 hfp]
      exact hadm

theorem Climbs.next (h : Climbs range c) (hcd : chainTurn P range framesCount c = .inl d) :
    Climbs range d := by
  obtain ⟨nextFp, a, -, -, hread, hlt, rfl⟩ := chainTurn_inl hcd
  obtain ⟨hinc, hadm⟩ := h.append (of_readFrameRecord hread).1
  refine ⟨hinc, hadm, fun fp hfp => ?_⟩
  rcases List.mem_append.1 hfp with hfp | hfp
  · exact BitVec.lt_trans (h.below fp hfp) hlt
  · rw [List.mem_singleton.1 hfp]
    exact hlt

theorem chain_records {fuel k : Nat}
    (h : runFrom (fun _ => chainTurn P range framesCount) k fuel c = .inr d)
    (hc : c.records = []) : d.records.Pairwise (· < ·) ∧ ∀ fp ∈ d.records,
    range.admits fp = true := by
  have hstart : Climbs range c := by
    constructor <;> simp [hc]
  obtain ⟨n, p, -, hrun, hlast⟩ := exists_last h
  have hp : Climbs range p := runFrom_inv (fun _ s t hs hst => hs.next hst) hstart hrun
  obtain ⟨-, rfl⟩ | ⟨-, -, -, rfl⟩ | ⟨_, _, -, -, hread, -, rfl⟩ := chainTurn_inr hlast
  · exact ⟨hp.increasing, hp.admitted⟩
  · by_cases hadm : range.admits p.fp = true
    · rw [look_of_admits hadm]
      exact hp.append hadm
    · rw [Chain.look, if_neg hadm]
      exact ⟨hp.increasing, hp.admitted⟩
  · exact hp.append (of_readFrameRecord hread).1

/-- What there is at the first of the records. -/
theorem Returns.inv {n : Nat} {fp a : Address} (h : Returns P range n fp a) :
    fp ≠ 0 ∧ ∃ m nextFp b, n = m + 1 ∧ readFrameRecord P range fp = some (nextFp, b) ∧
      (a = b ∨ fp < nextFp ∧ Returns P range m nextFp a) := by
  cases h with
  | here h0 hread => exact ⟨h0, _, _, _, rfl, hread, .inl rfl⟩
  | up h0 hread hlt hret => exact ⟨h0, _, _, _, rfl, hread, .inr ⟨hlt, hret⟩⟩

/-- Which addresses the loop adds. -/
theorem chain_mem {fuel k : Nat}
    (h : runFrom (fun _ => chainTurn P range framesCount) k fuel c = .inr d)
    (a : Address) :
    a ∈ d.stack ↔ a ∈ c.stack ∨ Returns P range (framesCount - c.stack.length) c.fp a := by
  induction fuel generalizing k c with
  | zero => cases h
  | succ fuel ih =>
    cases ht : chainTurn P range framesCount c with
    | inl p =>
      rw [@runFrom_inl _ _ (fun _ => chainTurn P range framesCount) _ _ _ _ ht] at h
      obtain ⟨nextFp, b, h0, hlt, hread, hup, rfl⟩ := chainTurn_inl ht
      obtain ⟨n, hn⟩ := Nat.exists_eq_add_of_lt hlt
      have hleft : framesCount - c.stack.length = n + 1 := by omega
      have hleft' : framesCount - (c.stack ++ [b]).length = n := by
        rw [List.length_append, List.length_singleton]
        omega
      rw [ih h, hleft, hleft', List.mem_append, List.mem_singleton, or_assoc]
      refine or_congr_right ⟨?_, fun hret => ?_⟩
      · rintro (rfl | hret)
        · exact .here h0 hread
        · exact .up h0 hread hup hret
      · obtain ⟨-, m, _, _, hm, hr, hcase⟩ := hret.inv
        rw [hread] at hr
        cases hr
        cases hm
        exact hcase.imp_right (·.2)
    | inr p =>
      rw [@runFrom_inr _ _ (fun _ => chainTurn P range framesCount) _ _ _ _ ht] at h
      cases h
      obtain ⟨hstop, rfl⟩ | ⟨-, -, hread, rfl⟩ | ⟨nextFp, b, h0, hlt, hread, hle, rfl⟩ :=
        chainTurn_inr ht
      · refine ⟨.inl, fun hmem => hmem.resolve_right fun hret => ?_⟩
        obtain ⟨h0, m, _, _, hm, -, -⟩ := hret.inv
        rcases hstop with hzero | hfull
        · exact h0 hzero
        · omega
      · have hsame : (c.look range).stack = c.stack := by
          rw [Chain.look]
          split <;> rfl
        rw [hsame]
        refine ⟨.inl, fun hmem => hmem.resolve_right fun hret => ?_⟩
        obtain ⟨-, m, _, _, -, hr, -⟩ := hret.inv
        rw [hread] at hr
        cases hr
      · obtain ⟨n, hn⟩ := Nat.exists_eq_add_of_lt hlt
        have hleft : framesCount - c.stack.length = n + 1 := by omega
        rw [hleft, List.mem_append, List.mem_singleton]
        refine or_congr_right ⟨?_, fun hret => ?_⟩
        · rintro rfl
          exact .here h0 hread
        · obtain ⟨-, m, _, _, -, hr, hcase⟩ := hret.inv
          rw [hread] at hr
          cases hr
          exact hcase.resolve_right fun hup => absurd hle (BitVec.not_le.2 hup.1)

end Chain

/-! ## The walk -/

section Walk

variable {registers : Arm64ThreadRegisters} {framesCount : Nat} {info : MemoryRegionInfo}

/-- A record is in the region that `sp` is in. -/
theorem inStack_of_admits (hinfo : P.queryMemoryRegion registers.sp = some info)
    (h : (stackRange registers info).admits fp = true) : InStack P registers fp := by
  obtain ⟨-, hlo, hhi⟩ := admits_iff.1 h
  have hsp := (P.holds hinfo).1
  have hfits := info.fits
  refine ⟨info, hinfo, le_trans hsp hlo, le_trans hhi ?_⟩
  change (info.regionBase + info.regionSize).toNat ≤ _
  rw [BitVec.toNat_add]
  exact Nat.mod_le _ _

theorem firstSlot_aligned (registers : Arm64ThreadRegisters) :
    (firstSlot registers).toNat % 8 = 0 := by
  rw [toNat_firstSlot]
  exact Nat.mul_mod_left _ _

/-- No record is below the first slot. -/
theorem firstSlot_le {t : Address} (ht8 : t.toNat % 8 = 0)
    (ht : isFrameRecord P (stackRange registers info) t = true) : firstSlot registers ≤ t := by
  have hlo : registers.sp.toNat ≤ t.toNat := (admits_iff.1 (admits_of_isFrameRecord ht)).2.1
  have hmax := t.isLt
  rw [BitVec.le_def, toNat_firstSlot]
  omega

/-- How the walk comes to an address. -/
theorem walk_cases {fuel : Nat} {w : Walk} (hinfo : P.queryMemoryRegion registers.sp = some info)
    (h : walkArm64Stack P registers framesCount fuel = some w) :
    ∃ c d, firstFrame P (stackRange registers info) registers fuel = some c ∧
      runFrom (fun _ => chainTurn P (stackRange registers info) framesCount) 0 fuel c = .inr d ∧
      w = ⟨.ok (), d.stack.take framesCount, d.records⟩ := by
  simp only [walkArm64Stack, hinfo] at h
  split at h
  · cases h
  · next c hc =>
    split at h
    · cases h
    · next d hd =>
      cases h
      exact ⟨c, d, hc, hd, rfl⟩

/-- Where the chain begins. -/
theorem firstFrame_spec {fuel : Nat} {c : Chain}
    (h : firstFrame P (stackRange registers info) registers fuel = some c) :
    c.records = [] ∧
    c.stack = (if registers.hasFrameRegisters ∧ usesLr P (stackRange registers info) registers
      then [stripArm64PointerAuth registers.lr] else []) ∧
    (c.fp ≠ 0 → Begins P (stackRange registers info) registers c.fp) ∧
    ∀ fp, Begins P (stackRange registers info) registers fp → fp = c.fp := by
  rw [firstFrame] at h
  cases hf : registers.hasFrameRegisters with
  | true =>
    rw [hf, if_pos rfl] at h
    cases h
    simp [Begins, hf]
  | false =>
    rw [hf, if_neg (by decide)] at h
    split at h
    · cases h
    · next fp hrun =>
      cases h
      refine ⟨rfl, by simp, fun h0 => ?_, fun fp' hfp' => ?_⟩
      · rw [Begins, hf]
        exact of_search (firstSlot_aligned registers) (fun _ => firstSlot_le) hrun h0
      · rw [Begins, hf] at hfp'
        obtain ⟨⟨h8, hrec, hstop⟩, hmin⟩ := hfp'
        obtain ⟨fuel', hfound⟩ :=
          search_finds (firstSlot_aligned registers) (firstSlot_le h8 hrec) h8 hrec hstop hmin
        exact runFrom_inr_unique hfound hrun

/-- The walk ends where the search does. -/
theorem walk_ends_iff (P : Process) (registers : Arm64ThreadRegisters) (framesCount : Nat) :
    (∃ fuel w, walkArm64Stack P registers framesCount fuel = some w) ↔ SearchEnds P registers := by
  constructor
  · rintro ⟨fuel, w, h⟩ info hinfo hf
    obtain ⟨c, -, hc, -, -⟩ := walk_cases hinfo h
    rw [firstFrame, hf, if_neg (by decide)] at hc
    split at hc
    · cases hc
    · next fp hrun =>
      exact (search_ends_iff (firstSlot_aligned registers) (fun _ => firstSlot_le)).1
        ⟨fuel, fp, hrun⟩
  · intro hends
    cases hq : P.queryMemoryRegion registers.sp with
    | none => exact ⟨0, ⟨.error .EFAULT, [], []⟩, by simp only [walkArm64Stack, hq]⟩
    | some info =>
      have hfirst : ∃ fuel c, ∀ more,
          firstFrame P (stackRange registers info) registers (fuel + more) = some c := by
        cases hf : registers.hasFrameRegisters with
        | true => exact ⟨0, _, fun more => by rw [firstFrame, hf, if_pos rfl]⟩
        | false =>
          obtain ⟨fuel, fp, hrun⟩ :=
            (search_ends_iff (firstSlot_aligned registers) (fun _ => firstSlot_le)).2
              (hends info hq hf)
          refine ⟨fuel, ⟨fp, [], []⟩, fun more => ?_⟩
          have hmore : search P (stackRange registers info)
            (searchEnd (stackRange registers info) registers)
              (fuel + more) (firstSlot registers) = .inr fp := runFrom_inr_mono hrun more
          rw [firstFrame, hf, if_neg (by decide), hmore]
      obtain ⟨fuel, c, hc⟩ := hfirst
      obtain ⟨fuel', d, hd⟩ := chain_ends P (stackRange registers info) framesCount c
      have hd' := runFrom_inr_mono hd fuel
      rw [Nat.add_comm] at hd'
      exact ⟨fuel + fuel', ⟨.ok (), d.stack.take framesCount,
        d.records⟩, by simp only [walkArm64Stack, hq, hc, hd']⟩

/-- The walk delivers what there is to report. -/
theorem mem_stack_iff {fuel : Nat} {w : Walk} (hinfo : P.queryMemoryRegion registers.sp = some info)
    (h : walkArm64Stack P registers framesCount fuel = some w) (a : Address) :
    a ∈ w.stack ↔ Reported P registers framesCount a := by
  obtain ⟨c, d, hc, hd, rfl⟩ := walk_cases hinfo h
  obtain ⟨-, hstack, hbegins, honly⟩ := firstFrame_spec hc
  have hlen : c.stack.length =
      if registers.hasFrameRegisters ∧ usesLr P (stackRange registers info) registers then 1
      else 0 := by
    rw [hstack]
    split <;> rfl
  have hone : c.stack.length ≤ 1 := by
    rw [hlen]
    split <;> decide
  change a ∈ d.stack.take framesCount ↔ _
  rcases Nat.eq_zero_or_pos framesCount with rfl | hpos
  · rw [List.take_zero]
    refine ⟨fun hmem => absurd hmem List.not_mem_nil, fun hrep => ?_⟩
    cases hrep with
    | lr _ _ _ hlt => exact absurd hlt (Nat.lt_irrefl 0)
    | record _ _ hret =>
      obtain ⟨-, m, _, _, hm, -, -⟩ := hret.inv
      omega
  · rw [List.take_of_length_le (chain_length hd (le_trans hone hpos)), chain_mem hd, hlen]
    constructor
    · rintro (hmem | hret)
      · rw [hstack] at hmem
        split at hmem
        · next hlr =>
          rw [List.mem_singleton.1 hmem]
          exact .lr hinfo hlr.1 hlr.2 hpos
        · exact absurd hmem List.not_mem_nil
      · exact .record hinfo (hbegins hret.inv.1) hret
    · intro hrep
      cases hrep with
      | lr hinfo' hf hlr _ =>
        rw [hinfo] at hinfo'
        cases hinfo'
        rw [hstack, if_pos ⟨hf, hlr⟩]
        exact .inl (List.mem_singleton_self _)
      | record hinfo' hbeg hret =>
        rw [hinfo] at hinfo'
        cases hinfo'
        rw [← honly _ hbeg]
        exact .inr hret

theorem Returns.isArm64ReturnAddress {n : Nat} {fp a : Address} (h : Returns P range n fp a) :
    isArm64ReturnAddress P a = true := by
  induction h with
  | here _ hread => exact (of_readFrameRecord hread).2
  | up _ _ _ _ ih => exact ih

theorem Reported.isArm64ReturnAddress {a : Address} (h : Reported P registers framesCount a) :
    isArm64ReturnAddress P a = true := by
  cases h with
  | lr _ _ hlr _ =>
    rw [usesLr] at hlr
    split at hlr
    · next hret => exact (Bool.and_eq_true_iff.1 hret).2
    · cases hlr
  | record _ _ hret => exact hret.isArm64ReturnAddress

/-- The walk is sound exactly where its search ends and nothing that it reports stands behind a word
that is no instruction. -/
theorem sound_iff (P : Process) (registers : Arm64ThreadRegisters) (framesCount : Nat) :
    Sound P registers framesCount ↔ SearchEnds P registers ∧
      ∀ a, Reported P registers framesCount a → ∀ w,
      wordBefore P a = some w → unallocated w = false := by
  constructor
  · intro h
    refine ⟨(walk_ends_iff P registers framesCount).1 h.ends, fun a ha w hw => ?_⟩
    obtain ⟨fuel, r, hr⟩ := h.ends
    obtain ⟨info, hinfo⟩ : ∃ info, P.queryMemoryRegion registers.sp = some info := by
      cases ha with
      | lr hinfo => exact ⟨_, hinfo⟩
      | record hinfo => exact ⟨_, hinfo⟩
    obtain ⟨w', hw', hcall⟩ := (h.returns fuel r hr a ((mem_stack_iff hinfo hr a).2 ha)).call
    rw [hw] at hw'
    cases hw'
    refine Bool.eq_false_iff.2 fun hun => ?_
    rw [isCall_of_unallocated hun] at hcall
    cases hcall
  · rintro ⟨hends, hcalls⟩
    refine ⟨(walk_ends_iff P registers framesCount).2 hends, fun fuel w hw => ?_,
      fun fuel w hw => ?_, fun fuel w hw => ?_⟩
    all_goals
      cases hq : P.queryMemoryRegion registers.sp with
      | none =>
        simp only [walkArm64Stack, hq] at hw
        cases hw
        simp
      | some info => ?_
    · obtain ⟨_, d, -, -, rfl⟩ := walk_cases hq hw
      exact List.length_take_le framesCount d.stack
    · intro a ha
      have hrep := (mem_stack_iff hq hw a).1 ha
      obtain ⟨-, h4, hexec, word, hword, hcall⟩ :=
        isArm64ReturnAddress_iff.1 hrep.isArm64ReturnAddress
      refine ⟨h4, hexec, word, hword, hcall.resolve_right fun hun => ?_⟩
      rw [hcalls a hrep word hword] at hun
      cases hun
    · obtain ⟨c, d, hc, hd, rfl⟩ := walk_cases hq hw
      obtain ⟨hinc, hadm⟩ := chain_records hd (firstFrame_spec hc).1
      exact ⟨hinc, fun fp hfp => inStack_of_admits hq (hadm fp hfp)⟩

end Walk

/-! ## A region at the end of the address space -/

/-- One region up to the end of the address space, and nothing to be read. -/
def lastRegion : Process where
  queryMemoryRegion a :=
    if 0xFFFFFFFFFFFF0000 ≤ a then
      some
        { regionBase := 0xFFFFFFFFFFFF0000, regionSize := 0x10000, protectExec := false,
          fits := by decide }
    else none
  memory _ := none
  holds {a info} h := by
    split at h
    · next ha =>
      cases h
      exact ⟨BitVec.le_def.1 ha, a.isLt⟩
    · cases h

/-- A thread with no x29, its stack pointer 0x4008 below the end. -/
def nearTheEnd : Arm64ThreadRegisters where
  pc := 0
  sp := 0xFFFFFFFFFFFFBFF8
  fp := 0
  lr := 0
  hasFrameRegisters := false

theorem not_sound_lastRegion : ¬ Sound lastRegion nearTheEnd 20 := by
  intro h
  obtain hlt | ⟨slot, h8, hrec⟩ := (walk_ends_iff _ _ _).1 h.ends _ rfl rfl
  · exact absurd hlt (by decide)
  · have hfit := (admits_iff.1 (admits_of_isFrameRecord hrec)).2.2
    exact absurd (Nat.le_trans (Nat.le_add_left _ _) hfit) (by decide)

end Diana.Orthia.Arm64StackWalk
