import Diana.Status
import Diana.Lib.LittleEndian
import Diana.Lib.Loop
import Diana.Lib.Patches
import Diana.Lib.Post
import Mathlib.Tactic.IntervalCases

/-!
# Relocations of a PE image

`DianaPeFile_FixRelocs`: the relocation directory is captured and walked block by block, and the
targets of each block are changed in the image by the distance from the old base to the new one
(`DianaPeFile_ProcessRelocationEntry`). How far the walk goes at a block is computed from the
block's own `SizeOfBlock`, with a 64-bit `size_t` that is cut to an `int`.

* `fixRelocs fuel`: the walk followed for at most `fuel` blocks;
* `fixRelocs_terminates_iff`: it comes to an end exactly if no block that it gets to has a
  `SizeOfBlock` of 0 or 1.
-/

namespace Diana.Pe

open Diana.Lib

abbrev Byte := BitVec 8

/-- `OPERAND_SIZE` -/
abbrev Value := BitVec 64

/-- `DianaReadWriteRandomStream` over a state `σ`: a read returns the bytes it could read, a write
the number of bytes it could write. -/
structure RandomStream (σ : Type) where
  read : σ → (address : Value) → (size : Nat) → Except Status (List Byte)
  write : σ → (address : Value) → List Byte → Except Status Nat × σ

variable {σ : Type}

/-- A running function on a stream. -/
abbrev Run (σ : Type) := EStateM Status σ

/-- `pRandomRead` of exactly `size` bytes. -/
def readExact (S : RandomStream σ) (address : Value) (size : Nat) : Run σ (List Byte) := do
  let s ← get
  match S.read s address size with
  | .error e => throw e
  | .ok bs => if bs.length = size then pure bs else throw .error

/-- `pRandomWrite` of all the bytes. -/
def writeExact (S : RandomStream σ) (address : Value) (bs : List Byte) : Run σ Unit := do
  let s ← get
  let (r, t) := S.write s address bs
  set t
  match r with
  | .error e => throw e
  | .ok wrote => if wrote = bs.length then pure () else throw .error

/-! ## Targets -/

/-- `DIANA_IMAGE_REL_BASED_*`, those that change the image. -/
inductive Kind where
  | high | highLow | thumbMov32 | dir64
  deriving DecidableEq, Repr

/-- The switch of `DianaPeFile_ProcessRelocationEntry`; every other type is passed over. -/
def Kind.ofType : Nat → Option Kind
  | 1 => some .high
  | 3 => some .highLow
  | 7 => some .thumbMov32
  | 10 => some .dir64
  | _ => none

/-- The bytes of a target. -/
def Kind.width : Kind → Nat
  | .high => 2
  | .highLow => 4
  | .thumbMov32 => 8
  | .dir64 => 8

/-- The two halfwords of a T32 instruction. -/
def halfwords (p : List Byte) : BitVec 32 × BitVec 32 :=
  (BitVec.ofNat 32 (leNat (p.take 2)), BitVec.ofNat 32 (leNat ((p.drop 2).take 2)))

/-- `DianaPe_GetThumbMovImm16` -/
def getThumbMovImm16 (p : List Byte) : BitVec 32 :=
  let (hw1, hw2) := halfwords p
  ((hw1 &&& 0xF) <<< 12) ||| (((hw1 >>> 10) &&& 1) <<< 11) ||| (((hw2 >>> 12) &&& 7) <<< 8) |||
    (hw2 &&& 0xFF)

/-- `DianaPe_SetThumbMovImm16` -/
def setThumbMovImm16 (p : List Byte) (imm16 : BitVec 32) : List Byte :=
  let (hw1, hw2) := halfwords p
  let hw1 := (hw1 &&& ~~~0x040F#32) ||| ((imm16 >>> 12) &&& 0xF) ||| (((imm16 >>> 11) &&& 1) <<< 10)
  let hw2 := (hw2 &&& ~~~0x70FF#32) ||| (((imm16 >>> 8) &&& 7) <<< 12) ||| (imm16 &&& 0xFF)
  leBytes 2 hw1.toNat ++ leBytes 2 hw2.toNat

/-- The 32-bit value of a `movw`/`movt` pair. -/
def thumbPair (pair : List Byte) : BitVec 32 :=
  getThumbMovImm16 pair ||| (getThumbMovImm16 (pair.drop 4) <<< 16)

/-- What is written over a target. -/
def Kind.change (diff : Value) : Kind → List Byte → List Byte
  | .high, bs => leBytes 2 (((BitVec.ofNat 32 (leNat bs) <<< 16) + diff.setWidth 32) >>> 16).toNat
  | .highLow, bs => leBytes 4 (BitVec.ofNat 32 (leNat bs) + diff.setWidth 32).toNat
  | .thumbMov32, bs =>
    let v := thumbPair bs + diff.setWidth 32
    setThumbMovImm16 (bs.take 4) (v &&& 0xFFFF) ++ setThumbMovImm16 (bs.drop 4) (v >>> 16)
  | .dir64, bs => leBytes 8 (BitVec.ofNat 64 (leNat bs) + diff).toNat

/-- `Diana_SafeAdd` -/
def safeAdd (a b : Value) : Except Status Value :=
  if 0xFFFFFFFFFFFFFFFF - a < b then .error .overflow else .ok (a + b)

theorem safeAdd_of_fit {a b : Value} (h : a.toNat + b.toNat < 2 ^ 64) :
    safeAdd a b = .ok (a + b) := by
  have ha := a.isLt
  unfold safeAdd
  rw [if_neg]
  rw [BitVec.lt_def, BitVec.toNat_sub_of_le (BitVec.le_def.2 (Nat.le_of_lt_succ ha))]
  change ¬ 2 ^ 64 - 1 - a.toNat < b.toNat
  omega

theorem safeAdd_of_not_fit {a b : Value} (h : 2 ^ 64 ≤ a.toNat + b.toNat) :
    safeAdd a b = .error .overflow := by
  have ha := a.isLt
  unfold safeAdd
  rw [if_pos]
  rw [BitVec.lt_def, BitVec.toNat_sub_of_le (BitVec.le_def.2 (Nat.le_of_lt_succ ha))]
  change 2 ^ 64 - 1 - a.toNat < b.toNat
  omega

/-- The offset of a target in the image. -/
def rawTarget (virtualAddress : BitVec 32) (subEntry : BitVec 16) : BitVec 32 :=
  virtualAddress + (subEntry &&& 0xFFF).setWidth 32

/-- One turn of the loop of `DianaPeFile_ProcessRelocationEntry`. -/
def processSubEntry (S : RandomStream σ) (moduleAddress : Value) (virtualAddress : BitVec 32)
    (diff : Value) (subEntry : BitVec 16) : Run σ Unit := do
  let raw := rawTarget virtualAddress subEntry
  if raw = 0 then return
  match safeAdd moduleAddress (raw.setWidth 64) with
  | .error e => throw e
  | .ok targetAddress =>
    match Kind.ofType (subEntry >>> 12).toNat with
    | none => pure ()
    | some kind => do
      let bs ← readExact S targetAddress kind.width
      writeExact S targetAddress (kind.change diff bs)

/-- The loop of `DianaPeFile_ProcessRelocationEntry`. -/
def processRelocationEntry (S : RandomStream σ) (moduleAddress : Value) (virtualAddress : BitVec 32)
    (diff : Value) : List (BitVec 16) → Run σ Unit
  | [] => pure ()
  | subEntry :: rest => do
    processSubEntry S moduleAddress virtualAddress diff subEntry
    processRelocationEntry S moduleAddress virtualAddress diff rest

/-! ## Blocks -/

/-- The number at an offset of the captured directory. -/
def numberAt (relocs : List Byte) (offset size : Nat) :
    Nat := leNat ((relocs.drop offset).take size)

/-- `pRelocationEntry->VirtualAddress` -/
def virtualAddressAt (relocs : List Byte) (offset : Nat) :
    BitVec 32 := BitVec.ofNat 32 (numberAt relocs offset 4)

/-- `pRelocationEntry->SizeOfBlock` -/
def sizeOfBlockAt (relocs : List Byte) (offset : Nat) : Nat := numberAt relocs (offset + 4) 4

/-- `sizeof(DIANA_IMAGE_BASE_RELOCATION)` -/
def headerSize : Nat := 8

/-- `iSubEntriesCount`: the difference is a `size_t`, the half of it an `int`. -/
def subEntriesCount (sizeOfBlock : Nat) : Int :=
  (((BitVec.ofNat 64 sizeOfBlock - BitVec.ofNat 64 headerSize) / 2#64).setWidth 32).toInt

/-- The sub entries of a block; there are none if the count is negative. -/
def subEntriesAt (relocs : List Byte) (offset : Nat) (count : Int) : List (BitVec 16) :=
  (List.range count.toNat).map fun i =>
    BitVec.ofNat 16 (numberAt relocs (offset + headerSize + 2 * i) 2)

/-- The turn of the loop over the blocks at an offset: the offset of the next one, or the end. -/
def blockTurn (S : RandomStream σ) (address diff : Value) (relocs : List Byte) :
    Nat × σ → (Nat × σ) ⊕ (Except Status Unit × σ) := fun (offset, s) =>
  if offset + headerSize < relocs.length then
    let size := sizeOfBlockAt relocs offset
    let count := subEntriesCount size
    if relocs.length - offset < size then .inr (.error .error, s)
    else
      match processRelocationEntry S address (virtualAddressAt relocs offset) diff
          (subEntriesAt relocs offset count) s with
      | .error e t => .inr (.error e, t)
      | .ok _ t => .inl ((offset + headerSize + 2 * count : Int).toNat, t)
  else .inr (.ok (), s)

/-- `DIANA_MAX_SAFE_ALLOC_SIZE` -/
def maxSafeAllocSize : Nat := 0x20000000

/-- The base relocation entry of `DIANA_IMAGE_DATA_DIRECTORY`. -/
structure Directory where
  virtualAddress : BitVec 32
  size : BitVec 32
  deriving DecidableEq, Repr

/-- What `DianaPeFile_FixRelocs` does before its loop: it is done, or it goes on with the
captured directory. -/
def captureRelocs (S : RandomStream σ) (alloc : Bool) (dir : Directory)
    (imageBase address : Value) (s : σ) : Except Status (Option (List Byte)) :=
  if dir.size = 0 ∨ dir.virtualAddress = 0 then .ok none
  else if address - imageBase = 0 then .ok none
  else if maxSafeAllocSize < dir.size.toNat then .error .invalidInput
  else if alloc = false then .error .outOfMemory
  else
    match S.read s (address + dir.virtualAddress.setWidth 64) dir.size.toNat with
    | .error e => .error e
    | .ok bs => if bs.length = dir.size.toNat then .ok (some bs) else .error .error

/-- `DianaPeFile_FixRelocs`, followed for at most `fuel` blocks; `none` if it is not done by
then. -/
def fixRelocs (S : RandomStream σ) (alloc : Bool) (dir : Directory) (imageBase address : Value)
    (fuel : Nat) (s : σ) : Option (Except Status Unit × σ) :=
  match captureRelocs S alloc dir imageBase address s with
  | .error e => some (.error e, s)
  | .ok none => some (.ok (), s)
  | .ok (some relocs) =>
    (runFrom (fun _ => blockTurn S address (address - imageBase) relocs) 0 fuel (0, s)).getRight?

/-! ## The walk -/

section Walk

variable {S : RandomStream σ} {address diff : Value} {relocs : List Byte}
  {o o' size : Nat} {s t : σ}

theorem numberAt_lt (relocs : List Byte) (offset size : Nat) :
    numberAt relocs offset size < 256 ^ size := by
  refine lt_of_lt_of_le (leNat_lt _) (Nat.pow_le_pow_right (by decide) ?_)
  rw [List.length_take]
  exact Nat.min_le_left _ _

theorem sizeOfBlockAt_lt (relocs : List Byte) (offset : Nat) :
    sizeOfBlockAt relocs offset < 2 ^ 32 :=
  numberAt_lt relocs (offset + 4) 4

/-- A block of fewer bytes than its header has a negative count, and the header and the sub entries
always make up the even part of `SizeOfBlock`. -/
theorem headerSize_add_subEntriesCount (h : size < 2 ^ 32) :
    (headerSize : Int) + 2 * subEntriesCount size = 2 * (size / 2 : Nat) := by
  have hnat : ((BitVec.ofNat 64 size - BitVec.ofNat 64 headerSize) / 2#64).toNat =
      ((2 ^ 64 - 8 + size) % 2 ^ 64) / 2 := by
    have h8 : 8 % 2 ^ 64 = 8 := rfl
    have h2 : 2 % 2 ^ 64 = 2 := rfl
    rw [BitVec.toNat_udiv, BitVec.toNat_sub, BitVec.toNat_ofNat, BitVec.toNat_ofNat,
      BitVec.toNat_ofNat, headerSize, h8, h2, Nat.mod_eq_of_lt (show size < 2 ^ 64 by omega)]
  rw [subEntriesCount, BitVec.toInt_setWidth, hnat, headerSize]
  rcases Nat.lt_or_ge size 8 with hlt | hge
  · interval_cases size <;> decide
  · have hdiv : ((2 ^ 64 - 8 + size) % 2 ^ 64) / 2 = size / 2 - 4 := by omega
    rw [hdiv, Int.bmod_eq_of_le (by omega) (by omega)]
    omega

/-- What a turn that goes on does. -/
theorem blockTurn_inl (h : blockTurn S address diff relocs (o, s) = .inl (o', t)) :
    o + headerSize < relocs.length ∧ o' = o + 2 * (sizeOfBlockAt relocs o / 2) := by
  have hnext := headerSize_add_subEntriesCount (sizeOfBlockAt_lt relocs o)
  unfold blockTurn at h
  dsimp only at h
  split at h
  · next ho =>
    refine ⟨ho, ?_⟩
    split at h
    · cases h
    · split at h
      · cases h
      · obtain ⟨rfl, -⟩ := Prod.mk.inj (Sum.inl.inj h)
        omega
  · cases h

/-- A block with a `SizeOfBlock` of 0 or 1 leads to itself. -/
theorem blockTurn_stuck (ho : o + headerSize < relocs.length)
    (hsize : sizeOfBlockAt relocs o < 2) (s : σ) :
    blockTurn S address diff relocs (o, s) = .inl (o, s) := by
  have hnext := headerSize_add_subEntriesCount (sizeOfBlockAt_lt relocs o)
  have hcount : subEntriesCount (sizeOfBlockAt relocs o) = -4 := by
    rw [headerSize] at hnext
    omega
  have hfit : ¬ relocs.length - o < sizeOfBlockAt relocs o := by
    rw [headerSize] at ho
    omega
  have hoff : ((o : Int) + headerSize + 2 * -4).toNat = o := by
    rw [headerSize]
    omega
  unfold blockTurn
  dsimp only
  rw [if_pos ho, if_neg hfit, hcount, hoff]
  rfl

/-- A walk in which every block moves on is left. -/
theorem exists_end (h : ∀ p, Reached (blockTurn S address diff relocs) (0, s) p →
    p.1 + headerSize < relocs.length → 2 ≤ sizeOfBlockAt relocs p.1) :
    ∃ n r, runFrom (fun _ => blockTurn S address diff relocs) 0 n (0, s) = .inr r := by
  refine exists_runFrom_inr_of_reached (fun p => relocs.length - p.1) fun ⟨o, t⟩ ⟨o', u⟩ hp hq => ?_
  obtain ⟨ho, hoff⟩ := blockTurn_inl hq
  have hsize : 2 ≤ sizeOfBlockAt relocs o := h (o, t) hp ho
  show relocs.length - o' < relocs.length - o
  rw [hoff]
  omega

end Walk

/-- `DianaPeFile_FixRelocs` comes to an end exactly if none of the blocks that its walk gets to has
a `SizeOfBlock` of 0 or 1. -/
theorem fixRelocs_terminates_iff (S : RandomStream σ) (alloc : Bool) (dir : Directory)
    (imageBase address : Value) (s : σ) :
    (∃ fuel r, fixRelocs S alloc dir imageBase address fuel s = some r) ↔
      ∀ relocs, captureRelocs S alloc dir imageBase address s = .ok (some relocs) →
        ∀ p, Reached (blockTurn S address (address - imageBase) relocs) (0, s) p →
          p.1 + headerSize < relocs.length → 2 ≤ sizeOfBlockAt relocs p.1 := by
  unfold fixRelocs
  rcases hc : captureRelocs S alloc dir imageBase address s with e | _ | relocs
  · exact ⟨fun _ relocs h => (nomatch h), fun _ => ⟨0, _, rfl⟩⟩
  · exact ⟨fun _ relocs h => (nomatch h), fun _ => ⟨0, _, rfl⟩⟩
  · constructor
    · rintro ⟨n, r, hr⟩ relocs' h p hp ho
      cases h
      by_contra hsize
      refine runFrom_ne_inr_of_fixed hp (blockTurn_stuck ho (by omega) p.2) n r ?_
      exact Sum.getRight?_eq_some_iff.1 hr
    · intro h
      obtain ⟨n, r, hr⟩ := exists_end (h relocs rfl)
      exact ⟨n, r, Sum.getRight?_eq_some_iff.2 hr⟩

/-! ## Images in memory -/

/-- The bytes of a mapped image, by their offset from its base. -/
structure Image where
  base : Value
  size : Nat
  byte : Nat → Byte

/-- A stream over an image: an access succeeds if it lies in the image. -/
def imageStream : RandomStream Image where
  read m address n :=
    let offset := (address - m.base).toNat
    if offset + n ≤ m.size then .ok (window m.byte offset n) else .error .error
  write m address bs :=
    let offset := (address - m.base).toNat
    if offset + bs.length ≤ m.size then (.ok bs.length, { m with byte := overlay m.byte offset bs })
    else (.error .error, m)

/-- An image of zeros. -/
def zeroImage : Image := ⟨0x500000, 0x1000, fun _ => 0⟩

/-- With a relocation directory of 12 zeros: the first block has a `SizeOfBlock` of 0. -/
theorem fixRelocs_zeroImage (fuel : Nat) :
    fixRelocs imageStream true ⟨0x10, 12⟩ 0x400000 0x500000 fuel zeroImage = none := by
  have hcapture : captureRelocs imageStream true ⟨0x10, 12⟩ 0x400000 0x500000 zeroImage =
      .ok (some (List.replicate 12 0)) := rfl
  have hstuck : blockTurn imageStream 0x500000 (0x500000 - 0x400000) (List.replicate 12 0) (0,
    zeroImage) =
      .inl (0, zeroImage) := blockTurn_stuck (by decide) (by decide) zeroImage
  have hnever := runFrom_ne_inr_of_fixed (Reached.refl _ _) hstuck fuel
  unfold fixRelocs
  rw [hcapture]
  dsimp only
  cases h : runFrom (fun _ => blockTurn imageStream 0x500000 (0x500000 - 0x400000)
    (List.replicate 12 0)) 0 fuel (0, zeroImage) with
  | inl p => rfl
  | inr r => exact absurd h (hnever r)

/-- A relocation directory on which `DianaPeFile_FixRelocs` does not come to an end. -/
theorem fixRelocs_diverges : ¬ ∃ fuel r,
    fixRelocs imageStream true ⟨0x10, 12⟩ 0x400000 0x500000 fuel zeroImage = some r := by
  rintro ⟨fuel, r, h⟩
  rw [fixRelocs_zeroImage] at h
  cases h

end Diana.Pe
