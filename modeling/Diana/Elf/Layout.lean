import Diana.Lib.LittleEndian
import Diana.Lib.Patches

/-!
# Numbers in ELF files

* `rd16`, `rd32`, `rd64`: numbers in the byte order of the file;
* `wr`: the bytes of a number in a file, which `rd` reads back.
-/

namespace Diana.Elf

open Diana.Lib

abbrev Byte := BitVec 8

/-- `OPERAND_SIZE` -/
abbrev Value := BitVec 64

/-- What `e_ident` says about a file: `DIANA_ELF_INTERNAL_FLAG_64BIT`,
`DIANA_ELF_INTERNAL_FLAG_LE`. -/
structure Ident where
  is64bit : Bool
  isLE : Bool
  deriving DecidableEq, Repr

/-- The bytes of a number in the order of the file, or the other way round. -/
def ordered (isLE : Bool) (bs : List Byte) : List Byte := if isLE then bs else bs.reverse

/-- The number in the `n` bytes at an offset. -/
def rd (n : Nat) (raw : List Byte) (offset : Nat) (isLE : Bool) : Nat :=
  leNat (ordered isLE ((raw.drop offset).take n))

/-- `DianaElf_rd16` -/
def rd16 (raw : List Byte) (offset : Nat) (isLE : Bool) :
    BitVec 16 := BitVec.ofNat 16 (rd 2 raw offset isLE)

/-- `DianaElf_rd32` -/
def rd32 (raw : List Byte) (offset : Nat) (isLE : Bool) :
    BitVec 32 := BitVec.ofNat 32 (rd 4 raw offset isLE)

/-- `DianaElf_rd64` -/
def rd64 (raw : List Byte) (offset : Nat) (isLE : Bool) :
    BitVec 64 := BitVec.ofNat 64 (rd 8 raw offset isLE)

/-- A number as the file stores it. -/
def wr (n v : Nat) (isLE : Bool) : List Byte := ordered isLE (leBytes n v)

@[simp] theorem length_ordered (isLE : Bool) (bs : List Byte) :
    (ordered isLE bs).length = bs.length := by
  cases isLE
  · exact List.length_reverse
  · rfl

@[simp] theorem ordered_ordered (isLE : Bool) (bs : List Byte) :
    ordered isLE (ordered isLE bs) = bs := by
  cases isLE
  · exact List.reverse_reverse bs
  · rfl

@[simp] theorem length_wr (n v : Nat) (isLE : Bool) : (wr n v isLE).length = n := by
  rw [wr, length_ordered, length_leBytes]

theorem rd_lt (n : Nat) (raw : List Byte) (offset : Nat) (isLE : Bool) :
    rd n raw offset isLE < 256 ^ n := by
  refine Nat.lt_of_lt_of_le (leNat_lt _) (Nat.pow_le_pow_right (by decide) ?_)
  rw [length_ordered]
  exact List.length_take_le _ _

/-- A number behind `xs`. -/
theorem rd_wr {xs ys : List Byte} {n v offset : Nat} (isLE : Bool) (ho : xs.length = offset)
    (hv : v < 256 ^ n) : rd n (xs ++ (wr n v isLE ++ ys)) offset isLE = v := by
  have hfield : ((xs ++ (wr n v isLE ++ ys)).drop offset).take n = wr n v isLE := by
    rw [← ho, List.drop_left, List.take_left' (length_wr n v isLE)]
  rw [rd, hfield, wr, ordered_ordered, leNat_leBytes_of_lt hv]

/-- The bytes that a number was read from. -/
theorem wr_rd {raw : List Byte} {n offset : Nat} (isLE : Bool) (h : offset + n ≤ raw.length) :
    wr n (rd n raw offset isLE) isLE = (raw.drop offset).take n := by
  have hl : ((raw.drop offset).take n).length = n := by
    rw [List.length_take, List.length_drop]
    omega
  have hle := leBytes_leNat (ordered isLE ((raw.drop offset).take n))
  rw [length_ordered, hl] at hle
  rw [wr, rd, hle, ordered_ordered]

/-- A number in a window of a content. -/
theorem rd_window {m : Nat → Byte} {o n k offset : Nat} (isLE : Bool) (h : offset + k ≤ n) :
    rd k (window m o n) offset isLE = rd k (window m (o + offset) k) 0 isLE := by
  rw [rd, rd, take_drop_window h, take_drop_window (by omega), Nat.add_zero]

end Diana.Elf
