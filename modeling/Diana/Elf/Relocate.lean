import Diana.Elf.Dynamic
import Diana.Pe.Relocs

/-!
# Relocating a mapped ELF image

`DianaElfFile_Relocate`: the dynamic section of the mapped image names the tables of
relocations, and its pointers are moved on the way. The relocations of the tables are
applied one after the other.

* `Fixup`: what a relocation does; `applyReloc`, `processRelocTable`;
* `relocate`: the function.
-/

namespace Diana.Elf

open Diana.Pe (RandomStream Run readExact)

variable {σ : Type}

/-- `DianaElf_RelaEntry` -/
structure RelaEntry where
  r_offset : Value
  r_sym : BitVec 32
  r_type : BitVec 32
  r_addend : Value
  deriving DecidableEq, Repr

/-- `sizeof` of `Elf32_Rel`, `Elf64_Rel`, `Elf32_Rela`, `Elf64_Rela` -/
def entSize (isRela is64 : Bool) :
    Nat := if isRela then if is64 then 24 else 12 else if is64 then 16 else 8

/-- The decoding in `DianaElf_ReadRel` and `DianaElf_ReadRela`. -/
def decodeRela (I : Ident) (isRela : Bool) (buf : List Byte) : RelaEntry :=
  if I.is64bit then
    { r_offset := rd64 buf 0 I.isLE
      r_sym := (rd64 buf 8 I.isLE >>> 32).setWidth 32
      r_type := (rd64 buf 8 I.isLE).setWidth 32
      r_addend := if isRela then rd64 buf 16 I.isLE else 0 }
  else
    { r_offset := (rd32 buf 0 I.isLE).setWidth 64
      r_sym := rd32 buf 4 I.isLE >>> 8
      r_type := rd32 buf 4 I.isLE &&& 0xFF
      r_addend := if isRela then (rd32 buf 8 I.isLE).signExtend 64 else 0 }

/-- What a relocation does to the image. -/
inductive Fixup where
  /-- `B + A`, of 64 bits -/
  | relative64
  /-- `B + A`, of 32 bits; an addend of 0 is looked for in the image. -/
  | relative32
  /-- `B + A` is added. -/
  | abs64
  | abs32Addend
  /-- `B` is added. -/
  | abs32
  deriving DecidableEq, Repr

/-- The switch over `machine` and `r_type`. -/
def fixupOf (machine : BitVec 16) (r_type : BitVec 32) : Option Fixup :=
  match machine.toNat, r_type.toNat with
  | 62, 8 | 62, 37 => some .relative64
  | 62, 1 => some .abs64
  | 62, 10 => some .abs32Addend
  | 3, 8 | 3, 42 => some .relative32
  | 3, 1 => some .abs32
  | 183, 1027 | 183, 1032 => some .relative64
  | 183, 257 => some .abs64
  | 40, 23 | 40, 160 => some .relative32
  | 40, 2 => some .abs32
  | _, _ => none

namespace Fixup

/-- `DIANA_R_*_RELATIVE` and `DIANA_R_*_IRELATIVE` -/
def IsRelative (f : Fixup) : Prop := f = .relative64 ∨ f = .relative32

instance (f : Fixup) : Decidable f.IsRelative := inferInstanceAs (Decidable (_ ∨ _))

/-- The size of what is changed. -/
def width : Fixup → Nat
  | .relative64 | .abs64 => 8
  | .relative32 | .abs32Addend | .abs32 => 4

/-- The new value, of `width` bytes, for the one that was there. -/
def value (bias addend : Value) (old : Nat) : Fixup → Nat
  | .relative64 => (bias + addend).toNat
  | .relative32 =>
    (bias + (if addend ≠ 0 then addend else (BitVec.ofNat 32 old).signExtend 64)).toNat % 2 ^ 32
  | .abs64 => (BitVec.ofNat 64 old + bias + addend).toNat
  | .abs32Addend => (BitVec.ofNat 32 old + bias.setWidth 32 + addend.setWidth 32).toNat
  | .abs32 => (BitVec.ofNat 32 old + bias.setWidth 32).toNat

end Fixup

/-- `DianaElf_Write32`, `DianaElf_Write64`. How much was written is not looked at. -/
def writeNumber (S : RandomStream σ) (dest : Value) (size value : Nat) (isLE : Bool) :
    Run σ Unit := fun s =>
  match S.write s dest (wr size value isLE) with
  | (.ok _, t) => .ok () t
  | (.error e, t) => .error e t

/-- A relocation in the image. Only `relative64` does not look at what is there. -/
def applyFixup (S : RandomStream σ) (bias patchVA : Value) (entry : RelaEntry) (isLE : Bool)
    (f : Fixup) : Run σ Unit :=
  if f = .relative64 then writeNumber S patchVA f.width (f.value bias entry.r_addend 0) isLE
  else do
    let cur ← readExact S patchVA f.width
    writeNumber S patchVA f.width (f.value bias entry.r_addend (rd f.width cur 0 isLE)) isLE

/-- What `DianaElf_ApplyReloc` does for an entry; the others need a symbol. -/
def effectOf (machine : BitVec 16) (entry : RelaEntry) : Option Fixup :=
  (fixupOf machine entry.r_type).filter fun f => f.IsRelative ∨ entry.r_sym = 0

/-- `DianaElf_ApplyReloc` -/
def applyReloc (S : RandomStream σ) (bias : Value) (machine : BitVec 16) (isLE : Bool)
    (entry : RelaEntry) : Run σ Unit :=
  match effectOf machine entry with
  | none => pure ()
  | some f => applyFixup S bias (entry.r_offset + bias) entry isLE f

/-- A table of relocations in the mapped image. -/
structure RelocTable where
  va : Value
  size : Value
  isRela : Bool
  deriving DecidableEq, Repr

/-- The address of an entry. -/
def RelocTable.entVA (T : RelocTable) (is64 : Bool) (i : Nat) :
    Value := T.va + BitVec.ofNat 64 (i * entSize T.isRela is64)

/-- `count` -/
def RelocTable.count (T : RelocTable) (is64 : Bool) : Nat := T.size.toNat / entSize T.isRela is64

namespace ElfFile

variable (E : ElfFile) (S : RandomStream σ) (bias : Value)

/-- The loop of `DianaElf_ProcessRelocTable`: `n` entries are left. -/
def processEntries (T : RelocTable) : (n i : Nat) → Run σ Unit
  | 0, _ => pure ()
  | n + 1, i => do
    let buf ← readExact S (T.entVA E.ident.is64bit i) (entSize T.isRela E.ident.is64bit)
    applyReloc S bias E.e_machine E.ident.isLE (decodeRela E.ident T.isRela buf)
    processEntries T n (i + 1)

/-- `DianaElf_ProcessRelocTable`, for a table that is there. -/
def processRelocTable (T : RelocTable) : Run σ Unit :=
  if T.va ≠ 0 ∧ T.size ≠ 0 then E.processEntries S bias T (T.count E.ident.is64bit) 0 else pure ()

end ElfFile

/-! ## The dynamic section -/

/-- What is collected of the dynamic section. -/
structure RelocTables where
  relaVA : Value
  relaSz : Value
  relVA : Value
  relSz : Value
  jmprelVA : Value
  jmprelSz : Value
  pltRelType : BitVec 32
  deriving DecidableEq, Repr

/-- The values before the loop; `DIANA_DT_RELA` is the default. -/
def RelocTables.initial : RelocTables := ⟨0, 0, 0, 0, 0, 0, 7⟩

/-- The switch over `d_tag`, which is cut to an `int`. -/
def RelocTables.note (bias : Value) (T : RelocTables) (e : DynEntry) : RelocTables :=
  match (e.d_tag.setWidth 32).toNat with
  | 7 => { T with relaVA := e.d_val + bias }
  | 8 => { T with relaSz := e.d_val }
  | 17 => { T with relVA := e.d_val + bias }
  | 18 => { T with relSz := e.d_val }
  | 23 => { T with jmprelVA := e.d_val + bias }
  | 2 => { T with jmprelSz := e.d_val }
  | 20 => { T with pltRelType := e.d_val.setWidth 32 }
  | _ => T

/-- The tables in the order in which they are processed. -/
def RelocTables.tables (T : RelocTables) : List RelocTable :=
  [⟨T.relaVA, T.relaSz, true⟩, ⟨T.relVA, T.relSz, false⟩,
    ⟨T.jmprelVA, T.jmprelSz, T.pltRelType = 7⟩]

/-- `isPtrTag` -/
def DynEntry.IsPtrTag (e : DynEntry) : Prop :=
  (e.d_tag.setWidth 32).toNat ∈ [3, 4, 5, 6, 7, 12, 13, 17, 23, 25, 26, 32] ∨
    e.d_tag = 0x6FFFFEF5 ∨ e.d_tag = 0x6FFFFFF0

instance (e : DynEntry) : Decidable e.IsPtrTag := inferInstanceAs (Decidable (_ ∨ _))

/-- `dynEntSize` -/
def dynEntSize (is64 : Bool) : Nat := if is64 then 16 else 8

/-- An entry of the dynamic section. -/
def decodeDyn (I : Ident) (buf : List Byte) : DynEntry :=
  if I.is64bit then ⟨rd64 buf 0 I.isLE, rd64 buf 8 I.isLE⟩
  else ⟨(rd32 buf 0 I.isLE).signExtend 64, (rd32 buf 4 I.isLE).setWidth 64⟩

/-- The size of a pointer. -/
def pointerSize (is64 : Bool) : Nat := if is64 then 8 else 4

namespace ElfFile

variable (E : ElfFile) (S : RandomStream σ) (bias : Value)

/-- The address of an entry of the dynamic section in the mapped image. -/
def dynEntVA (i : Nat) : Value :=
  E.dynamicAddress + bias + BitVec.ofNat 64 (i * dynEntSize E.ident.is64bit)

/-- The pointer of an entry is moved. -/
def movePointer (entVA : Value) (e : DynEntry) : Run σ Unit :=
  if bias ≠ 0 ∧ e.IsPtrTag then
    let size := pointerSize E.ident.is64bit
    writeNumber S (entVA + BitVec.ofNat 64 size) size ((e.d_val + bias).toNat % 256 ^ size)
      E.ident.isLE
  else pure ()

/-- The loop over the dynamic section: `n` entries are left. -/
def collectTables : (n i : Nat) → RelocTables → Run σ RelocTables
  | 0, _, T => pure T
  | n + 1, i, T => do
    let buf ← readExact S (E.dynEntVA bias i) (dynEntSize E.ident.is64bit)
    let e := decodeDyn E.ident buf
    if e.d_tag = 0 then pure T
    else do
      E.movePointer S bias (E.dynEntVA bias i) e
      collectTables n (i + 1) (T.note bias e)

def processTables : List RelocTable → Run σ Unit
  | [] => pure ()
  | T :: rest => do
    E.processRelocTable S bias T
    processTables rest

/-- `dynCount` -/
def dynCount : Nat := E.dynamicSize.toNat / dynEntSize E.ident.is64bit

/-- There is nothing to rebase: `DIANA_ET_EXEC` where it was linked, or no dynamic section. -/
def NothingToRebase : Prop := bias = 0 ∧ E.e_type = 2 ∨ E.dynamicSize = 0

instance : Decidable (E.NothingToRebase bias) := inferInstanceAs (Decidable (_ ∨ _))

/-- `DianaElfFile_Relocate` -/
def relocate : Run σ Unit :=
  if E.NothingToRebase bias then pure ()
  else do
    let T ← E.collectTables S bias E.dynCount 0 .initial
    E.processTables S bias T.tables

end ElfFile

end Diana.Elf
