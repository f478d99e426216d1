import Diana.Pe.Relocs

/-!
# The headers of a PE file

`DianaPeFile_Init`: the headers and the section table are read from the file, and the size of the
module is computed from the sections.

* `initPeFile`: the parser; `PeFile.sizeOfModule`: the size of the module.
-/

namespace Diana.Pe

open Diana.Lib

/-- `DianaMovableReadStream` over a state `φ`. -/
structure SourceStream (φ : Type) where
  moveTo : φ → (offset : Value) → Except Status Unit × φ
  read : φ → (size : Nat) → Except Status (List Byte) × φ

/-- `DIANA_IMAGE_SECTION_HEADER` -/
structure SectionHeader where
  virtualSize : BitVec 32
  virtualAddress : BitVec 32
  sizeOfRawData : BitVec 32
  pointerToRawData : BitVec 32
  deriving DecidableEq, Repr

/-- `dianaMode` of a PE file: `DIANA_MODE32`, `DIANA_MODE64` -/
inductive PeMode where
  | mode32 | mode64
  deriving DecidableEq, Repr

/-- The size of a pointer. -/
def PeMode.size : PeMode → Nat
  | .mode32 => 4
  | .mode64 => 8

/-- `Diana_PeFile` and `Diana_PeFile_impl` -/
structure PeFile where
  /-- `DIANA_PE_FILE_FLAGS_FILE_MODE` -/
  fileMode : Bool
  eLfanew : BitVec 32
  dianaMode : PeMode
  imageBase : Value
  sizeOfHeaders : BitVec 32
  /-- `DIANA_IMAGE_DIRECTORY_ENTRY_BASERELOC` -/
  relocationDirectory : Directory
  capturedSections : List SectionHeader
  deriving DecidableEq, Repr

/-- `sizeOfModule`: the end of the last section. The sums are 32-bit ones. -/
def PeFile.sizeOfModule (pe : PeFile) : Nat :=
  pe.capturedSections.foldl (fun size h => max size (h.virtualAddress + h.virtualSize).toNat) 0

variable {φ : Type}

/-- A running function on the file. -/
abbrev Source (φ : Type) := EStateM Status φ

def moveTo (F : SourceStream φ) (offset : Value) : Source φ Unit := fun s =>
  match F.moveTo s offset with
  | (.ok (), t) => .ok () t
  | (.error e, t) => .error e t

/-- `pReadFnc` of exactly `size` bytes; `e` is the status for fewer. -/
def exactRead (F : SourceStream φ) (size : Nat) (e : Status) : Source φ (List Byte) := fun s =>
  match F.read s size with
  | (.ok bs, t) => if bs.length = size then .ok bs t else .error e t
  | (.error e, t) => .error e t

theorem exactRead_apply {F : SourceStream φ} {size : Nat} {e : Status} {s t : φ}
    {r : Except Status (List Byte)} (h : F.read s size = (r, t)) : exactRead F size e s =
      match r with
      | .ok bs => if bs.length = size then .ok bs t else .error e t
      | .error e' => .error e' t := by
  cases r <;> simp only [exactRead, h]

/-! ## The parser -/

def sizeOfDosHeader : Nat := 64

/-- `sizeof(DIANA_IMAGE_NT_HEADERS)` -/
def sizeOfNtHeaders : Nat := 24

/-- `Diana_VerifyDosHeader`; a size of 0 is unknown. -/
def verifyDosHeader (dosHeader : List Byte) (eLfanew : BitVec 32) (sizeOfFile : Value) :
    Except Status Unit :=
  if sizeOfFile ≠ 0 ∧ sizeOfFile.toNat ≤ sizeOfDosHeader then .error .invalidInput
  else if dosHeader.take 2 ≠ [0x4D, 0x5A] then .error .invalidInput
  else if sizeOfFile ≠ 0 ∧ sizeOfFile ≤ eLfanew.signExtend 64 then .error .invalidInput
  else if sizeOfFile ≠ 0 ∧ (sizeOfFile - eLfanew.signExtend 64).toNat ≤ sizeOfNtHeaders then
    .error .invalidInput
  else .ok ()

/-- The switch over `Machine`. -/
def modeOfMachine : Nat → Except Status PeMode
  | 0x14C | 0x1C4 | 0x1C2 => .ok .mode32
  | 0x8664 | 0xAA64 => .ok .mode64
  | _ => .error .unsupportedCommand

/-- `sizeof(DIANA_IMAGE_OPTIONAL_HEADER32)`, `sizeof(DIANA_IMAGE_OPTIONAL_HEADER64)` -/
def PeMode.optionalHeaderSize : PeMode → Nat
  | .mode32 => 224
  | .mode64 => 240

/-- The offset of `ImageBase` in the optional header. -/
def PeMode.imageBaseOffset : PeMode → Nat
  | .mode32 => 28
  | .mode64 => 24

/-- The offset of `DataDirectory` in the optional header. -/
def PeMode.dataDirectoryOffset : PeMode → Nat
  | .mode32 => 96
  | .mode64 => 112

/-- A section header at an offset of the section table. -/
def sectionHeaderAt (table : List Byte) (offset : Nat) : SectionHeader :=
  let field (k : Nat) : BitVec 32 := BitVec.ofNat 32 (numberAt table (offset + k) 4)
  ⟨field 8, field 12, field 16, field 20⟩

/-- The check of the signature. -/
def checkSignature (ntHeaders : List Byte) : Except Status Unit :=
  if ntHeaders.take 3 ≠ [0x50, 0x45, 0] then .error .invalidInput else .ok ()

def ofExcept {ε σ α : Type} : Except ε α → EStateM ε σ α
  | .ok a => pure a
  | .error e => throw e

/-- `Diana_InitPeFileImpl` -/
def initPeFile (F : SourceStream φ) (sizeOfFile : Value) (fileMode : Bool) : Source φ PeFile := do
  moveTo F 0
  let dosHeader ← exactRead F sizeOfDosHeader .endOfStream
  let eLfanew : BitVec 32 := BitVec.ofNat 32 (numberAt dosHeader 60 4)
  ofExcept (verifyDosHeader dosHeader eLfanew sizeOfFile)
  moveTo F (eLfanew.signExtend 64)
  let ntHeaders ← exactRead F sizeOfNtHeaders .endOfStream
  ofExcept (checkSignature ntHeaders)
  let mode ← ofExcept (modeOfMachine (numberAt ntHeaders 4 2))
  let optionalHeader ← exactRead F mode.optionalHeaderSize .endOfStream
  moveTo F ((eLfanew + BitVec.ofNat 32 (sizeOfNtHeaders + mode.optionalHeaderSize)).signExtend 64)
  let numberOfSections := numberAt ntHeaders 6 2
  let table ← exactRead F (numberOfSections * 40) .endOfStream
  let field (offset : Nat) : BitVec 32 := BitVec.ofNat 32 (numberAt optionalHeader offset 4)
  let baseReloc := mode.dataDirectoryOffset + 5 * 8
  pure
    { fileMode
      eLfanew
      dianaMode := mode
      imageBase := BitVec.ofNat 64 (numberAt optionalHeader mode.imageBaseOffset mode.size)
      sizeOfHeaders := field 60
      relocationDirectory := ⟨field baseReloc, field (baseReloc + 4)⟩
      capturedSections := (List.range numberOfSections).map fun i =>
      sectionHeaderAt table (i * 40) }

/-- A file in memory, and the place in it. -/
def fileStream (file : List Byte) : SourceStream Nat where
  moveTo _ offset := (.ok (), offset.toNat)
  read s size := (.ok ((file.drop s).take size), s + size)

end Diana.Pe
