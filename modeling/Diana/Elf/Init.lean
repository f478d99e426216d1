import Diana.Elf.Dynamic
import Diana.Pe.PeFile

/-!
# The headers of an ELF file

`DianaElfFile_Init`: the ELF header, the program headers and, for a file that is not an image in
memory, the section headers are read from the file.

* `initElfFile`: the parser.
-/

namespace Diana.Elf

open Diana.Pe (Source SourceStream moveTo)

variable {φ : Type}

/-- `DIANA_ELF_HEADER` -/
structure ElfHeader where
  ident : Ident
  e_type : BitVec 16
  e_machine : BitVec 16
  e_phoff : Value
  e_shoff : Value
  e_flags : BitVec 32
  e_ehsize : BitVec 16
  e_phentsize : BitVec 16
  e_phnum : BitVec 16
  e_shentsize : BitVec 16
  e_shnum : BitVec 16
  e_shstrndx : BitVec 16
  deriving DecidableEq, Repr

/-- What is found of `DIANA_EI_CLASS` and `DIANA_EI_DATA`. -/
def decodeIdent (identHeader : List Byte) : Except Status Ident :=
  let cls := identHeader.getD 4 0
  let data := identHeader.getD 5 0
  if cls ≠ 1 ∧ cls ≠ 2 then .error .unsupported
  else if data ≠ 1 ∧ data ≠ 2 then .error .unsupported
  else .ok ⟨cls = 2, data = 1⟩

/-- The size of `Elf32_Ehdr` and `Elf64_Ehdr`. -/
def ehdrSize (is64bit : Bool) : Nat := if is64bit then 64 else 52

def decodeEhdr (I : Ident) (raw : List Byte) : ElfHeader :=
  let half (offset : Nat) := rd16 raw offset I.isLE
  let tail := if I.is64bit then 0x30 else 0x24
  { ident := I
    e_type := half 0x10
    e_machine := half 0x12
    e_phoff := if I.is64bit then rd64 raw 0x20 I.isLE else (rd32 raw 0x1C I.isLE).setWidth 64
    e_shoff := if I.is64bit then rd64 raw 0x28 I.isLE else (rd32 raw 0x20 I.isLE).setWidth 64
    e_flags := rd32 raw tail I.isLE
    e_ehsize := half (tail + 4)
    e_phentsize := half (tail + 6)
    e_phnum := half (tail + 8)
    e_shentsize := half (tail + 10)
    e_shnum := half (tail + 12)
    e_shstrndx := half (tail + 14) }

/-- `DianaExactRead` -/
def readFully (F : SourceStream φ) (size : Nat) :
    Source φ (List Byte) := Pe.exactRead F size .endOfStream

/-- `Diana_ReadElfHeader` -/
def readElfHeader (F : SourceStream φ) (identHeader : List Byte) : Source φ ElfHeader := do
  let I ← Pe.ofExcept (decodeIdent identHeader)
  moveTo F 0
  let raw ← readFully F (ehdrSize I.is64bit)
  pure (decodeEhdr I raw)

/-- `Diana_VerifyElfHeader`; a size of 0 is unknown. -/
def verifyElfHeader (identHeader : List Byte) (H : ElfHeader) (sizeOfFile : Value) :
    Except Status Unit :=
  if sizeOfFile ≠ 0 ∧ sizeOfFile ≤ 64 then .error .invalidInput
  else if identHeader.take 4 ≠ [0x7F, 0x45, 0x4C, 0x46] then .error .invalidInput
  else if H.e_type ≠ 2 ∧ H.e_type ≠ 3 ∧ H.e_type ≠ 1 then .error .invalidInput
  else if sizeOfFile ≠ 0 ∧ sizeOfFile ≤ H.e_phoff then .error .invalidInput
  else .ok ()

/-! ## Sections -/

/-- What is used of `DIANA_ELF_SECTION_HEADER`. -/
structure ElfSection where
  sh_offset : Value
  sh_size : Value
  sh_link : BitVec 32
  deriving DecidableEq, Repr

/-- The size of `Elf32_Shdr` and `Elf64_Shdr`. -/
def shdrSize (is64bit : Bool) : Nat := if is64bit then 64 else 40

/-- `DianaElf_DecodeShdrNormalized` -/
def decodeShdrNormalized (I : Ident) (raw : List Byte) : ElfSection :=
  if I.is64bit then ⟨rd64 raw 0x18 I.isLE, rd64 raw 0x20 I.isLE, rd32 raw 0x28 I.isLE⟩
  else
    ⟨(rd32 raw 0x10 I.isLE).setWidth 64, (rd32 raw 0x14 I.isLE).setWidth 64, rd32 raw 0x18 I.isLE⟩

/-- The loop over the section headers: `n` are left. -/
def readShdrs (F : SourceStream φ) (H : ElfHeader) :
    (n : Nat) → (shAddress : Value) → Source φ (List ElfSection)
  | 0, _ => pure []
  | n + 1, shAddress => do
    moveTo F shAddress
    let raw ← readFully F (shdrSize H.ident.is64bit)
    let shAddress ← Pe.ofExcept (Pe.safeAdd shAddress (H.e_shentsize.setWidth 64))
    let rest ← readShdrs F H n shAddress
    pure (decodeShdrNormalized H.ident raw :: rest)

/-- The string table of the section names is read. -/
def readStringTable (F : SourceStream φ) (malloc : Nat → Bool) (table : ElfSection) :
    Source φ Unit :=
  if table.sh_size = 0 ∨ maxSafeAllocSize < table.sh_size.toNat then throw .invalidInput
  else if ¬ malloc table.sh_size.toNat then throw .outOfMemory
  else do
    moveTo F table.sh_offset
    let _ ← readFully F table.sh_size.toNat

/-- `e_shstrndx`, or where it is kept when it does not fit. -/
def stringTableIndex (H : ElfHeader) (sections : List ElfSection) : BitVec 16 :=
  if H.e_shstrndx = 0xFFFF then ((sections.head?.map ElfSection.sh_link).getD 0).setWidth 16
    else H.e_shstrndx

/-- The string table of the section names, where there is one. -/
def readNames (F : SourceStream φ) (malloc : Nat → Bool) (index : BitVec 16)
    (sections : List ElfSection) : Source φ Unit :=
  match if index = 0 then none else sections[index.toNat]? with
  | none => pure ()
  | some table => readStringTable F malloc table

/-- `sizeof(Diana_ElfSectionWithInfo)` -/
def sectionInfoSize : Nat := 128

/-- `ReadSectionHeaders` -/
def readSectionHeaders (F : SourceStream φ) (malloc : Nat → Bool) (H : ElfHeader)
    (sizeOfFile : Value) : Source φ Unit :=
  if H.e_shnum = 0 then pure ()
  else if sizeOfFile ≤ H.e_shoff then throw .invalidInput
  else if H.e_shentsize.toNat < shdrSize H.ident.is64bit then throw .invalidInput
  else if ¬ malloc (H.e_shnum.toNat * sectionInfoSize) then throw .outOfMemory
  else do
    let sections ← readShdrs F H H.e_shnum.toNat H.e_shoff
    readNames F malloc (stringTableIndex H sections) sections

/-! ## The parser -/

/-- `ReadProgramHeaders` as a running function: the headers that are captured. -/
def readSegments (F : SourceStream φ) (malloc : Nat → Bool) (H : ElfHeader) (sizeOfFile : Value) :
    Source φ (List ProgramHeader) := fun s =>
  let table : HeaderTable φ :=
    ⟨⟨F.moveTo, F.read⟩, H.ident, H.e_phoff, H.e_phentsize, H.e_phnum, sizeOfFile, malloc⟩
  match table.readProgramHeaders s with
  | (.ok (), some captured, t) => .ok (captured.segments.take captured.count) t
  | (.ok (), none, t) => .ok [] t
  | (.error e, _, t) => .error e t

/-- `DIANA_EM_ARM` without `DIANA_EF_ARM_BE8` in a big-endian file is BE32. -/
def checkMachine (H : ElfHeader) : Except Status Unit :=
  if H.e_machine = 40 ∧ H.ident.isLE = false ∧ H.e_flags &&& 0x00800000 = 0 then
    .error .unsupported else .ok ()

/-- The sections are looked at in the file mode only. -/
def readFileMode (F : SourceStream φ) (malloc : Nat → Bool) (H : ElfHeader) (sizeOfFile : Value)
    (fileMode : Bool) : Source φ Unit :=
  if fileMode then readSectionHeaders F malloc H sizeOfFile else pure ()

/-- `Diana_InitElfFileImpl` -/
def initElfFile (F : SourceStream φ) (malloc : Nat → Bool) (sizeOfFile : Value) (fileMode : Bool) :
    Source φ ElfFile := do
  moveTo F 0
  let identHeader ← readFully F 16
  let H ← readElfHeader F identHeader
  Pe.ofExcept (verifyElfHeader identHeader H sizeOfFile)
  let capturedSegments ← readSegments F malloc H sizeOfFile
  readFileMode F malloc H sizeOfFile fileMode
  Pe.ofExcept (checkMachine H)
  pure
    { fileMode
      ident := H.ident
      e_type := H.e_type
      e_machine := H.e_machine
      e_ehsize := H.e_ehsize
      e_phentsize := H.e_phentsize
      e_phnum := H.e_phnum
      capturedSegments }

end Diana.Elf
