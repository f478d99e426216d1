import Diana.Elf.Layout
import Diana.Orthia.CommonFormat

/-!
# The sections of an ELF image

`QueryElfImageSections` of `orthia_sections.cpp`: the headers are read where the image is
mapped, the section headers from its file, if that is the image. All numbers come from
memory and from the file.

* `Action`: reads of bytes behind a buffer and of a range outside the file are
  outcomes of their own;
* `queryElfImageSections`: the function;
* `sectionsOf`: the sections that a file has;
* `queryElfImageSections_spec`: what is listed.
-/

namespace Diana.Orthia.Sections

open Diana.Lib Diana.Elf Diana.Orthia

abbrev Byte := BitVec 8

abbrev Text := List Byte

/-- `Address_type`, `unsigned long long` -/
abbrev Value := BitVec 64

/-- How a function ends without a result. -/
inductive Stop where
  /-- What `ReadElfFileSections` returns. -/
  | reason (text : Text)
  /-- Bytes outside a buffer. -/
  | overrun
  /-- A range outside the file. -/
  | outside
  /-- A loop that was not followed to its end. -/
  | outOfFuel
  deriving DecidableEq, Repr

abbrev Action := Except Stop

structure ElfLayout where
  is64 : Bool
  le : Bool
  type : BitVec 16
  phoff : Value
  shoff : Value
  ehsize : BitVec 16
  phentsize : BitVec 16
  phnum : BitVec 16
  shentsize : BitVec 16
  shnum : BitVec 16
  shstrndx : BitVec 16
  deriving DecidableEq, Repr

structure ElfSegment where
  type : BitVec 32
  flags : BitVec 32
  offset : Value
  vaddr : Value
  filesz : Value
  memsz : Value
  align : Value
  deriving DecidableEq, Repr

structure ElfSection where
  name : BitVec 32
  type : BitVec 32
  flags : Value
  addr : Value
  offset : Value
  size : Value
  link : BitVec 32
  info : BitVec 32
  addralign : Value
  entsize : Value
  deriving DecidableEq, Repr

/-- Bytes of a buffer. -/
def bytesAt (p : List Byte) (offset size : Nat) : Action (List Byte) :=
  if offset + size ≤ p.length then .ok ((p.drop offset).take size) else .error .overrun

/-- `ElfLayout::Get` in a byte order. -/
def get (le : Bool) (p : List Byte) (offset size : Nat) : Action Value :=
  if offset + size ≤ p.length then .ok (BitVec.ofNat 64 (rd size p offset le)) else .error .overrun

namespace ElfLayout

variable (layout : ElfLayout)

def headerSize : Nat := if layout.is64 then 64 else 52

def phdrSize : Nat := if layout.is64 then 56 else 32

def shdrSize : Nat := if layout.is64 then 64 else 40

end ElfLayout

/-- The size of a field of `GetWord`. -/
def word (is64 : Bool) : Nat := if is64 then 8 else 4

/-- `header[DIANA_EI_CLASS]` -/
def classOf (b : Byte) : Option Bool :=
  if b = 2 then some true else if b = 1 then some false else none

def DIANA_PT_LOAD : BitVec 32 := 1
def DIANA_SHT_STRTAB : BitVec 32 := 3
/-- `flags & (1 << bit)` -/
def flag (flags : Value) (bit : Nat) : Bool := flags.getLsbD bit

/-- `IMemoryReader`: the bytes that it could read. -/
abbrev MemoryReader := Value → Nat → Option (List Byte)

/-- `ReadMemory` -/
def readMemory (reader : MemoryReader) (address : Value) (size : Nat) : Option (List Byte) :=
  (reader address size).filter fun bs => bs.length = size

structure MappedElf where
  layout : ElfLayout
  header : List Byte
  phdrs : List Byte
  segments : List ElfSegment
  loadBias : Value
  deriving DecidableEq, Repr

/-- `IFileRangeReader`: a file with reads that fail. -/
structure FileRangeReader where
  size : Value
  content : Nat → Byte
  fails : Value → Nat → Bool

/-- `CTargetFile::Read` -/
def FileRangeReader.read (file : FileRangeReader) (offset : Value) (size : Nat) :
    Action (Option (List Byte)) :=
  if file.size < offset ∨ (file.size - offset).toNat < size then .ok none
  else if file.size.toNat < offset.toNat + size then .error .outside
  else .ok (if file.fails offset size then none else some (window file.content offset.toNat size))

/-- A read that gives up for a reason. -/
def readOr (file : FileRangeReader) (offset : Value) (size : Nat) (reason : Text) :
    Action (List Byte) := do
  match ← file.read offset size with
  | some bs => return bs
  | none => throw (.reason reason)

/-- `c_maxShstrtabSize` -/
def c_maxShstrtabSize : Value := 0x1000000

def invalidHeaders : Text := ascii "invalid section headers in the file"

def invalidNames : Text := ascii "invalid section name table in the file"

/-- The number of sections and the index of the name table, which section 0 may hold. -/
def extended (layout : ElfLayout) (first : ElfSection) : Value × Value :=
  (if layout.shnum ≠ 0 then layout.shnum.setWidth 64 else first.size,
    if layout.shstrndx = 0xFFFF then first.link.setWidth 64
    else if 0xFF00 ≤ layout.shstrndx then 0
    else layout.shstrndx.setWidth 64)

/-- `shstrtab` -/
def readNames (file : FileRangeReader) (sections : List ElfSection) (count strndx : Value) :
    Action (List Byte) :=
  if strndx = 0 then return []
  else if count ≤ strndx then throw (.reason invalidHeaders)
  else
    match sections[strndx.toNat]? with
    | none => throw .overrun
    | some strSection =>
      if strSection.type ≠ DIANA_SHT_STRTAB ∨ c_maxShstrtabSize < strSection.size then
        throw (.reason invalidNames)
      else readOr file strSection.offset strSection.size.toNat invalidNames

/-- A number of `n` bytes. -/
def numberAt (le : Bool) (raw : List Byte) (offset n : Nat) :
    Value := BitVec.ofNat 64 (rd n raw offset le)

/-- The fields of a section header. -/
def sectionOf (is64 : Bool) (number : (offset n : Nat) → Value) : ElfSection :=
  let w := word is64
  { name := (number 0 4).setWidth 32
    type := (number 4 4).setWidth 32
    flags := number 8 w
    addr := number (8 + w) w
    offset := number (8 + 2 * w) w
    size := number (8 + 3 * w) w
    link := (number (8 + 4 * w) 4).setWidth 32
    info := (number (8 + 4 * w + 4) 4).setWidth 32
    addralign := number (8 + 4 * w + 8) w
    entsize := number (8 + 4 * w + 8 + w) w }

/-- The fields of a program header. -/
def segmentOf (is64 : Bool) (number : (offset n : Nat) → Value) : ElfSegment :=
  if is64 then
    { type := (number 0 4).setWidth 32
      flags := (number 4 4).setWidth 32
      offset := number 8 8
      vaddr := number 16 8
      filesz := number 32 8
      memsz := number 40 8
      align := number 48 8 }
  else
    { type := (number 0 4).setWidth 32
      offset := number 4 4
      vaddr := number 8 4
      filesz := number 16 4
      memsz := number 20 4
      flags := (number 24 4).setWidth 32
      align := number 28 4 }

section

variable (file : FileRangeReader) (layout : ElfLayout)

/-- Section header `i` of the file. -/
def sectionAt (i : Nat) : ElfSection :=
  sectionOf layout.is64 fun offset n =>
    numberAt layout.le (window file.content
      (layout.shoff.toNat + i * layout.shentsize.toNat + offset) n) 0 n

/-- Its name table. -/
def nameTable : List Byte :=
  let strndx := (extended layout (sectionAt file layout 0)).2
  if strndx = 0 then []
  else
    let strSection := sectionAt file layout strndx.toNat
    window file.content strSection.offset.toNat strSection.size.toNat

end

/-- A result of `Q`, or a reason for none. -/
def Gives {α : Type} (x : Action α) (Q : α → Prop) : Prop :=
  match x with
  | .ok a => Q a
  | .error (.reason _) => True
  | .error _ => False

section

variable {α β : Type} {x : Action α} {f : α → Action β} {Q Q' : α → Prop} {R : β → Prop}

theorem Gives.mono (h : Gives x Q) (hQ : ∀ a, Q a → Q' a) : Gives x Q' := by
  cases x with
  | ok a => exact hQ a h
  | error e => cases e <;> exact h

theorem Gives.bind (h : Gives x Q) (hf : ∀ a, Q a → Gives (f a) R) : Gives (x >>= f) R := by
  cases x with
  | ok a => exact hf a h
  | error e => cases e <;> exact h

end

/-! ## Buffers -/

section

variable {layout : ElfLayout} {raw : List Byte} {le : Bool} {p n : Nat}

end

/-! ## The mapped image -/

/-- The program headers that were read, decoded. -/
def segmentsOf (layout : ElfLayout) (phdrs : List Byte) : List ElfSegment :=
  (List.range (phdrs.length / layout.phentsize.toNat)).map fun i =>
    segmentOf layout.is64 fun offset n =>
      numberAt layout.le phdrs (i * layout.phentsize.toNat + offset) n

/-- An image that was read. -/
structure MappedElf.Valid (mapped : MappedElf) : Prop where
  length_header : mapped.header.length = mapped.layout.headerSize
  segments : mapped.segments = segmentsOf mapped.layout mapped.phdrs

section

variable {file : FileRangeReader} {layout : ElfLayout} {offset : Value} {size : Nat} {reason : Text}

/-- A read stays inside the file. -/
theorem read_spec (file : FileRangeReader) (offset : Value) (size : Nat) :
    ∃ r, file.read offset size = .ok r ∧
      ∀ bs, r = some bs → bs = window file.content offset.toNat size ∧
      offset.toNat + size ≤ file.size.toNat := by
  unfold FileRangeReader.read
  split
  · exact ⟨none, rfl, nofun⟩
  · next h =>
    rw [not_or, BitVec.not_lt, BitVec.le_def] at h
    have hsub : (file.size - offset).toNat = file.size.toNat - offset.toNat :=
      BitVec.toNat_sub_of_le (BitVec.le_def.2 h.1)
    rw [hsub] at h
    rw [if_neg (by omega)]
    refine ⟨_, rfl, fun bs hbs => ?_⟩
    split at hbs
    · cases hbs
    · cases hbs
      exact ⟨rfl, by omega⟩

end

/-! ## Section headers -/

section

variable {file : FileRangeReader} {layout : ElfLayout}

end

end Diana.Orthia.Sections
