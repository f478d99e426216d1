import Diana.Elf.ProgramHeaders
import Mathlib.Tactic.Common

/-!
# The dynamic section of a loaded ELF image

What the functions that work on a loaded image read: the dynamic section, symbols and versions.
Every read goes to a buffer, and one that is larger than its buffer is an outcome of its own.

* `Reader.into`, `Reader.exactly`: the reads;
* `dynEntries`: the dynamic section after `DianaElf_NormalizeDyn`;
* `readSymNormalized`, `isHiddenVersion`: symbols.
-/

namespace Diana.Elf

/-- How a function ends without a result. -/
inductive Stop where
  | failed (e : Status)
  /-- More is read than the buffer holds. -/
  | overrun
  | dividedByZero
  /-- A loop that was not followed to its end. -/
  | outOfFuel
  deriving DecidableEq, Repr

/-- A running function that changes nothing. -/
abbrev Action := Except Stop

def fail {α : Type} (e : Status) : Action α := .error (.failed e)

/-- `pRandomRead`; the last argument is `DIANA_ANALYZE_RANDOM_READ_ABSOLUTE`. It delivers at most
what it is asked for, an `int`. -/
structure Reader where
  read : (address : Value) → (size : BitVec 32) → (absolute : Bool) → Except Status (List Byte)
  length_le : ∀ address size absolute bs, read address size absolute = .ok bs →
    bs.length ≤ size.toNat

/-- A result or a failure: nothing is overrun, divided by 0 or walked forever. -/
def Settled {α : Type} : Action α → Prop
  | .ok _ | .error (.failed _) => True
  | .error .overrun | .error .dividedByZero | .error .outOfFuel => False

section

variable {α β : Type} {x : Action α} {f : α → Action β}

theorem Settled.of_bind (h : Settled (x >>= f)) : Settled x := by
  cases x with
  | ok a => trivial
  | error e => cases e <;> exact h

theorem settled_bind_iff (hx : Settled x) : Settled (x >>= f) ↔ ∀ a, x = .ok a → Settled (f a) := by
  cases x with
  | ok a => exact ⟨fun h _ ha => Except.ok.inj ha ▸ h, fun h => h a rfl⟩
  | error e =>
    cases e <;> first | exact hx.elim | exact ⟨fun _ _ ha => (nomatch ha), fun _ => trivial⟩

theorem Settled.bind (hx : Settled x) (hf : ∀ a, Settled (f a)) : Settled (x >>= f) :=
  (settled_bind_iff hx).2 fun a _ => hf a

theorem settled_ite {c : Prop} [Decidable c] {y : Action α} (hx : c → Settled x)
    (hy : ¬ c → Settled y) : Settled (if c then x else y) := by
  split
  · exact hx ‹_›
  · exact hy ‹_›

end

namespace Reader

variable (R : Reader)

/-- A read into a buffer. -/
def into (address : Value) (size : BitVec 32) (capacity : Nat) (absolute : Bool) :
    Action (List Byte) :=
  if capacity < size.toNat then .error .overrun
  else
    match R.read address size absolute with
    | .error e => fail e
    | .ok bs => .ok bs

/-- A read of all of a buffer. The size is a `size_t` that is cut to an `int`. -/
def exactly (address : Value) (size : Nat) (absolute : Bool) : Action (List Byte) := do
  let bs ← R.into address (BitVec.ofNat 32 size) size absolute
  if bs.length = size then .ok bs else fail .error

variable {R}

theorem into_eq_ok {address : Value} {size : BitVec 32} {capacity : Nat} {absolute : Bool}
    {bs : List Byte} (h : R.into address size capacity absolute = .ok bs) :
    bs.length ≤ capacity := by
  unfold into at h
  split at h
  · cases h
  · next hsize =>
    split at h
    · cases h
    · next hread =>
      cases h
      have := R.length_le _ _ _ _ hread
      omega

theorem settled_into {address : Value} {size : BitVec 32} {capacity : Nat} {absolute : Bool}
    (h : size.toNat ≤ capacity) : Settled (R.into address size capacity absolute) := by
  unfold into
  rw [if_neg (Nat.not_lt.2 h)]
  split <;> trivial

theorem settled_exactly (R : Reader) (address : Value) (size : Nat) (absolute : Bool) :
    Settled (R.exactly address size absolute) := by
  refine (settled_into ?_).bind fun bs => settled_ite (fun _ => trivial) fun _ => trivial
  rw [BitVec.toNat_ofNat]
  exact Nat.mod_le _ _

end Reader

/-- `Diana_ElfFile_impl` of a file: what `DianaElfFile_Init` finds out. -/
structure ElfFile where
  /-- `DIANA_ELF_FILE_FLAGS_FILE_MODE` -/
  fileMode : Bool
  ident : Ident
  e_type : BitVec 16
  e_machine : BitVec 16
  e_ehsize : BitVec 16
  e_phentsize : BitVec 16
  e_phnum : BitVec 16
  capturedSegments : List ProgramHeader
  deriving DecidableEq, Repr

def DIANA_PT_LOAD : BitVec 32 := 1
def DIANA_PT_DYNAMIC : BitVec 32 := 2
def DIANA_PT_NOTE : BitVec 32 := 4

/-- `DIANA_MAX_SAFE_ALLOC_SIZE` -/
def maxSafeAllocSize : Nat := 0x20000000

namespace ElfFile

variable (E : ElfFile)

/-- The last segment of the type, which the loop of `Diana_InitElfFileImpl` keeps. -/
def dynamicSegment : Option ProgramHeader :=
  (E.capturedSegments.filter fun h => h.p_type = DIANA_PT_DYNAMIC).getLast?

def dynamicAddress : Value := (E.dynamicSegment.map (·.p_vaddr)).getD 0

def dynamicSize : Value := (E.dynamicSegment.map (·.p_memsz)).getD 0

/-- `minLoadAddress` -/
def minLoadAddress : Value :=
  ((E.capturedSegments.filter fun h => h.p_type = DIANA_PT_LOAD).foldl
    (fun lowest h => match lowest with
      | none => some h.p_vaddr
      | some a => some (if h.p_vaddr < a then h.p_vaddr else a)) none).getD 0

def linkBase : Value := E.minLoadAddress &&& ~~~0xFFF

/-- `maxSize`: the ends of the segments are 64-bit sums. -/
def maxSize : Value :=
  E.capturedSegments.foldl
    (fun size h => if size < h.p_vaddr + h.p_memsz then h.p_vaddr + h.p_memsz else size) 0

def sizeOfModule : Value := if E.linkBase < E.maxSize then E.maxSize - E.linkBase else 0

/-- `DianaElfFile_LinkToOffset` -/
def linkToOffset (address : Value) : Except Status Value :=
  if address < E.linkBase ∨ E.sizeOfModule ≤ address - E.linkBase then .error .endOfStream
  else .ok (address - E.linkBase)

end ElfFile

/-! ## The dynamic section -/

/-- `DI_ELF_DYN64` -/
structure DynEntry where
  d_tag : BitVec 64
  d_val : BitVec 64
  deriving DecidableEq, Repr

/-- The entries that are looked at: `raw` is what was read, `heap` what lies behind it in the
buffer. A 64-bit entry that was not read to its end is looked at, but it is not swapped. -/
def dynEntries (I : Ident) (raw : List Byte) (heap : Nat → Byte) : List DynEntry :=
  if I.is64bit then
    (List.range ((raw.length + 15) / 16)).map fun i =>
      let entry := (List.range 16).map fun k => raw.getD (16 * i + k) (heap (16 * i + k))
      let isLE := I.isLE || decide (raw.length < 16 * (i + 1))
      ⟨rd64 entry 0 isLE, rd64 entry 8 isLE⟩
  else
    (List.range (raw.length / 8)).map fun i =>
      ⟨(rd32 raw (8 * i) I.isLE).signExtend 64, (rd32 raw (8 * i + 4) I.isLE).setWidth 64⟩

/-- The entries before `DI_ELF_DT_NULL`. -/
def liveEntries (entries : List DynEntry) : List DynEntry := entries.takeWhile fun e => e.d_tag ≠ 0

/-! ## Symbols -/

/-- `DI_ELF_SYM64` -/
structure Symbol where
  st_name : BitVec 32
  st_info : BitVec 8
  st_shndx : BitVec 16
  st_value : Value
  deriving DecidableEq, Repr

/-- `sizeof(DI_ELF_SYM64)`, or that of `Elf32_Sym` -/
def symSize (is64bit : Bool) : Nat := if is64bit then 24 else 16

def decodeSym (I : Ident) (buf : List Byte) : Symbol :=
  if I.is64bit then
    { st_name := rd32 buf 0x00 I.isLE
      st_info := buf.getD 0x04 0
      st_shndx := rd16 buf 0x06 I.isLE
      st_value := rd64 buf 0x08 I.isLE }
  else
    { st_name := rd32 buf 0x00 I.isLE
      st_value := (rd32 buf 0x04 I.isLE).setWidth 64
      st_info := buf.getD 0x0C 0
      st_shndx := rd16 buf 0x0E I.isLE }

/-- `DianaElf_ReadSymNormalized` -/
def readSymNormalized (R : Reader) (I : Ident) (symEntryAddr : Value) : Action Symbol := do
  let buf ← R.exactly symEntryAddr (symSize I.is64bit) true
  .ok (decodeSym I buf)

/-- The address of a symbol in its table. -/
def symEntryAddr (I : Ident) (symtabAddr : Value) (idx : BitVec 32) : Value :=
  symtabAddr + idx.setWidth 64 * BitVec.ofNat 64 (symSize I.is64bit)

/-- `DI_ELF_ST_BIND`: global or weak -/
def Symbol.IsPublic (sym : Symbol) : Prop := sym.st_info >>> 4 = 1 ∨ sym.st_info >>> 4 = 2

/-- `DianaElf_IsExportedDefinition` -/
def Symbol.IsExportedDefinition (sym : Symbol) : Prop :=
  sym.st_shndx ≠ 0 ∧ sym.st_value ≠ 0 ∧ sym.IsPublic ∧
    (sym.st_info &&& 0xF = 2 ∨ sym.st_info &&& 0xF = 1 ∨ sym.st_info &&& 0xF = 10)

instance (sym : Symbol) : Decidable sym.IsPublic := inferInstanceAs (Decidable (_ ∨ _))

instance (sym : Symbol) : Decidable sym.IsExportedDefinition := inferInstanceAs (Decidable (_ ∧ _))

/-- `DianaElf_IsHiddenVersion`. An entry that cannot be read counts as a default one. -/
def isHiddenVersion (R : Reader) (isLE : Bool) (versymAddr : Value) (symIndex : BitVec 32) :
    Action Bool :=
  if versymAddr = 0 then .ok false
  else
    match R.into (versymAddr + symIndex.setWidth 64 * 2) 2 2 true with
    | .error .overrun => .error .overrun
    | .error _ => .ok false
    | .ok ver => .ok (decide (ver.length = 2) && decide (rd16 ver 0 isLE &&& 0x8000 ≠ 0))

theorem settled_readSymNormalized (R : Reader) (I : Ident) (address : Value) :
    Settled (readSymNormalized R I address) := (R.settled_exactly _ _ _).bind fun _ => trivial

theorem settled_isHiddenVersion (R : Reader) (isLE : Bool) (versymAddr : Value)
    (symIndex : BitVec 32) : Settled (isHiddenVersion R isLE versymAddr symIndex) := by
  refine settled_ite (fun _ => trivial) fun _ => ?_
  have hread : Settled (R.into (versymAddr + symIndex.setWidth 64 * 2) 2 2 true) :=
    Reader.settled_into (by decide)
  split
  · next h =>
    rw [h] at hread
    exact hread
  · trivial
  · trivial

end Diana.Elf
