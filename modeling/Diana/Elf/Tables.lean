import Diana.Elf.Lookup
import Diana.Lib.Field
import Diana.Lib.Post

/-!
# Enumerating imports and exports, and the build id

`DianaElfFile_QueryImportsExports` walks the symbols or the PLT relocations of a loaded image,
`DianaElfFile_QueryBuildId` its notes. The sizes of relocations and of notes come from the image.

* `Enumeration.query`: the enumeration, on an image that a caller may change;
* `BuildIdQuery.query`: what is copied out of a note;
* `FirstBuildId`: the note that is copied from;
* `tablesFit_iff`: when every read fits its buffer and the copy lies in the captured note.
-/

namespace Diana.Elf

open Diana.Lib

/-- `DianaReadWriteRandomStream` over an image of type `σ`. -/
structure ImageStream (σ : Type) where
  reader : σ → Reader
  write : σ → (address : Value) → List Byte → Except Status Nat × σ
  /-- `pRandomWrite` is there. -/
  writable : Bool

/-- A call of the observer. -/
inductive Call where
  /-- `reportInfo_fnc` -/
  | info (address : Value)
  /-- `queryFunctionByName` -/
  | function (functionName : List Byte) (value : Value)
  deriving DecidableEq, Repr

/-- `DianaPeFile_LinkImports_Observer`, as the enumeration uses it: its answers to the last of the
calls made so far. -/
structure SymbolObserver where
  reportsInfo : Bool
  info : List Call → Except Status Unit
  function : List Call → Except Status Value

structure QueryState (σ : Type) where
  image : σ
  calls : List Call

/-- A running enumeration. -/
abbrev Query (σ : Type) := EStateM Stop (QueryState σ)

/-- The enumeration: the file, the image, the observer, and what memory is filled with. -/
structure Enumeration (σ : Type) where
  file : ElfFile
  stream : ImageStream σ
  observer : SymbolObserver
  baseAddress : Value
  /-- `DIANA_ANALYZE_RANDOM_READ_ABSOLUTE` in `streamFlags` -/
  absolute : Bool
  bImports : Bool
  malloc : Nat → Bool
  heap : Nat → Byte
  /-- `relBuf` and `funcName` before they are filled, for every turn of the loop -/
  staleRel : Nat → Nat → Byte
  staleName : Nat → NameBuf

/-- What the dynamic section says. -/
structure DynTables where
  symtabAddr : Value
  strtabAddr : Value
  hashAddr : Value
  jmprelAddr : Value
  jmprelSize : Value
  relaEntSize : Value
  pltRelType : Value
  gnuHashAddr : Value
  versymAddr : Value
  deriving DecidableEq, Repr

/-- The switch over `d_tag`. -/
def DynTables.note (T : DynTables) (e : DynEntry) : DynTables :=
  match e.d_tag.toNat with
  | 6 => { T with symtabAddr := e.d_val }
  | 5 => { T with strtabAddr := e.d_val }
  | 4 => { T with hashAddr := e.d_val }
  | 23 => { T with jmprelAddr := e.d_val }
  | 2 => { T with jmprelSize := e.d_val }
  | 9 | 19 => { T with relaEntSize := e.d_val }
  | 20 => { T with pltRelType := e.d_val }
  | 0x6FFFFEF5 => { T with gnuHashAddr := e.d_val }
  | 0x6FFFFFF0 => { T with versymAddr := e.d_val }
  | _ => T

/-- `DT_PLTREL` is `DI_ELF_DT_RELA`. -/
def DynTables.isRela (T : DynTables) : Bool := T.pltRelType = 7

/-- `relaEntSize`, or its default. -/
def DynTables.entSize (T : DynTables) (is64bit : Bool) : Value :=
  if T.relaEntSize ≠ 0 then T.relaEntSize
  else if is64bit then if T.isRela then 24 else 16
  else if T.isRela then 12 else 8

/-- `DI_ELF_MAX_DYN_SYMBOLS` -/
def maxDynSymbols : Nat := 0x100000

namespace Enumeration

variable {σ : Type} (E : Enumeration σ)

abbrev ident : Ident := E.file.ident

def alloc (size : Nat) : Action Unit := if E.malloc size then .ok () else fail .outOfMemory

/-- The dynamic section. -/
def dynamic (R : Reader) : Action DynTables := do
  let dynSize := E.file.dynamicSize
  if E.file.fileMode then fail .unsupported
  else if dynSize = 0 ∨ maxSafeAllocSize < dynSize.toNat then fail .invalidInput
  else
    match E.file.linkToOffset E.file.dynamicAddress with
    | .error _ => fail .invalidInput
    | .ok dynAddr =>
      if 0xFFFFFFFFFFFFFFFF - dynAddr < E.baseAddress then fail .overflow
      else do
        E.alloc (dynSize.toNat * 2)
        let raw ← R.into (dynAddr + E.baseAddress) (dynSize.setWidth 32)
          (dynSize.toNat * 2) E.absolute
        if raw.length < (if E.ident.is64bit then 16 else 8) then fail .error
        else .ok ((liveEntries (dynEntries E.ident raw E.heap)).foldl DynTables.note ⟨0, 0, 0, 0, 0,
          0, 0, 0, 0⟩)

/-! ## Exports from the symbol table -/

/-- The end of the chain of the highest bucket. -/
def chainEnd (R : Reader) (chainBaseAddr : Value) (symoffset : BitVec 32) :
    Nat → BitVec 32 → Action (BitVec 32)
  | 0, _ => .error .outOfFuel
  | fuel + 1, maxIdx => do
    if maxDynSymbols ≤ maxIdx.toNat then fail .invalidInput
    else do
      let raw ← R.exactly (chainBaseAddr + (maxIdx - symoffset).setWidth 64 * 4) 4 true
      if rd32 raw 0 E.ident.isLE &&& 1 ≠ 0 then .ok (maxIdx + 1)
      else chainEnd R chainBaseAddr symoffset fuel (maxIdx + 1)

/-- `DianaElf_CountDynSymbols` from `DT_GNU_HASH`. -/
def countFromGnuHash (R : Reader) (gnuHashAddr : Value) : Action (BitVec 32) := do
  let raw ← R.exactly gnuHashAddr 16 true
  let nbuckets := rd32 raw 0 E.ident.isLE
  let symoffset := rd32 raw 4 E.ident.isLE
  let bloomsize := rd32 raw 8 E.ident.isLE
  if nbuckets = 0 ∨ maxDynSymbols < nbuckets.toNat ∨ maxDynSymbols < bloomsize.toNat ∨
      maxDynSymbols < symoffset.toNat then fail .invalidInput
  else do
    let bucketsAddr := gnuHashAddr + 16 + bloomsize.setWidth 64 * (if E.ident.is64bit then 8 else 4)
    let chainBaseAddr := bucketsAddr + nbuckets.setWidth 64 * 4
    E.alloc (nbuckets.toNat * 4)
    let buckets ← R.exactly bucketsAddr (nbuckets.toNat * 4) true
    let maxIdx := (List.range nbuckets.toNat).foldl
      (fun highest i =>
        let idx := rd32 buckets (i * 4) E.ident.isLE
        if highest < idx then idx else highest) 0
    if maxIdx < symoffset then .ok symoffset
    else E.chainEnd R chainBaseAddr symoffset (maxDynSymbols + 1) maxIdx

/-- `DianaElf_CountDynSymbols` -/
def countDynSymbols (R : Reader) (T : DynTables) : Action (BitVec 32) :=
  if T.gnuHashAddr ≠ 0 then E.countFromGnuHash R T.gnuHashAddr
  else if T.hashAddr ≠ 0 then do
    let raw ← R.exactly T.hashAddr 8 true
    let count := rd32 raw 4 E.ident.isLE
    if maxDynSymbols < count.toNat then fail .invalidInput else .ok count
  else fail .notFound

/-- An action on the image as it is. -/
def reading {α : Type} (f : Reader → Action α) : Query σ α := fun s =>
  match f (E.stream.reader s.image) with
  | .ok a => .ok a s
  | .error e => .error e s

def orFail {α : Type} : Except Status α → Query σ α
  | .ok a => pure a
  | .error e => throw (.failed e)

def reportInfo (address : Value) : Query σ Unit :=
  if E.observer.reportsInfo then do
    modify fun s => { s with calls := s.calls ++ [.info address] }
    orFail (E.observer.info (← get).calls)
  else pure ()

/-- `queryFunctionByName`: the value that it leaves. -/
def queryFunction (functionName : List Byte) (value : Value) : Query σ Value := do
  modify fun s => { s with calls := s.calls ++ [.function functionName value] }
  orFail (E.observer.function (← get).calls)

/-- The symbol is one that a name leads to. -/
def isVisible (R : Reader) (T : DynTables) (idx : BitVec 32) (sym : Symbol) : Action Bool :=
  if sym.IsExportedDefinition then do
    let hidden ← isHiddenVersion R E.ident.isLE T.versymAddr idx
    .ok (!hidden)
  else .ok false

/-- The name of a symbol. -/
def readName (R : Reader) (symNameAddr : Value) : Action (List Byte) := do
  let bs ← R.into symNameAddr 255 256 true
  if bs = [] then fail .error else .ok bs

/-- A turn of the loop of `DianaElf_QueryDynamicExports`. -/
def queryExport (T : DynTables) (idx : BitVec 32) : Query σ Unit := do
  let sym ← E.reading fun R => readSymNormalized R E.ident (symEntryAddr E.ident T.symtabAddr idx)
  let visible ← E.reading fun R => E.isVisible R T idx sym
  if visible then do
    let symNameAddr := T.strtabAddr + sym.st_name.setWidth 64
    E.reportInfo symNameAddr
    let bs ← E.reading fun R => readName R symNameAddr
    if cString bs = [] then pure ()
    else do
      let _ ← E.queryFunction (cString bs) sym.st_value
  else pure ()

/-- `DianaElf_QueryDynamicExports` -/
def queryDynamicExports (T : DynTables) : List Nat → Query σ Unit
  | [] => pure ()
  | idx :: rest => do
    E.queryExport T (BitVec.ofNat 32 idx)
    queryDynamicExports T rest

/-! ## PLT relocations -/

/-- `DianaElf_Write64`, `DianaElf_Write32`. How much was written is not looked at. -/
def writeNumber (size : Nat) (dest value : Value) : Query σ Unit := do
  let s ← get
  let (r, image) := E.stream.write s.image dest (wr size (value.toNat % 256 ^ size) E.ident.isLE)
  set { s with image }
  match r with
  | .error e => throw (.failed e)
  | .ok _ => pure ()

/-- `relBuf`: `r_offset` and the index of the symbol. -/
def decodePlt (relBuf : List Byte) : Value × BitVec 32 :=
  if E.ident.is64bit then
    (rd64 relBuf 0 E.ident.isLE, (rd64 relBuf 8 E.ident.isLE >>> 32).setWidth 32)
  else ((rd32 relBuf 0 E.ident.isLE).setWidth 64, rd32 relBuf 4 E.ident.isLE >>> 8)

/-- The relocation at an index of the PLT. -/
def readPlt (R : Reader) (T : DynTables) (idx : Nat) : Action (Value × BitVec 32) := do
  let entSize := T.entSize E.ident.is64bit
  let bs ← R.into (T.jmprelAddr + BitVec.ofNat 64 idx * entSize) (entSize.setWidth 32) 32 true
  if bs.length ≠ entSize.toNat then fail .error
  else .ok (E.decodePlt ((List.range 32).map fun k => bs.getD k (E.staleRel idx k)))

/-- The symbol is passed over. -/
def Skips (sym : Symbol) : Prop :=
  (if E.bImports then sym.st_shndx ≠ 0 else sym.st_shndx = 0) ∨ ¬ sym.IsPublic ∨
    ¬ (sym.st_info &&& 0xF = 2 ∨ sym.st_info &&& 0xF = 1)

instance (sym : Symbol) : Decidable (E.Skips sym) := inferInstanceAs (Decidable (ite .. ∨ _))

/-- The GOT slot of a relocation. -/
def slotAddr (r_offset : Value) : Action Value :=
  match E.file.linkToOffset r_offset with
  | .error _ => .ok 0
  | .ok offset =>
    if 0xFFFFFFFFFFFFFFFF - offset < E.baseAddress then fail .overflow
      else .ok (offset + E.baseAddress)

/-- The value goes to the slot, where one is to be filled. -/
def fillSlot (gotSlotAddr value : Value) : Query σ Unit :=
  if gotSlotAddr ≠ 0 ∧ value ≠ 0 ∧ E.stream.writable then
    E.writeNumber (if E.ident.is64bit then 8 else 4) gotSlotAddr value
  else pure ()

/-- The report of a symbol of the PLT. -/
def reportPlt (T : DynTables) (idx : Nat) (r_offset : Value) (sym : Symbol) : Query σ Unit := do
  let slot ← E.reading fun _ => E.slotAddr r_offset
  let symNameAddr := T.strtabAddr + sym.st_name.setWidth 64
  E.reportInfo (if E.bImports then slot else symNameAddr)
  let bs ← E.reading fun R => readName R symNameAddr
  let functionName := cString (List.ofFn ((E.staleName idx).fill bs))
  let value ← E.queryFunction functionName sym.st_value
  E.fillSlot (if sym.st_value = 0 ∧ E.bImports then slot else 0) value

/-- A turn of the loop over the PLT relocations. -/
def queryPltEntry (T : DynTables) (idx : Nat) : Query σ Unit := do
  let (r_offset, symIndex) ← E.reading fun R => E.readPlt R T idx
  let sym ← E.reading fun R =>
    readSymNormalized R E.ident (symEntryAddr E.ident T.symtabAddr symIndex)
  if E.Skips sym then pure () else E.reportPlt T idx r_offset sym

/-- The loop over the PLT relocations: `n` are left. -/
def queryPlt (T : DynTables) : (n : Nat) → (idx : Nat) → Query σ Unit
  | 0, _ => pure ()
  | n + 1, idx => do
    E.queryPltEntry T idx
    queryPlt T n (idx + 1)

/-- The exports are those of the symbol table. -/
def FromSymbols (T : DynTables) : Prop :=
  E.bImports = false ∧ T.symtabAddr ≠ 0 ∧ T.strtabAddr ≠ 0 ∧ (T.hashAddr ≠ 0 ∨ T.gnuHashAddr ≠ 0)

instance (T : DynTables) : Decidable (E.FromSymbols T) := inferInstanceAs (Decidable (_ ∧ _))

/-- There is nothing to report. -/
def NoPlt (T : DynTables) : Prop :=
  T.symtabAddr = 0 ∨ T.strtabAddr = 0 ∨ T.jmprelAddr = 0 ∨ T.jmprelSize = 0

instance (T : DynTables) : Decidable (NoPlt T) := inferInstanceAs (Decidable (_ ∨ _))

/-- The enumeration behind the dynamic section. -/
def queryTables (T : DynTables) : Query σ Unit :=
  if E.FromSymbols T then do
    let count ← E.reading fun R => E.countDynSymbols R T
    E.queryDynamicExports T (List.range' 1 (count.toNat - 1))
  else if NoPlt T then pure ()
  else E.queryPlt T (T.jmprelSize.toNat / (T.entSize E.ident.is64bit).toNat) 0

/-- `DianaElfFile_QueryImportsExports` -/
def query : Query σ Unit := do
  let T ← E.reading E.dynamic
  E.queryTables T

end Enumeration

/-! ## The build id -/

/-- What `DIANA_MEMCPY` copies out of a note: `captured` is what was captured from the descriptor
on. -/
structure BuildIdCopy where
  n_descsz : BitVec 32
  captured : List Byte
  toCopy : Nat
  deriving DecidableEq, Repr

/-- The query: the file, the image, and the buffer for the result. -/
structure BuildIdQuery where
  file : ElfFile
  reader : Reader
  address : Value
  bufferSize : BitVec 32
  malloc : Nat → Bool

/-- `(n + 3) & ~3`, of 32 bits -/
def align4 (n : BitVec 32) : BitVec 32 := (n + 3) &&& ~~~3

/-- `DIANA_ELF_NOTE_HEADER` at the start of `note`. -/
def n_namesz (note : List Byte) : BitVec 32 := rd32 note 0 true
def n_descsz (note : List Byte) : BitVec 32 := rd32 note 4 true
def n_type (note : List Byte) : BitVec 32 := rd32 note 8 true

/-- The header is there, and the name and the descriptor behind it by their rounded sizes. -/
def IsWhole (note : List Byte) : Prop :=
  12 ≤ note.length ∧ (align4 (n_namesz note)).toNat + (align4 (n_descsz note)).toNat ≤
    note.length - 12

instance (note : List Byte) : Decidable (IsWhole note) := inferInstanceAs (Decidable (_ ∧ _))

/-- A note of type `DIANA_NT_GNU_BUILD_ID` with the name `GNU`. -/
def IsBuildId (note : List Byte) : Prop :=
  n_type note = 3 ∧ n_namesz note = 4 ∧ (note.drop 12).take 4 = [0x47, 0x4E, 0x55, 0]

instance (note : List Byte) : Decidable (IsBuildId note) := inferInstanceAs (Decidable (_ ∧ _))

/-- What is behind a note. -/
def nextNote (note : List Byte) : List Byte :=
  note.drop (12 + (align4 (n_namesz note)).toNat + (align4 (n_descsz note)).toNat)

namespace BuildIdQuery

variable (B : BuildIdQuery)

/-- The loop over the notes of a segment, with `fuel` for each. -/
def scanNotes : (fuel : Nat) → (note : List Byte) → Option BuildIdCopy
  | 0, _ => none
  | fuel + 1, note =>
    if ¬ IsWhole note then none
    else if IsBuildId note then
      let captured := note.drop (12 + (align4 (n_namesz note)).toNat)
      some ⟨n_descsz note, captured, min (n_descsz note).toNat B.bufferSize.toNat⟩
    else scanNotes fuel (nextNote note)

/-- The segment holds notes that can be captured. -/
def IsNote (h : ProgramHeader) : Prop :=
  h.p_type = DIANA_PT_NOTE ∧ h.p_filesz ≠ 0 ∧ h.p_filesz.toNat ≤ maxSafeAllocSize

instance (h : ProgramHeader) : Decidable (IsNote h) := inferInstanceAs (Decidable (_ ∧ _))

/-- What is captured of a segment. -/
def capture (h : ProgramHeader) (offset : Value) : Action (List Byte) :=
  if B.malloc h.p_filesz.toNat then
    if 0xFFFFFFFFFFFFFFFF - offset < B.address then fail .overflow
    else B.reader.into (offset + B.address) (h.p_filesz.setWidth 32) h.p_filesz.toNat false
  else fail .outOfMemory

/-- The notes of a segment. -/
def querySegment (h : ProgramHeader) (offset : Value) : Action (Option BuildIdCopy) := do
  let bs ← B.capture h offset
  .ok (B.scanNotes bs.length bs)

/-- The loop over the segments. -/
def querySegments : List ProgramHeader → Action (Option BuildIdCopy)
  | [] => .ok none
  | h :: rest =>
    if IsNote h then
      match B.file.linkToOffset h.p_vaddr with
      | .error _ => querySegments rest
      | .ok offset => do
        match ← B.querySegment h offset with
        | some copy => .ok (some copy)
        | none => querySegments rest
    else querySegments rest

/-- `DianaElfFile_QueryBuildId`: what is copied, if anything is found. -/
def query : Action (Option BuildIdCopy) :=
  if B.bufferSize = 0 then fail .invalidInput else B.querySegments B.file.capturedSegments

end BuildIdQuery

/-! ## Reads that fit -/

section Fits

variable {σ : Type} {α β : Type} {E : Enumeration σ} {T : DynTables}

/-- No read is larger than its buffer. -/
abbrev Fits (x : Query σ α) : Prop := Ends x (fun _ => True) (· ≠ .overrun)

theorem Fits.then {x : Query σ α} {f : α → Query σ β} (hx : Fits x) (hf : ∀ a, Fits (f a)) :
    Fits (x >>= f) :=
  hx.bind fun a _ => hf a

theorem fits_reading {f : Reader → Action α} (h : ∀ R, Settled (f R)) : Fits (E.reading f) := by
  intro s
  have hs := h (E.stream.reader s.image)
  unfold Post Enumeration.reading
  cases hf : f (E.stream.reader s.image) with
  | ok a => trivial
  | error e =>
    rw [hf] at hs
    rintro rfl
    exact hs

theorem fits_orFail (x : Except Status α) : Fits (Enumeration.orFail x : Query σ α) := by
  cases x with
  | ok a => exact .pure trivial
  | error e => exact .throw nofun

theorem fits_modify (g : QueryState σ → QueryState σ) :
    Fits (modify g : Query σ PUnit) := .modify trivial

theorem fits_get : Fits (get : Query σ (QueryState σ)) := fun _ => trivial

theorem fits_reportInfo (E : Enumeration σ) (address : Value) : Fits (E.reportInfo address) :=
  .ite (fun _ => (fits_modify _).then fun _ => fits_get.then fun _ => fits_orFail _) fun _ =>
    .pure trivial

theorem fits_queryFunction (E : Enumeration σ) (functionName : List Byte) (value : Value) :
    Fits (E.queryFunction functionName value) :=
  (fits_modify _).then fun _ => fits_get.then fun _ => fits_orFail _

theorem settled_readName (R : Reader) (address : Value) :
    Settled (Enumeration.readName R address) :=
  (Reader.settled_into (by decide)).bind fun _ => settled_ite (fun _ => trivial) fun _ => trivial

theorem settled_isVisible (E : Enumeration σ) (R : Reader) (T : DynTables) (idx : BitVec 32)
    (sym : Symbol) : Settled (E.isVisible R T idx sym) :=
  settled_ite (fun _ => (settled_isHiddenVersion _ _ _ _).bind fun _ => trivial) fun _ => trivial

theorem settled_alloc (E : Enumeration σ) (size : Nat) : Settled (E.alloc size) :=
  settled_ite (fun _ => trivial) fun _ => trivial

/-- The walk stops at the limit. -/
theorem settled_chainEnd (E : Enumeration σ) (R : Reader) (base : Value) (symoffset : BitVec 32)
    {fuel : Nat} {maxIdx : BitVec 32} (hpos : 0 < fuel) (h : maxDynSymbols < maxIdx.toNat + fuel) :
    Settled (E.chainEnd R base symoffset fuel maxIdx) := by
  induction fuel generalizing maxIdx with
  | zero => cases hpos
  | succ fuel ih =>
    refine settled_ite (fun _ => trivial) fun hmax => (R.settled_exactly _ _ _).bind fun _ => ?_
    rw [maxDynSymbols] at hmax h
    refine settled_ite (fun _ => trivial) fun _ => ih (by omega) ?_
    rw [maxDynSymbols, BitVec.toNat_add, show (1 : BitVec 32).toNat = 1 from rfl]
    omega

theorem settled_countDynSymbols (E : Enumeration σ) (R : Reader) (T : DynTables) :
    Settled (E.countDynSymbols R T) := by
  refine settled_ite (fun _ => ?_) fun _ => settled_ite (fun _ => ?_) fun _ => trivial
  · refine (R.settled_exactly _ _ _).bind fun _ => settled_ite (fun _ => trivial) fun _ => ?_
    refine (settled_alloc E _).bind fun _ => (R.settled_exactly _ _ _).bind fun _ => ?_
    exact settled_ite (fun _ => trivial) fun _ =>
      settled_chainEnd E R _ _ (Nat.succ_pos _) (Nat.lt_add_left _ (Nat.lt_succ_self _))
  · exact (R.settled_exactly _ _ _).bind fun _ => settled_ite (fun _ => trivial) fun _ => trivial

theorem settled_dynamic (E : Enumeration σ) (R : Reader) : Settled (E.dynamic R) := by
  refine settled_ite (fun _ => trivial) fun _ => settled_ite (fun _ => trivial) fun hsize => ?_
  rw [not_or, Nat.not_lt] at hsize
  split
  · trivial
  · refine settled_ite (fun _ => trivial) fun _ => (settled_alloc E _).bind fun _ => ?_
    refine Settled.bind (Reader.settled_into ?_) fun _ =>
      settled_ite (fun _ => trivial) fun _ => trivial
    rw [BitVec.toNat_setWidth]
    omega

theorem fits_queryExport (E : Enumeration σ) (T : DynTables) (idx : BitVec 32) :
    Fits (E.queryExport T idx) := by
  refine (fits_reading fun R => settled_readSymNormalized R _ _).then fun sym => ?_
  refine (fits_reading fun R => settled_isVisible E R T idx sym).then fun _ =>
    .ite (fun _ => ?_) fun _ => .pure trivial
  refine (fits_reportInfo E _).then fun _ =>
    (fits_reading fun R => settled_readName R _).then fun bs => ?_
  exact .ite (fun _ => .pure trivial) fun _ => (fits_queryFunction E _ _).then fun _ =>
    .pure trivial

theorem fits_queryDynamicExports (E : Enumeration σ) (T : DynTables) (l : List Nat) :
    Fits (E.queryDynamicExports T l) := by
  induction l with
  | nil => exact .pure trivial
  | cons idx l ih => exact (fits_queryExport E T _).then fun _ => ih

theorem fits_writeNumber (E : Enumeration σ) (size : Nat) (dest value : Value) :
    Fits (E.writeNumber size dest value) := by
  intro s
  unfold Post Enumeration.writeNumber
  rw [get_bind]
  obtain ⟨r, image⟩ := E.stream.write s.image dest (wr size (value.toNat % 256 ^ size) E.ident.isLE)
  dsimp only
  rw [set_bind]
  cases r with
  | error e => exact nofun
  | ok written => trivial

theorem settled_slotAddr (E : Enumeration σ) (r_offset : Value) :
    Settled (E.slotAddr r_offset) := by
  unfold Enumeration.slotAddr
  split
  · trivial
  · exact settled_ite (fun _ => trivial) fun _ => trivial

theorem fits_reportPlt (E : Enumeration σ) (T : DynTables) (idx : Nat) (r_offset : Value)
    (sym : Symbol) : Fits (E.reportPlt T idx r_offset sym) := by
  refine (fits_reading fun _ => settled_slotAddr E r_offset).then fun slot =>
    (fits_reportInfo E _).then fun _ => ?_
  refine (fits_reading fun R => settled_readName R _).then fun bs =>
    (fits_queryFunction E _ _).then fun value => ?_
  exact .ite (fun _ => fits_writeNumber E _ _ _) fun _ => .pure trivial

variable (hfit : ((T.entSize E.ident.is64bit).setWidth 32).toNat ≤ 32)

include hfit

theorem settled_readPlt (R : Reader) (idx : Nat) : Settled (E.readPlt R T idx) :=
  Settled.bind (Reader.settled_into hfit) fun _ => settled_ite (fun _ => trivial) fun _ => trivial

theorem fits_queryPlt (n idx : Nat) : Fits (E.queryPlt T n idx) := by
  induction n generalizing idx with
  | zero => exact .pure trivial
  | succ n ih =>
    have hentry : Fits (E.queryPltEntry T idx) := by
      refine (fits_reading fun R => settled_readPlt hfit R idx).then fun p => ?_
      refine (fits_reading fun R => settled_readSymNormalized R _ _).then fun sym => ?_
      exact .ite (fun _ => .pure trivial) fun _ => fits_reportPlt E T idx p.1 sym
    exact hentry.then fun _ => ih (idx + 1)

end Fits

/-! ## When they do -/

section

variable {σ : Type} (E : Enumeration σ) (T : DynTables)

/-- No read of the enumeration is larger than its buffer. -/
def Enumeration.ReadsFit (s : QueryState σ) :
    Prop := Post E.query s (fun _ _ => True) fun e _ => e ≠ .overrun

/-- The PLT relocations are walked, and there is one. -/
def Enumeration.WalksPlt : Prop :=
  ¬ E.FromSymbols T ∧ ¬ Enumeration.NoPlt T ∧ (T.entSize E.ident.is64bit).toNat ≤ T.jmprelSize.toNat

/-- Where PLT relocations are walked, an entry has at most 32 bytes, for a size that
is cut to an `int`. -/
def Enumeration.RelocationsFit (s : QueryState σ) : Prop :=
  ∀ T, E.dynamic (E.stream.reader s.image) = .ok T → E.WalksPlt T →
    (T.entSize E.ident.is64bit).toNat % 2 ^ 32 ≤ 32

theorem entSize_pos (is64bit : Bool) : 0 < (T.entSize is64bit).toNat := by
  unfold DynTables.entSize
  split
  · next h => exact Nat.pos_of_ne_zero fun h0 => h (BitVec.eq_of_toNat_eq h0)
  · cases is64bit <;> cases T.isRela <;> decide

/-- The first relocation overruns its buffer. -/
theorem queryPlt_overrun {n : Nat} (hn : n ≠ 0)
    (hlarge : 32 < ((T.entSize E.ident.is64bit).setWidth 32).toNat)
    (s : QueryState σ) : E.queryPlt T n 0 s = .error .overrun s := by
  cases n with
  | zero => exact absurd rfl hn
  | succ n =>
    have hplt : E.readPlt (E.stream.reader s.image) T 0 = .error .overrun := by
      unfold Enumeration.readPlt Reader.into
      dsimp only
      rw [if_pos hlarge]
      rfl
    have hread : E.reading (fun R => E.readPlt R T 0) s = .error .overrun s := by
      unfold Enumeration.reading
      dsimp only
      rw [hplt]
    exact bind_of_error (bind_of_error hread)

theorem readsFit_iff (s : QueryState σ) : E.ReadsFit s ↔ E.RelocationsFit s := by
  unfold Enumeration.ReadsFit Enumeration.RelocationsFit Enumeration.query
  have hdynamic := settled_dynamic E (E.stream.reader s.image)
  cases hT : E.dynamic (E.stream.reader s.image) with
  | error e =>
    have hread : E.reading E.dynamic s = .error e s := by
      unfold Enumeration.reading
      rw [hT]
    rw [post_of_error (bind_of_error hread)]
    refine ⟨fun _ T h => (nomatch h), fun _ => ?_⟩
    rintro rfl
    rw [hT] at hdynamic
    exact hdynamic
  | ok T =>
    have hread : E.reading E.dynamic s = .ok T s := by
      unfold Enumeration.reading
      rw [hT]
    rw [post_bind, post_of_ok hread]
    have hwidth : ((T.entSize E.ident.is64bit).setWidth 32).toNat =
        (T.entSize E.ident.is64bit).toNat % 2 ^ 32 :=
      BitVec.toNat_setWidth _ _
    have hpos := entSize_pos T E.ident.is64bit
    unfold Enumeration.queryTables
    by_cases hsymbols : E.FromSymbols T
    · rw [if_pos hsymbols]
      refine ⟨fun _ T' hT' hwalk => absurd (Except.ok.inj hT' ▸ hsymbols) hwalk.1, fun _ => ?_⟩
      exact ((fits_reading fun R => settled_countDynSymbols E R T).then fun _ =>
        fits_queryDynamicExports E T _) s
    rw [if_neg hsymbols]
    by_cases hplt : Enumeration.NoPlt T
    · rw [if_pos hplt]
      exact ⟨fun _ T' hT' hwalk => absurd (Except.ok.inj hT' ▸ hplt) hwalk.2.1, fun _ => trivial⟩
    rw [if_neg hplt]
    constructor
    · rintro h _ ⟨⟩ hwalk
      refine Nat.le_of_not_lt fun hlarge => ?_
      have hn : T.jmprelSize.toNat / (T.entSize E.ident.is64bit).toNat ≠ 0 := by
        rw [Nat.div_ne_zero_iff]
        exact ⟨hpos.ne', hwalk.2.2⟩
      rw [post_of_error (queryPlt_overrun E T hn (hwidth ▸ hlarge) s)] at h
      exact h rfl
    · intro h
      by_cases hcount : (T.entSize E.ident.is64bit).toNat ≤ T.jmprelSize.toNat
      · exact fits_queryPlt (hwidth ▸ h T rfl ⟨hsymbols, hplt, hcount⟩) _ _ s
      · rw [Nat.div_eq_of_lt (Nat.lt_of_not_le hcount)]
        trivial

end

/-! ## The note that is copied from -/

section

variable {note found : List Byte}

/-- From `note` on, the first build id is `found`. -/
inductive FirstBuildId (found : List Byte) : List Byte → Prop
  | here : IsWhole found → IsBuildId found → FirstBuildId found found
  | next {note : List Byte} : IsWhole note → ¬ IsBuildId note → FirstBuildId found (nextNote note) →
      FirstBuildId found note

theorem length_nextNote (h : IsWhole note) : (nextNote note).length < note.length := by
  unfold nextNote
  rw [List.length_drop]
  have := h.1
  omega

/-- What `DIANA_MEMCPY` is told of a build id. -/
def BuildIdQuery.copyOf (B : BuildIdQuery) (note : List Byte) : BuildIdCopy :=
  ⟨n_descsz note, note.drop (12 + (align4 (n_namesz note)).toNat),
    min (n_descsz note).toNat B.bufferSize.toNat⟩

variable {B : BuildIdQuery}

theorem scanNotes_eq_some (h : FirstBuildId found note) {fuel : Nat} (hfuel : note.length ≤ fuel) :
    B.scanNotes fuel note = some (B.copyOf found) := by
  induction h generalizing fuel with
  | here hwhole hid =>
    have := hwhole.1
    obtain ⟨fuel, rfl⟩ := Nat.exists_eq_succ_of_ne_zero (show fuel ≠ 0 by omega)
    exact (if_neg (not_not.2 hwhole)).trans (if_pos hid)
  | next hwhole hnot _ ih =>
    have := length_nextNote hwhole
    obtain ⟨fuel, rfl⟩ := Nat.exists_eq_succ_of_ne_zero (show fuel ≠ 0 by omega)
    exact ((if_neg (not_not.2 hwhole)).trans (if_neg hnot)).trans (ih (by omega))

theorem exists_of_scanNotes {fuel : Nat} {c : BuildIdCopy} (h : B.scanNotes fuel note = some c) :
    ∃ found, FirstBuildId found note ∧ c = B.copyOf found := by
  induction fuel generalizing note with
  | zero => cases h
  | succ fuel ih =>
    unfold BuildIdQuery.scanNotes at h
    split at h
    · cases h
    · next hwhole =>
      rw [not_not] at hwhole
      split at h
      · next hid => exact ⟨note, .here hwhole hid, (Option.some.inj h).symm⟩
      · next hid =>
        obtain ⟨found, hfound, rfl⟩ := ih h
        exact ⟨found, .next hwhole hid hfound, rfl⟩

theorem scanNotes_eq_none (h : ∀ found, ¬ FirstBuildId found note) (fuel : Nat) :
    B.scanNotes fuel note = none := by
  cases hc : B.scanNotes fuel note with
  | none => rfl
  | some c =>
    obtain ⟨found, hfound, -⟩ := exists_of_scanNotes hc
    exact absurd hfound (h found)

/-- The first build id of the segments is in one that can be captured, behind segments without
any. -/
inductive BuildIdQuery.FirstIn (B : BuildIdQuery) (found : List Byte) : List ProgramHeader → Prop
  | here {h : ProgramHeader} {rest : List ProgramHeader} {offset : Value} {bs : List Byte} :
      IsNote h → B.file.linkToOffset h.p_vaddr = .ok offset → B.capture h offset = .ok bs →
      FirstBuildId found bs →
        FirstIn B found (h :: rest)
  | skip {h : ProgramHeader} {rest : List ProgramHeader} :
      (IsNote h → ∀ offset, B.file.linkToOffset h.p_vaddr ≠ .ok offset) → FirstIn B found rest →
        FirstIn B found (h :: rest)
  | next {h : ProgramHeader} {rest : List ProgramHeader} {offset : Value} {bs : List Byte} :
      IsNote h → B.file.linkToOffset h.p_vaddr = .ok offset → B.capture h offset = .ok bs →
        (∀ other, ¬ FirstBuildId other bs) → FirstIn B found rest → FirstIn B found (h :: rest)

theorem querySegments_eq_some {l : List ProgramHeader} (h : B.FirstIn found l) :
    B.querySegments l = .ok (some (B.copyOf found)) := by
  induction h with
  | here hnote hoffset hbs hfound =>
    unfold BuildIdQuery.querySegments BuildIdQuery.querySegment
    rw [if_pos hnote, hoffset]
    dsimp only
    rw [hbs]
    dsimp only [bind, Except.bind]
    rw [scanNotes_eq_some hfound le_rfl]
  | @skip h rest hskip _ ih =>
    unfold BuildIdQuery.querySegments
    split
    · next hnote =>
      cases hoffset : B.file.linkToOffset h.p_vaddr with
      | error e => exact ih
      | ok offset => exact absurd hoffset (hskip hnote offset)
    · exact ih
  | next hnote hoffset hbs hnone _ ih =>
    unfold BuildIdQuery.querySegments BuildIdQuery.querySegment
    rw [if_pos hnote, hoffset]
    dsimp only
    rw [hbs]
    dsimp only [bind, Except.bind]
    rw [scanNotes_eq_none hnone]
    exact ih

theorem exists_of_querySegments {l : List ProgramHeader} {c : BuildIdCopy}
    (h : B.querySegments l = .ok (some c)) : ∃ found, B.FirstIn found l ∧ c = B.copyOf found := by
  induction l with
  | nil => cases h
  | cons g rest ih =>
    unfold BuildIdQuery.querySegments at h
    split at h
    · next hnote =>
      cases hoffset : B.file.linkToOffset g.p_vaddr with
      | error e =>
        rw [hoffset] at h
        obtain ⟨found, hfound, rfl⟩ := ih h
        exact ⟨found, .skip (fun _ offset hok => nomatch hoffset.symm.trans hok) hfound, rfl⟩
      | ok offset =>
        rw [hoffset] at h
        unfold BuildIdQuery.querySegment at h
        dsimp only at h
        cases hbs : B.capture g offset with
        | error e =>
          rw [hbs] at h
          cases h
        | ok bs =>
          rw [hbs] at h
          dsimp only [bind, Except.bind] at h
          cases hscan : B.scanNotes bs.length bs with
          | none =>
            rw [hscan] at h
            obtain ⟨found, hfound, rfl⟩ := ih h
            refine ⟨found, .next hnote hoffset hbs (fun other hother => ?_) hfound, rfl⟩
            cases hscan.symm.trans (scanNotes_eq_some hother le_rfl)
          | some c' =>
            rw [hscan] at h
            cases h
            obtain ⟨found, hfound, rfl⟩ := exists_of_scanNotes hscan
            exact ⟨found, .here hnote hoffset hbs hfound, rfl⟩
    · next hnote =>
      obtain ⟨found, hfound, rfl⟩ := ih h
      exact ⟨found, .skip (fun h => absurd h hnote) hfound, rfl⟩

end

/-! ## Rounded sizes -/

/-- The sum wraps for the three largest sizes. -/
theorem toNat_align4 (n : BitVec 32) :
    (align4 n).toNat = if n.toNat < 2 ^ 32 - 3 then (n.toNat + 3) / 4 * 4 else 0 := by
  unfold align4
  rw [show n + 3 &&& ~~~3 = n + 3 &&& ~~~3#32 from rfl, toNat_clear_three, BitVec.toNat_add,
    show (3 : BitVec 32).toNat = 3 from rfl]
  have := n.isLt
  split <;> omega

theorem FirstBuildId.facts {found note : List Byte} (h : FirstBuildId found note) :
    IsWhole found ∧ IsBuildId found ∧ found.length ≤ note.length := by
  induction h with
  | here hwhole hid => exact ⟨hwhole, hid, le_rfl⟩
  | next hwhole _ _ ih => exact ⟨ih.1, ih.2.1, ih.2.2.trans (length_nextNote hwhole).le⟩

namespace BuildIdQuery

variable (B : BuildIdQuery)

/-- Every byte that is copied out is one that was captured. -/
def CopiesInside : Prop := ∀ c, B.query = .ok (some c) → c.toCopy ≤ c.captured.length

/-- The descriptor of the first build id has a size whose sum with 3 does not wrap, or the caller's
buffer is not larger than what is captured behind the header and the name, 16 bytes. -/
def NotesFit : Prop :=
  B.bufferSize ≠ 0 → ∀ found, B.FirstIn found B.file.capturedSegments →
    (n_descsz found).toNat < 2 ^ 32 - 3 ∨ B.bufferSize.toNat ≤ found.length - 16

variable {B}

theorem length_capture {h : ProgramHeader} {offset : Value} {bs : List Byte}
    (hbs : B.capture h offset = .ok bs) : bs.length ≤ h.p_filesz.toNat := by
  unfold capture at hbs
  split at hbs
  · split at hbs
    · cases hbs
    · exact Reader.into_eq_ok hbs
  · cases hbs

theorem FirstIn.facts {found : List Byte} {l : List ProgramHeader} (h : B.FirstIn found l) :
    IsWhole found ∧ IsBuildId found ∧ found.length ≤ maxSafeAllocSize := by
  induction h with
  | here hnote _ hbs hfound =>
    obtain ⟨hwhole, hid, hle⟩ := hfound.facts
    exact ⟨hwhole, hid, hle.trans ((length_capture hbs).trans hnote.2.2)⟩
  | skip _ _ ih => exact ih
  | next _ _ _ _ _ ih => exact ih

/-- The copy of a build id lies in what was captured, exactly if its size does not wrap or the
buffer is small. -/
theorem copyOf_inside_iff {found : List Byte} (hwhole : IsWhole found) (hid : IsBuildId found)
    (hlen : found.length ≤ maxSafeAllocSize) :
    (B.copyOf found).toCopy ≤ (B.copyOf found).captured.length ↔
      (n_descsz found).toNat < 2 ^ 32 - 3 ∨ B.bufferSize.toNat ≤ found.length - 16 := by
  obtain ⟨hhead, hsizes⟩ := hwhole
  have hname : (align4 (n_namesz found)).toNat = 4 := by
    rw [hid.2.1]
    rfl
  rw [hname, toNat_align4] at hsizes
  unfold copyOf
  dsimp only
  rw [List.length_drop, hname]
  rw [maxSafeAllocSize] at hlen
  split at hsizes <;> omega

theorem copiesInside_iff : B.CopiesInside ↔ B.NotesFit := by
  unfold CopiesInside NotesFit query
  by_cases hsize : B.bufferSize = 0
  · rw [if_pos hsize]
    exact ⟨fun _ h => absurd hsize h, fun _ _ h => nomatch h⟩
  rw [if_neg hsize]
  constructor
  · intro h _ found hfound
    obtain ⟨hwhole, hid, hlen⟩ := hfound.facts
    exact (copyOf_inside_iff hwhole hid hlen).1 (h _ (querySegments_eq_some hfound))
  · intro h c hc
    obtain ⟨found, hfound, rfl⟩ := exists_of_querySegments hc
    obtain ⟨hwhole, hid, hlen⟩ := hfound.facts
    exact (copyOf_inside_iff hwhole hid hlen).2 (h hsize found hfound)

end BuildIdQuery

/-- The reads of an enumeration fit their buffers and the copy of a build id lies in the captured
segment, exactly if the size of a PLT relocation, cut to 32 bits, is at most 32 wherever one is
read, and the size of the build id does not wrap or the caller's buffer ends before what was
captured does. -/
theorem tablesFit_iff {σ : Type} (E : Enumeration σ) (s : QueryState σ) (B : BuildIdQuery) :
    E.ReadsFit s ∧ B.CopiesInside ↔ E.RelocationsFit s ∧ B.NotesFit :=
  and_congr (readsFit_iff E s) BuildIdQuery.copiesInside_iff

/-! ## Relocations of 64 bytes -/

/-- An image of 0x200 bytes: `DT_SYMTAB`, `DT_STRTAB`, `DT_JMPREL`, and `DT_RELAENT` and
`DT_PLTRELSZ` of 64 bytes. -/
def wideRelocations : List Byte :=
  let entry (tag val : Nat) := leBytes 8 tag ++ leBytes 8 val
  entry 6 0x180 ++ entry 5 0x1C0 ++ entry 23 0x100 ++ entry 2 64 ++ entry 9 64 ++ entry 0 0 ++
    List.replicate 0x1A0 0

/-- The enumeration of its imports. -/
def wideQuery : Enumeration Unit where
  file :=
    { zeroTableFile with capturedSegments := [⟨1, 0, 0, 0, 0, 0x200, 0x200, 0⟩,
      ⟨2, 0, 0, 0, 0, 96, 96, 0⟩] }
  stream := ⟨fun _ => bytesReader wideRelocations, fun _ _ bs => (.ok bs.length, ()), true⟩
  observer := ⟨false, fun _ => .ok (), fun _ => .ok 0⟩
  baseAddress := 0
  absolute := false
  bImports := true
  malloc := fun _ => true
  heap := fun _ => 0
  staleRel := fun _ _ => 0
  staleName := fun _ _ => 0

/-- 64 bytes are read to `relBuf`. -/
theorem not_tablesFit : ¬ ∀ (σ : Type) (E : Enumeration σ) (s : QueryState σ) (B : BuildIdQuery),
    E.ReadsFit s ∧ B.CopiesInside := by
  intro h
  have hT : wideQuery.dynamic (bytesReader wideRelocations) = .ok ⟨0x180, 0x1C0, 0, 0x100, 64, 64,
      0, 0, 0⟩ := by
    decide +kernel
  have hfit := (h Unit wideQuery ⟨(), []⟩ ⟨zeroTableFile, bytesReader [], 0, 16, fun _ => true⟩).1
  have hrel := (readsFit_iff wideQuery ⟨(), []⟩).1 hfit _ hT ⟨by decide, by decide, by decide⟩
  exact absurd hrel (by decide)

end Diana.Elf
