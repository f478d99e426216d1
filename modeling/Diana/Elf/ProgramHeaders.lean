import Diana.Elf.Layout
import Diana.Status

/-!
# The program headers of an ELF file

`ReadProgramHeaders`: the table is checked against the size of the file, read entry by entry and
decoded into normalized headers. The status of the loop does not get through the clean-up behind it,
which ends in `return DI_SUCCESS`.

* `readEntries`: the loop; `readProgramHeaders`: the function;
* `Delivers`: a stream gives so many headers in full, as a file of this class and byte order stores
  them;
* `readProgramHeaders_iff`: when a success means that all headers were read.
-/

namespace Diana.Elf

/-- `DianaMovableReadStream` over a state `σ`: `pMoveTo` and `pReadFnc`. -/
structure MovableStream (σ : Type) where
  moveTo : σ → Value → Except Status Unit × σ
  read : σ → Nat → Except Status (List Byte) × σ

variable {σ : Type}

/-- `DianaExactRead` -/
def exactRead (S : MovableStream σ) (size : Nat) (s : σ) : Except Status (List Byte) × σ :=
  match S.read s size with
  | (.error e, s) => (.error e, s)
  | (.ok bs, s) => if bs.length = size then (.ok bs, s) else (.error .endOfStream, s)

/-- `DIANA_ELF_PROGRAM_HEADER` -/
structure ProgramHeader where
  p_type : BitVec 32
  p_flags : BitVec 32
  p_offset : Value
  p_vaddr : Value
  p_paddr : Value
  p_filesz : Value
  p_memsz : Value
  p_align : Value
  deriving DecidableEq, Repr

/-- The header that `DIANA_MEMSET` leaves. -/
def ProgramHeader.zero : ProgramHeader := ⟨0, 0, 0, 0, 0, 0, 0, 0⟩

/-- The sizes of `Elf32_Phdr` and `Elf64_Phdr`. -/
def phdrSize (is64bit : Bool) : Nat := if is64bit then 56 else 32

/-- `DianaElf_DecodePhdrNormalized` -/
def decodePhdrNormalized (raw : List Byte) (rawSize : Nat) (I : Ident) :
    Except Status ProgramHeader :=
  if I.is64bit then
    if rawSize < 56 then .error .invalidInput
    else
      .ok
        { p_type := rd32 raw 0x00 I.isLE
          p_flags := rd32 raw 0x04 I.isLE
          p_offset := rd64 raw 0x08 I.isLE
          p_vaddr := rd64 raw 0x10 I.isLE
          p_paddr := rd64 raw 0x18 I.isLE
          p_filesz := rd64 raw 0x20 I.isLE
          p_memsz := rd64 raw 0x28 I.isLE
          p_align := rd64 raw 0x30 I.isLE }
  else
    if rawSize < 32 then .error .invalidInput
    else
      .ok
        { p_type := rd32 raw 0x00 I.isLE
          p_offset := (rd32 raw 0x04 I.isLE).setWidth 64
          p_vaddr := (rd32 raw 0x08 I.isLE).setWidth 64
          p_paddr := (rd32 raw 0x0C I.isLE).setWidth 64
          p_filesz := (rd32 raw 0x10 I.isLE).setWidth 64
          p_memsz := (rd32 raw 0x14 I.isLE).setWidth 64
          p_flags := rd32 raw 0x18 I.isLE
          p_align := (rd32 raw 0x1C I.isLE).setWidth 64 }

/-- What `ReadProgramHeaders` works on. -/
structure HeaderTable (σ : Type) where
  stream : MovableStream σ
  ident : Ident
  e_phoff : Value
  e_phentsize : BitVec 16
  e_phnum : BitVec 16
  /-- 0 where it is not known -/
  sizeOfFile : Value
  /-- `DIANA_MALLOC` of so many bytes succeeds -/
  malloc : Nat → Bool

/-- `pCapturedSegments` and `capturedSegmentCount` -/
structure Captured where
  segments : List ProgramHeader
  count : Nat
  deriving DecidableEq, Repr

/-- `sizeof(DIANA_ELF_PROGRAM_HEADER)` -/
def normalizedSize : Nat := 56

namespace HeaderTable

variable (H : HeaderTable σ)

/-- The loop: `n` entries are left, those in `done` are decoded. -/
def readEntries : Nat → List ProgramHeader → σ → Except Status Unit × List ProgramHeader × σ
  | 0, done, s => (.ok (), done, s)
  | n + 1, done, s =>
    match exactRead H.stream H.e_phentsize.toNat s with
    | (.error e, s) => (.error e, done, s)
    | (.ok raw, s) =>
      match decodePhdrNormalized raw H.e_phentsize.toNat H.ident with
      | .error e => (.error e, done, s)
      | .ok header => readEntries n (done ++ [header]) s

/-- The table lies in the file. -/
def checkBounds : Except Status Unit :=
  if H.sizeOfFile ≠ 0 ∧ H.sizeOfFile ≤ H.e_phoff then .error .invalidInput
  else
    let tableSize : Value := H.e_phnum.setWidth 64 * H.e_phentsize.setWidth 64
    if 0xFFFFFFFFFFFFFFFF - H.e_phoff < tableSize then .error .overflow
    else if H.sizeOfFile ≠ 0 ∧ H.sizeOfFile < H.e_phoff + tableSize then .error .invalidInput
    else .ok ()

/-- The normalized array with the first headers filled in. -/
def captured (done : List ProgramHeader) : Captured where
  segments := done ++ List.replicate (H.e_phnum.toNat - done.length) .zero
  count := done.length

/-- `ReadProgramHeaders`: its status, what it captured and the stream. -/
def readProgramHeaders (s : σ) : Except Status Unit × Option Captured × σ :=
  if H.e_phnum = 0 then (.ok (), none, s)
  else
    match H.checkBounds with
    | .error e => (.error e, none, s)
    | .ok () =>
      if ¬ H.malloc (H.e_phnum.toNat * normalizedSize) then (.error .outOfMemory, none, s)
      else
        match H.stream.moveTo s H.e_phoff with
        | (.error e, s) => (.error e, some (H.captured []), s)
        | (.ok (), s) =>
          if ¬ H.malloc H.e_phentsize.toNat then (.ok (), some (H.captured []), s)
          else
            match H.readEntries H.e_phnum.toNat [] s with
            | (_, done, s) => (.ok (), some (H.captured done), s)

end HeaderTable

/-! ## Headers in a file -/

/-- A normalized header as a file of a class and a byte order stores it. -/
def encodePhdr (I : Ident) (h : ProgramHeader) : List Byte :=
  if I.is64bit then
    wr 4 h.p_type.toNat I.isLE ++ (wr 4 h.p_flags.toNat I.isLE ++ (wr 8 h.p_offset.toNat I.isLE ++
      (wr 8 h.p_vaddr.toNat I.isLE ++
        (wr 8 h.p_paddr.toNat I.isLE ++ (wr 8 h.p_filesz.toNat I.isLE ++
        (wr 8 h.p_memsz.toNat I.isLE ++ wr 8 h.p_align.toNat I.isLE))))))
  else
    wr 4 h.p_type.toNat I.isLE ++ (wr 4 h.p_offset.toNat I.isLE ++ (wr 4 h.p_vaddr.toNat I.isLE ++
      (wr 4 h.p_paddr.toNat I.isLE ++
        (wr 4 h.p_filesz.toNat I.isLE ++ (wr 4 h.p_memsz.toNat I.isLE ++
        (wr 4 h.p_flags.toNat I.isLE ++ wr 4 h.p_align.toNat I.isLE))))))

/-- The numbers of a header that a 32-bit file can store. -/
def ProgramHeader.Fits32 (h : ProgramHeader) : Prop :=
  h.p_offset.toNat < 2 ^ 32 ∧ h.p_vaddr.toNat < 2 ^ 32 ∧ h.p_paddr.toNat < 2 ^ 32 ∧
    h.p_filesz.toNat < 2 ^ 32 ∧ h.p_memsz.toNat < 2 ^ 32 ∧ h.p_align.toNat < 2 ^ 32

/-- An entry of the table that stores the header, whatever follows it. -/
def Stores (I : Ident) (raw : List Byte) (h : ProgramHeader) : Prop :=
  raw.take (phdrSize I.is64bit) = encodePhdr I h ∧ (I.is64bit = false → h.Fits32)

theorem length_encodePhdr (I : Ident) (h : ProgramHeader) :
    (encodePhdr I h).length = phdrSize I.is64bit := by
  unfold encodePhdr phdrSize
  split <;> simp only [List.length_append, length_wr]

theorem toNat_rd32 (raw : List Byte) (offset : Nat) (isLE : Bool) :
    (rd32 raw offset isLE).toNat = rd 4 raw offset isLE :=
  Nat.mod_eq_of_lt (rd_lt 4 raw offset isLE)

theorem toNat_rd64 (raw : List Byte) (offset : Nat) (isLE : Bool) :
    (rd64 raw offset isLE).toNat = rd 8 raw offset isLE :=
  Nat.mod_eq_of_lt (rd_lt 8 raw offset isLE)

theorem toNat_rd32_wide (raw : List Byte) (offset : Nat) (isLE : Bool) :
    ((rd32 raw offset isLE).setWidth 64).toNat = rd 4 raw offset isLE := by
  rw [BitVec.toNat_setWidth, toNat_rd32]
  exact Nat.mod_eq_of_lt (Nat.lt_trans (rd_lt 4 raw offset isLE) (by decide))

/-- The next field of a list of bytes. -/
theorem wr_rd_take {raw : List Byte} {isLE : Bool} {offset n m : Nat} {rest : List Byte}
    (h : offset + n ≤ raw.length) (hrest : (raw.drop (offset + n)).take m = rest) :
    (raw.drop offset).take (n + m) = wr n (rd n raw offset isLE) isLE ++ rest := by
  rw [List.take_add, wr_rd isLE h, List.drop_drop, hrest]

theorem wr_rd_last {raw : List Byte} {isLE : Bool} {offset n : Nat} (h : offset + n ≤ raw.length) :
    (raw.drop offset).take n = wr n (rd n raw offset isLE) isLE := (wr_rd isLE h).symm

/-- What an entry is decoded to is what it stores. -/
theorem decode_stores {I : Ident} {raw : List Byte} {h : ProgramHeader}
    (hd : decodePhdrNormalized raw raw.length I = .ok h) : Stores I raw h := by
  obtain ⟨is64bit, isLE⟩ := I
  cases is64bit with
  | true =>
    unfold decodePhdrNormalized at hd
    rw [if_pos rfl] at hd
    by_cases hlen : raw.length < 56
    · rw [if_pos hlen] at hd
      cases hd
    · rw [if_neg hlen] at hd
      cases hd
      refine ⟨?_, fun h => Bool.noConfusion h⟩
      simp only [encodePhdr, phdrSize, if_true, toNat_rd32, toNat_rd64]
      change (raw.drop 0).take (4 + (4 + (8 + (8 + (8 + (8 + (8 + 8))))))) = _
      refine wr_rd_take (by omega)
        (wr_rd_take (by omega) (wr_rd_take (by omega) (wr_rd_take (by omega)
        (wr_rd_take (by omega) (wr_rd_take (by omega)
          (wr_rd_take (by omega) (wr_rd_last (by omega))))))))
  | false =>
    unfold decodePhdrNormalized at hd
    rw [if_neg Bool.false_ne_true] at hd
    by_cases hlen : raw.length < 32
    · rw [if_pos hlen] at hd
      cases hd
    · rw [if_neg hlen] at hd
      cases hd
      refine ⟨?_, fun _ => ?_⟩
      · simp only [encodePhdr, phdrSize, Bool.false_eq_true, if_false, toNat_rd32, toNat_rd32_wide]
        change (raw.drop 0).take (4 + (4 + (4 + (4 + (4 + (4 + (4 + 4))))))) = _
        refine wr_rd_take (by omega)
          (wr_rd_take (by omega) (wr_rd_take (by omega) (wr_rd_take (by omega)
          (wr_rd_take (by omega) (wr_rd_take (by omega)
            (wr_rd_take (by omega) (wr_rd_last (by omega))))))))
      · simp only [ProgramHeader.Fits32, toNat_rd32_wide]
        exact ⟨rd_lt 4 _ _ _, rd_lt 4 _ _ _, rd_lt 4 _ _ _, rd_lt 4 _ _ _, rd_lt 4 _ _ _,
          rd_lt 4 _ _ _⟩

theorem decode_of_size {I : Ident} {raw : List Byte} (h : phdrSize I.is64bit ≤ raw.length) :
    ∃ header, decodePhdrNormalized raw raw.length I = .ok header := by
  unfold phdrSize at h
  unfold decodePhdrNormalized
  cases hI : I.is64bit with
  | true =>
    rw [hI, if_pos rfl] at h
    rw [if_pos rfl, if_neg (Nat.not_lt.2 h)]
    exact ⟨_, rfl⟩
  | false =>
    rw [hI, if_neg Bool.false_ne_true] at h
    rw [if_neg Bool.false_ne_true, if_neg (Nat.not_lt.2 h)]
    exact ⟨_, rfl⟩

/-- An entry that stores a header has room for it. -/
theorem Stores.size_le {I : Ident} {raw : List Byte} {h : ProgramHeader} (hs : Stores I raw h) :
    phdrSize I.is64bit ≤ raw.length := by
  have hl := congrArg List.length hs.1
  rw [List.length_take, length_encodePhdr] at hl
  omega

/-! ## Reading the table -/

namespace HeaderTable

variable {H : HeaderTable σ} {s t : σ} {n : Nat}

/-- The stream gives so many entries in full, and they store the headers. -/
inductive Delivers (H : HeaderTable σ) : Nat → σ → List ProgramHeader → σ → Prop where
  | none {s : σ} : Delivers H 0 s [] s
  | entry {n : Nat} {s t u : σ} {raw : List Byte} {h : ProgramHeader} {hs : List ProgramHeader} :
      H.stream.read s H.e_phentsize.toNat = (.ok raw, t) → raw.length = H.e_phentsize.toNat →
        Stores H.ident raw h → Delivers H n t hs u → Delivers H (n + 1) s (h :: hs) u

/-- The stream gives so many entries in full. -/
inductive Full (H : HeaderTable σ) : Nat → σ → Prop where
  | none {s : σ} : Full H 0 s
  | entry {n : Nat} {s t : σ} {raw : List Byte} :
      H.stream.read s H.e_phentsize.toNat = (.ok raw, t) → raw.length = H.e_phentsize.toNat →
      Full H n t →
        Full H (n + 1) s

theorem Delivers.length {hs : List ProgramHeader} (h : Delivers H n s hs t) : hs.length = n := by
  induction h with
  | none => rfl
  | entry _ _ _ _ ih => rw [List.length_cons, ih]

theorem Delivers.full {hs : List ProgramHeader} (h : Delivers H n s hs t) : Full H n s := by
  induction h with
  | none => exact .none
  | entry hread hlen _ _ ih => exact .entry hread hlen ih

theorem Delivers.size_le {hs : List ProgramHeader} (h : Delivers H n s hs t) (hn : n ≠ 0) :
    phdrSize H.ident.is64bit ≤ H.e_phentsize.toNat := by
  cases h with
  | none => exact absurd rfl hn
  | entry _ hlen hst _ => exact hlen ▸ hst.size_le

theorem exactRead_eq {raw : List Byte} (hread : H.stream.read s H.e_phentsize.toNat = (.ok raw, t))
    (hlen : raw.length = H.e_phentsize.toNat) :
    exactRead H.stream H.e_phentsize.toNat s = (.ok raw, t) := by
  unfold exactRead
  rw [hread]
  exact if_pos hlen

/-- Where all entries are read in full and have room for a header, the loop decodes them. -/
theorem readEntries_of_full (hfull : Full H n s)
    (hsize : phdrSize H.ident.is64bit ≤ H.e_phentsize.toNat) (done : List ProgramHeader) :
    ∃ hs t, H.readEntries n done s = (.ok (), done ++ hs, t) ∧ Delivers H n s hs t := by
  induction hfull generalizing done with
  | @none s => exact ⟨[], s, by rw [List.append_nil]; rfl, .none⟩
  | @entry n s t raw hread hlen _ ih =>
    obtain ⟨h, hdec⟩ := decode_of_size (I := H.ident) (hlen.symm ▸ hsize)
    obtain ⟨hs, u, hrun, hdel⟩ := ih (done ++ [h])
    refine ⟨h :: hs, u, ?_, .entry hread hlen (decode_stores hdec) hdel⟩
    unfold readEntries
    rw [exactRead_eq hread hlen]
    dsimp only
    rw [← hlen, hdec]
    dsimp only
    rw [hrun, List.append_assoc]
    rfl

/-- The function gets to its loop, with the stream in the state `t`. -/
def Opens (H : HeaderTable σ) (s t : σ) : Prop :=
  H.e_phnum ≠ 0 ∧ H.checkBounds = .ok () ∧ H.malloc (H.e_phnum.toNat * normalizedSize) = true ∧
    H.stream.moveTo s H.e_phoff = (.ok (), t)

theorem readProgramHeaders_opened (h : H.Opens s t) :
    H.readProgramHeaders s =
      if ¬ H.malloc H.e_phentsize.toNat then (.ok (), some (H.captured []), t)
      else
        match H.readEntries H.e_phnum.toNat [] t with
        | (_, done, u) => (.ok (), some (H.captured done), u) := by
  obtain ⟨hnum, hbounds, halloc, hmove⟩ := h
  unfold readProgramHeaders
  rw [if_neg hnum, hbounds]
  dsimp only
  rw [if_neg (not_not.2 halloc), hmove]

theorem opens_of_success (hnum : H.e_phnum ≠ 0) (h : (H.readProgramHeaders s).1 = .ok ()) :
    ∃ t, H.Opens s t := by
  unfold readProgramHeaders at h
  rw [if_neg hnum] at h
  cases hb : H.checkBounds with
  | error e =>
    rw [hb] at h
    cases h
  | ok _ =>
    rw [hb] at h
    dsimp only at h
    by_cases hm : H.malloc (H.e_phnum.toNat * normalizedSize) = true
    · rw [if_neg (not_not.2 hm)] at h
      cases hmove : H.stream.moveTo s H.e_phoff with
      | mk r t =>
        rw [hmove] at h
        cases r with
        | error e => cases h
        | ok _ => exact ⟨t, hnum, hb, hm, hmove⟩
    · rw [if_pos hm] at h
      cases h

/-- A success means that all `e_phnum` headers were read in full and are captured as
the file stores them. -/
def ReadsAll (H : HeaderTable σ) (s : σ) : Prop :=
  (H.readProgramHeaders s).1 = .ok () →
    H.e_phnum = 0 ∨ ∃ t hs u, H.stream.moveTo s H.e_phoff = (.ok (), t) ∧
    H.Delivers H.e_phnum.toNat t hs u ∧
      H.readProgramHeaders s = (.ok (), some ⟨hs, H.e_phnum.toNat⟩, u)

/-- The program headers are read completely or not at all just where nothing fails once the function
is in its loop: there is memory for an entry, an entry has room for a header and all entries are
read in full. -/
theorem readProgramHeaders_iff :
    H.ReadsAll s ↔ ∀ t, H.Opens s t → H.malloc H.e_phentsize.toNat = true ∧
      phdrSize H.ident.is64bit ≤ H.e_phentsize.toNat ∧ H.Full H.e_phnum.toNat t := by
  constructor
  · intro hall t hopen
    have hrun := readProgramHeaders_opened hopen
    have hok : (H.readProgramHeaders s).1 = .ok () := by
      rw [hrun]
      split <;> rfl
    obtain hnum | ⟨t', hs, u, hmove, hdel, hres⟩ := hall hok
    · exact absurd hnum hopen.1
    · rw [hopen.2.2.2] at hmove
      cases hmove
      have hpos : H.e_phnum.toNat ≠ 0 := fun h => hopen.1 (BitVec.eq_of_toNat_eq h)
      refine ⟨?_, hdel.size_le hpos, hdel.full⟩
      by_contra hm
      rw [hrun, if_pos hm] at hres
      have hcount : 0 = H.e_phnum.toNat :=
        congrArg (fun r => (r.2.1.map Captured.count).getD 0) hres
      exact hpos hcount.symm
  · intro hcond hok
    by_cases hnum : H.e_phnum = 0
    · exact .inl hnum
    · obtain ⟨t, hopen⟩ := opens_of_success hnum hok
      obtain ⟨halloc, hsize, hfull⟩ := hcond t hopen
      obtain ⟨hs, u, hrun, hdel⟩ := readEntries_of_full hfull hsize []
      refine .inr ⟨t, hs, u, hopen.2.2.2, hdel, ?_⟩
      rw [readProgramHeaders_opened hopen, if_neg (not_not.2 halloc), hrun]
      have hcaptured : H.captured ([] ++ hs) = ⟨hs, H.e_phnum.toNat⟩ := by
        unfold captured
        rw [List.nil_append, hdel.length, Nat.sub_self, List.replicate_zero, List.append_nil]
      dsimp only
      rw [hcaptured]

end HeaderTable

/-- A file, and how far it is read. -/
def fileStream (bytes : List Byte) : MovableStream Nat where
  moveTo _ offset := (.ok (), offset.toNat)
  read pos size := (.ok ((bytes.drop pos).take size), pos + ((bytes.drop pos).take size).length)

/-- One 64-bit header behind the end of a file of 64 bytes, the size of which is not known. -/
def cutTable : HeaderTable Nat where
  stream := fileStream (List.replicate 64 0)
  ident := ⟨true, true⟩
  e_phoff := 64
  e_phentsize := 56
  e_phnum := 1
  sizeOfFile := 0
  malloc _ := true

theorem not_readsAll : ¬ cutTable.ReadsAll 0 := by
  rw [HeaderTable.readProgramHeaders_iff]
  intro h
  obtain ⟨-, -, hfull⟩ := h 64 ⟨by decide, rfl, rfl, rfl⟩
  cases hfull with
  | entry hread hlen _ =>
    cases hread
    exact absurd hlen (by decide)

end Diana.Elf
