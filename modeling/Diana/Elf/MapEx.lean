import Diana.Elf.Init
import Diana.Elf.Relocate
import Diana.Pe.MapEx

/-!
# Mapping an ELF file

`DianaElfFile_MapEx`: the headers and the loadable segments of a file are copied to the addresses
where they belong, what a segment has no data for is cleared, and the image is relocated.

* `ElfFile.mapEx`: the mapping;
* `ElfFile.Counted.writesInside`: where a file whose segments are counted is written.
-/

namespace Diana.Elf

open Diana.Lib

open Diana.Pe (MapArgs Mapping MapState Image SourceStream RandomStream imageStream Logs Between
  orFail safeAdd onFile onOut)

variable {φ σ : Type}

/-! ## Segments -/

namespace ProgramHeader

variable (h : ProgramHeader)

/-- `memSize` as the loop uses it. -/
def mappedSize : Nat := if h.p_memsz = 0 then h.p_filesz.toNat else h.p_memsz.toNat

/-- `fileSize` as the loop uses it. -/
def copiedSize : Nat := if h.p_offset = 0 ∧ h.p_filesz = 0 then 0
    else min h.p_filesz.toNat h.mappedSize

/-- The segment is refused. -/
def Refused (sizeOfModule : Value) : Prop := sizeOfModule < h.p_offset ∨ sizeOfModule < h.p_filesz

instance (sizeOfModule : Value) :
    Decidable (h.Refused sizeOfModule) := inferInstanceAs (Decidable (_ ∨ _))

end ProgramHeader

section

variable (A : MapArgs φ σ)

/-- The data of a segment. -/
def copySegment (h : ProgramHeader) (segmentVA : Value) : Mapping φ σ Unit :=
  if h.copiedSize ≠ 0 then do
    onFile (Pe.moveTo A.file h.p_offset)
    A.copyData segmentVA h.copiedSize
  else pure ()

/-- What the segment has no data for. -/
def clearSegment (h : ProgramHeader) (segmentVAEnd : Value) : Mapping φ σ Unit :=
  if h.copiedSize < h.mappedSize then A.memsetData segmentVAEnd (h.mappedSize - h.copiedSize)
    else pure ()

/-- A loadable segment. -/
def mapLoad (sizeOfModule : Value) (h : ProgramHeader) : Mapping φ σ Unit :=
  if h.Refused sizeOfModule then throw (.failed .error)
  else do
    let segmentVA ← orFail (safeAdd h.p_vaddr A.address)
    let segmentVAEnd ← orFail (safeAdd segmentVA (BitVec.ofNat 64 h.copiedSize))
    copySegment A h segmentVA
    clearSegment A h segmentVAEnd

/-- A turn of the loop over the segments. -/
def mapSegment (sizeOfModule : Value) (h : ProgramHeader) : Mapping φ σ Unit :=
  if h.p_type = DIANA_PT_LOAD then mapLoad A sizeOfModule h else pure ()

def mapSegments (sizeOfModule : Value) : List ProgramHeader → Mapping φ σ Unit
  | [] => pure ()
  | h :: rest => do
    mapSegment A sizeOfModule h
    mapSegments sizeOfModule rest

end

namespace ElfFile

variable (E : ElfFile) (A : MapArgs φ σ)

/-- `headerRegionSize` -/
def headerRegionSize : Nat := E.e_ehsize.toNat + E.e_phnum.toNat * E.e_phentsize.toNat

/-- The headers go to the start of the module. -/
def mapHeaders : Mapping φ σ Unit :=
  if E.headerRegionSize = 0 ∨ E.sizeOfModule.toNat < E.headerRegionSize then throw (.failed .error)
  else do
    let headerAddress ← orFail (safeAdd A.address E.linkBase)
    onFile (Pe.moveTo A.file 0)
    A.copyData headerAddress E.headerRegionSize

/-- `DianaElfFile_MapEx`; `doNotRelocate` is `DIANA_ELF_MAP_DO_NOT_RELOCATE`. -/
def mapEx (doNotRelocate : Bool) : Mapping φ σ Unit :=
  if ¬ E.fileMode then throw (.failed .invalidInput)
  else if E.sizeOfModule = 0 then throw (.failed .error)
  else if A.pageSize < 8 then throw (.failed .error)
  else do
    E.mapHeaders A
    mapSegments A E.sizeOfModule E.capturedSegments
    if doNotRelocate then pure () else onOut (E.relocate A.out A.address)

end ElfFile

/-! ## The module -/

namespace ProgramHeader

/-- What is mapped of the segment is what the module counts: `p_memsz` is not 0, where there is
data, and the end of the segment does not wrap. -/
def Counted (h : ProgramHeader) : Prop :=
  (h.p_memsz = 0 → h.p_filesz = 0) ∧ h.p_vaddr.toNat + h.p_memsz.toNat < 2 ^ 64

theorem mappedSize_lt (h : ProgramHeader) : h.mappedSize < 2 ^ 64 := by
  unfold mappedSize
  split
  · exact h.p_filesz.isLt
  · exact h.p_memsz.isLt

theorem copiedSize_le (h : ProgramHeader) : h.copiedSize ≤ h.mappedSize := by
  unfold copiedSize
  split
  · exact Nat.zero_le _
  · exact Nat.min_le_right _ _

theorem Counted.mappedSize_eq {h : ProgramHeader} (hc : h.Counted) :
    h.mappedSize = h.p_memsz.toNat := by
  unfold mappedSize
  split
  · next hzero =>
    rw [hc.1 hzero, hzero]
  · rfl

end ProgramHeader

namespace ElfFile

variable {E : ElfFile} {h : ProgramHeader}

/-- The module starts at or before every loadable segment. -/
theorem linkBase_le (hmem : h ∈ E.capturedSegments) (hload : h.p_type = DIANA_PT_LOAD) :
    E.linkBase.toNat ≤ h.p_vaddr.toNat := by
  unfold linkBase minLoadAddress
  generalize hfold : List.foldl _ _ _ = lowest
  have hlowest : ∃ a, lowest = some a ∧ a ≤ h.p_vaddr := by
    rw [← hfold]
    refine foldl_of_mem (P := fun lowest => ∃ a, lowest = some a ∧ a ≤ h.p_vaddr)
      (List.mem_filter.2 ⟨hmem, decide_eq_true hload⟩) (fun lowest => ?_) (fun lowest y => ?_) none
    · cases lowest with
      | none => exact ⟨_, rfl, BitVec.le_refl _⟩
      | some a =>
        refine ⟨_, rfl, ?_⟩
        rw [BitVec.le_def]
        split
        · exact le_rfl
        · next hlt => exact Nat.le_of_not_lt hlt
    · rintro ⟨a, rfl, ha⟩
      refine ⟨_, rfl, ?_⟩
      rw [BitVec.le_def] at ha ⊢
      split
      · next hlt => exact (Nat.le_of_lt hlt).trans ha
      · exact ha
  obtain ⟨a, rfl, ha⟩ := hlowest
  rw [Option.getD_some, BitVec.toNat_and]
  exact Nat.and_le_left.trans ha

/-- The module ends at or behind every segment. -/
theorem le_maxSize (hmem : h ∈ E.capturedSegments) :
    (h.p_vaddr + h.p_memsz).toNat ≤ E.maxSize.toNat := by
  refine foldl_of_mem (P := fun size : Value => (h.p_vaddr + h.p_memsz).toNat ≤ size.toNat) hmem
    (fun size => ?_) (fun size y hle => ?_) 0
  · split
    · exact le_rfl
    · next hlt => exact Nat.le_of_not_lt hlt
  · split
    · next hlt => exact hle.trans (Nat.le_of_lt hlt)
    · exact hle

/-- A segment that is counted lies in the module. -/
theorem counted_inside (hmem : h ∈ E.capturedSegments) (hload : h.p_type = DIANA_PT_LOAD)
    (hc : h.Counted) (hsize : h.mappedSize ≠ 0) :
    E.linkBase.toNat ≤ h.p_vaddr.toNat ∧
    h.p_vaddr.toNat + h.mappedSize ≤ E.linkBase.toNat + E.sizeOfModule.toNat := by
  have hlow := linkBase_le hmem hload
  have hhigh := le_maxSize hmem
  rw [BitVec.toNat_add, Nat.mod_eq_of_lt hc.2] at hhigh
  rw [hc.mappedSize_eq] at hsize ⊢
  refine ⟨hlow, ?_⟩
  unfold sizeOfModule
  have hlt : E.linkBase < E.maxSize := by
    rw [BitVec.lt_def]
    omega
  rw [if_pos hlt, BitVec.toNat_sub_of_le (BitVec.le_of_lt hlt)]
  omega

/-! ## Writes -/

/-- Every loadable segment is counted. -/
def Counted (E : ElfFile) : Prop := ∀ h ∈ E.capturedSegments, h.p_type = DIANA_PT_LOAD → h.Counted

/-- On every file and every image, what is mapped is written inside the module. -/
def WritesInside (E : ElfFile) (address : Value) (pageSize : Nat) : Prop :=
  ∀ (φ σ : Type) (file : SourceStream φ) (out : RandomStream σ),
    Keeps (Logs (Between (address.toNat + E.linkBase.toNat)
      (address.toNat + E.linkBase.toNat + E.sizeOfModule.toNat)))
      (E.mapEx (MapArgs.mk file out address pageSize).logged true)

end ElfFile

section Inside

variable {B : MapArgs φ σ} {lo hi : Nat}

theorem keeps_mapLoad {h : ProgramHeader} {M : Value}
    (hin : h.mappedSize ≠ 0 → lo ≤ B.address.toNat + h.p_vaddr.toNat ∧
      B.address.toNat + h.p_vaddr.toNat + h.mappedSize ≤ hi) :
    Keeps (Logs (Between lo hi)) (mapLoad B.logged M h) := by
  have hmapped := h.mappedSize_lt
  have hcopied := h.copiedSize_le
  refine .ite (.throw _) ?_
  refine (Pe.yields_safeAdd _ _).keeps_bind fun segmentVA hva =>
    (Pe.yields_safeAdd _ _).keeps_bind fun segmentVAEnd hend => ?_
  have hva' : segmentVA.toNat = B.address.toNat + h.p_vaddr.toNat := by
    rw [hva.2, Nat.add_comm]
    rfl
  rw [BitVec.toNat_ofNat, Nat.mod_eq_of_lt (by omega), hva'] at hend
  refine .bind ?_ fun _ => ?_
  · unfold copySegment
    split
    · next hsize =>
      obtain ⟨hlow, hhigh⟩ := hin (by omega)
      exact .bind (Pe.keeps_onFile _) fun _ => Pe.keeps_copyData (by omega) (by omega) (by omega)
    · exact .pure ()
  · unfold clearSegment
    split
    · next hsize =>
      obtain ⟨hlow, hhigh⟩ := hin (by omega)
      exact (Pe.yields_memsetData (by omega) (by omega) (fun _ => by omega)).keeps
    · exact .pure ()

theorem keeps_mapSegments {l : List ProgramHeader} {M : Value}
    (hin : ∀ h ∈ l, h.p_type = DIANA_PT_LOAD → h.mappedSize ≠ 0 →
      lo ≤ B.address.toNat + h.p_vaddr.toNat ∧
      B.address.toNat + h.p_vaddr.toNat + h.mappedSize ≤ hi) :
    Keeps (Logs (Between lo hi)) (mapSegments B.logged M l) := by
  induction l with
  | nil => exact .pure ()
  | cons h l ih =>
    have hhead : Keeps (Logs (Between lo hi)) (mapSegment B.logged M h) := by
      unfold mapSegment
      split
      · next hload => exact keeps_mapLoad (hin h List.mem_cons_self hload)
      · exact .pure ()
    exact .bind hhead fun _ => ih fun g hg => hin g (List.mem_cons_of_mem _ hg)

theorem ElfFile.keeps_mapHeaders (E : ElfFile) (hlo : lo = B.address.toNat + E.linkBase.toNat)
    (hhi : hi = lo + E.sizeOfModule.toNat) :
    Keeps (Logs (Between lo hi)) (E.mapHeaders B.logged) := by
  unfold ElfFile.mapHeaders
  split
  · exact .throw _
  · next hsize =>
    rw [not_or, Nat.not_lt] at hsize
    have hmodule := E.sizeOfModule.isLt
    refine (Pe.yields_safeAdd _ _).keeps_bind fun headerAddress hheader => ?_
    have hheader' : headerAddress.toNat = B.address.toNat + E.linkBase.toNat := hheader.2
    exact .bind (Pe.keeps_onFile _) fun _ => Pe.keeps_copyData (by omega) (by omega) (by omega)

/-- What is counted is written inside the module. -/
theorem ElfFile.Counted.writesInside {E : ElfFile} (hc : E.Counted) (address : Value)
    (pageSize : Nat) : E.WritesInside address pageSize := by
  intro φ σ file out
  refine .ite (.throw _) (.ite (.throw _) (.ite (.throw _) ?_))
  refine .bind (E.keeps_mapHeaders rfl rfl) fun _ =>
    .bind (keeps_mapSegments fun h hmem hload hsize => ?_) fun _ => .pure ()
  obtain ⟨hlow, hhigh⟩ := ElfFile.counted_inside hmem hload (hc h hmem hload) hsize
  dsimp only
  omega

end Inside

end Diana.Elf
