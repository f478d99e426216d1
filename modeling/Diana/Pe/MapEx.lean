import Diana.Pe.PeFile
import Diana.Pe.ProcAddress
import Diana.Lib.FlatMemory

/-!
# Mapping a PE file

`DianaPeFile_MapEx`: the headers and the sections of a file are copied to the addresses where they
belong, what a section has no data for is cleared, and the image is relocated.

* `mapEx`: the mapping, on any streams;
* `RandomStream.logged`: a stream that keeps where it is written; `memoryStream`: one over a memory;
* `keeps_copyData`, `yields_memsetData`: where a range that is copied or cleared is written.
-/

namespace Diana.Pe

open Diana.Lib

variable {φ σ : Type}

/-- The file that is read and the image that is written. -/
structure MapState (φ σ : Type) where
  file : φ
  out : σ

/-- A running function on both; it stops with a status, or where its loops are not followed
further. -/
abbrev Mapping (φ σ : Type) := EStateM Stop (MapState φ σ)

def onFile {α : Type} (x : Source φ α) : Mapping φ σ α := fun s =>
  match x s.file with
  | .ok a t => .ok a { s with file := t }
  | .error e t => .error (.failed e) { s with file := t }

def onOut {α : Type} (x : Run σ α) : Mapping φ σ α := fun s =>
  match x s.out with
  | .ok a t => .ok a { s with out := t }
  | .error e t => .error (.failed e) { s with out := t }

/-- What a mapping works with. -/
structure MapArgs (φ σ : Type) where
  file : SourceStream φ
  out : RandomStream σ
  address : Value
  pageSize : Nat

namespace MapArgs

variable (A : MapArgs φ σ)

/-- The loop of `DianaStreams_CopyData`, with `fuel` for every byte. -/
def copyLoop : (fuel : Nat) → (addressToWrite : Value) → (sizeToTransfer : Nat) → Mapping φ σ Unit
  | 0, _, _ => pure ()
  | fuel + 1, addressToWrite, sizeToTransfer =>
    if sizeToTransfer = 0 then pure ()
    else do
      let sizeToUse := min A.pageSize sizeToTransfer
      let page ← onFile (exactRead A.file sizeToUse .error)
      onOut (writeExact A.out addressToWrite page)
      copyLoop fuel (addressToWrite + BitVec.ofNat 64 sizeToUse) (sizeToTransfer - sizeToUse)

/-- `DianaStreams_CopyData` -/
def copyData (address : Value) (size : Nat) : Mapping φ σ Unit := do
  let _ ← orFail (safeAdd address (BitVec.ofNat 64 size))
  A.copyLoop size address size

/-- The loop of `DianaStreams_MemsetData`. -/
def memsetLoop : (fuel : Nat) → (addressToWrite : Value) → (sizeToTransfer : Nat) → Mapping φ σ Unit
  | 0, _, _ => pure ()
  | fuel + 1, addressToWrite, sizeToTransfer =>
    if sizeToTransfer = 0 then pure ()
    else do
      let sizeToUse := min A.pageSize sizeToTransfer
      onOut (writeExact A.out addressToWrite (List.replicate sizeToUse 0))
      memsetLoop fuel (addressToWrite + BitVec.ofNat 64 sizeToUse) (sizeToTransfer - sizeToUse)

/-- `DianaStreams_MemsetData` of zeros. -/
def memsetData (address : Value) (size : Nat) : Mapping φ σ Unit := do
  let _ ← orFail (safeAdd address (BitVec.ofNat 64 size))
  A.memsetLoop size address size

end MapArgs

/-! ## Sections -/

/-- `virtualSize` as the loop uses it. -/
def SectionHeader.mappedSize (h : SectionHeader) : Nat :=
  if h.virtualSize = 0 then h.sizeOfRawData.toNat else h.virtualSize.toNat

/-- `sizeOfRawData` as the loop uses it. -/
def SectionHeader.copiedSize (h : SectionHeader) : Nat :=
  if h.pointerToRawData = 0 then 0 else min h.sizeOfRawData.toNat h.mappedSize

theorem SectionHeader.mappedSize_lt (h : SectionHeader) : h.mappedSize < 2 ^ 32 := by
  unfold mappedSize
  split
  · exact h.sizeOfRawData.isLt
  · exact h.virtualSize.isLt

theorem SectionHeader.copiedSize_le (h : SectionHeader) : h.copiedSize ≤ h.mappedSize := by
  unfold copiedSize
  split
  · exact Nat.zero_le _
  · exact Nat.min_le_right _ _

/-- The section is refused. -/
def SectionHeader.Refused (h : SectionHeader) (sizeOfModule : Nat) : Prop :=
  sizeOfModule < h.sizeOfRawData.toNat ∨ sizeOfModule < h.pointerToRawData.toNat

instance (h : SectionHeader) (sizeOfModule : Nat) : Decidable (h.Refused sizeOfModule) :=
  inferInstanceAs (Decidable (_ ∨ _))

namespace MapArgs

variable (A : MapArgs φ σ)

/-- The data of a section. -/
def copySection (h : SectionHeader) (sectionVA : Value) : Mapping φ σ Unit :=
  if h.copiedSize ≠ 0 then do
    onFile (moveTo A.file (h.pointerToRawData.setWidth 64))
    A.copyData sectionVA h.copiedSize
  else pure ()

/-- What the section has no data for. -/
def clearSection (h : SectionHeader) (sectionVAEnd : Value) : Mapping φ σ Unit :=
  if h.copiedSize < h.mappedSize then A.memsetData sectionVAEnd (h.mappedSize - h.copiedSize)
    else pure ()

/-- A turn of the loop over the sections. -/
def mapSection (sizeOfModule : Nat) (h : SectionHeader) : Mapping φ σ Unit :=
  if h.Refused sizeOfModule then throw (.failed .error)
  else do
    let sectionVA ← orFail (safeAdd (h.virtualAddress.setWidth 64) A.address)
    let sectionVAEnd ← orFail (safeAdd sectionVA (BitVec.ofNat 64 h.copiedSize))
    A.copySection h sectionVA
    A.clearSection h sectionVAEnd

def mapSections (sizeOfModule : Nat) : List SectionHeader → Mapping φ σ Unit
  | [] => pure ()
  | h :: rest => do
    A.mapSection sizeOfModule h
    mapSections sizeOfModule rest

/-! ## The mapping -/

/-- `DianaPeFile_FixRelocs`, followed for at most `fuel` blocks. -/
def relocateBlocks (pe : PeFile) (alloc : Bool) (fuel : Nat) : Mapping φ σ Unit := fun s =>
  match captureRelocs A.out alloc pe.relocationDirectory pe.imageBase A.address s.out with
  | .error e => .error (.failed e) s
  | .ok none => .ok () s
  | .ok (some relocs) =>
    match runFrom (fun _ => blockTurn A.out A.address (A.address - pe.imageBase) relocs) 0 fuel
      (0, s.out) with
    | .inl (_, t) => .error .outOfFuel { s with out := t }
    | .inr (.error e, t) => .error (.failed e) { s with out := t }
    | .inr (.ok (), t) => .ok () { s with out := t }

/-- `imageBaseOffset` -/
def imageBaseOffset (pe : PeFile) : BitVec 32 :=
  pe.eLfanew + BitVec.ofNat 32 (sizeOfNtHeaders + pe.dianaMode.imageBaseOffset)

/-- `DianaPeFile_Relocate` -/
def relocate (pe : PeFile) (alloc : Bool) (fuel : Nat) : Mapping φ σ Unit := do
  A.relocateBlocks pe alloc fuel
  onOut (writeExact A.out (A.address + (imageBaseOffset pe).setWidth 64)
    (leBytes pe.dianaMode.size A.address.toNat))

/-- `DianaPeFile_MapEx`; `doNotRelocate` is `DIANA_PE_MAP_DO_NOT_RELOCATE`. -/
def mapEx (pe : PeFile) (doNotRelocate alloc : Bool) (fuel : Nat) : Mapping φ σ Unit :=
  if ¬ pe.fileMode then throw (.failed .invalidInput)
  else if pe.sizeOfHeaders = 0 ∨ pe.sizeOfModule < pe.sizeOfHeaders.toNat then
    throw (.failed .error)
  else if A.pageSize < 8 then throw (.failed .error)
  else do
    onFile (moveTo A.file 0)
    A.copyData A.address pe.sizeOfHeaders.toNat
    A.mapSections pe.sizeOfModule pe.capturedSections
    if doNotRelocate then pure () else A.relocate pe alloc fuel

end MapArgs

/-! ## Writes -/

/-- The stream, with a trace of where it is written and how much. -/
def RandomStream.logged (S : RandomStream σ) : RandomStream (σ × List (Value × Nat)) where
  read s address size := S.read s.1 address size
  write s address bs :=
    let (r, t) := S.write s.1 address bs
    (r, t, s.2 ++ [(address, bs.length)])

/-- Writes of `P` are added. -/
def Logs (P : Value × Nat → Prop) (s t : MapState φ (σ × List (Value × Nat))) :
    Prop := Adds P s.out.2 t.out.2

/-- The write lies in `[lo, hi)`. -/
def Between (lo hi : Nat) (w : Value × Nat) : Prop := lo ≤ w.1.toNat ∧ w.1.toNat + w.2 ≤ hi

section Keeps

variable {P : Value × Nat → Prop} {A : MapArgs φ (σ × List (Value × Nat))} {S : RandomStream σ}
  {lo hi : Nat}

instance : @Std.Refl (MapState φ (σ × List (Value × Nat))) (Logs P) :=
  ⟨fun s => refl_of (Adds P) s.out.2⟩

instance : IsTrans (MapState φ (σ × List (Value × Nat))) (Logs P) :=
  ⟨fun _ _ _ h h' => trans_of (Adds P) h h'⟩

theorem post_onOut {α : Type} {x : Run σ α} {s : MapState φ σ} {Q : α → MapState φ σ → Prop}
    {E : Stop → MapState φ σ → Prop} : Post (onOut x) s Q E ↔
      Post x s.out (fun a t => Q a { s with out := t }) fun e t => E (.failed e)
      { s with out := t } := by
  unfold Post onOut
  dsimp only
  cases x s.out <;> exact Iff.rfl

theorem post_onFile {α : Type} {x : Source φ α} {s : MapState φ σ} {Q : α → MapState φ σ → Prop}
    {E : Stop → MapState φ σ → Prop} : Post (onFile x) s Q E ↔
      Post x s.file (fun a t => Q a { s with file := t }) fun e t => E (.failed e)
      { s with file := t } := by
  unfold Post onFile
  dsimp only
  cases x s.file <;> exact Iff.rfl

theorem keeps_onFile {α : Type} (x : Source φ α) :
    Keeps (Logs P) (onFile x : Mapping φ (σ × List (Value × Nat)) α) := by
  intro s
  rw [post_onFile]
  unfold Post
  cases x s.file <;> exact refl_of (Adds P) s.out.2

theorem yields_exactRead (F : SourceStream φ) (n : Nat) (e : Status) :
    Yields (Logs P) (fun bs => bs.length = n)
      (onFile (exactRead F n e) : Mapping φ (σ × List (Value × Nat)) (List Byte)) := by
  intro s
  rw [post_onFile]
  obtain ⟨r, t, hread⟩ : ∃ r t, F.read s.file n = (r, t) := ⟨_, _, rfl⟩
  unfold Post
  rw [exactRead_apply hread]
  cases r with
  | error e => exact refl_of (Adds P) s.out.2
  | ok bs =>
    by_cases hlength : bs.length = n
    · simp only [if_pos hlength]
      exact ⟨hlength, refl_of (Adds P) s.out.2⟩
    · simp only [if_neg hlength]
      exact refl_of (Adds P) s.out.2

/-- A write, by what the stream makes of it. -/
theorem writeExact_apply {S : RandomStream σ} {s t : σ} {a : Value} {bs : List Byte}
    {r : Except Status Nat} (h : S.write s a bs = (r, t)) : writeExact S a bs s =
      match r with
      | .error e => .error e t
      | .ok wrote => if wrote = bs.length then .ok () t else .error .error t := by
  unfold writeExact
  simp only [get_bind, h, set_bind]
  cases r with
  | error e => rfl
  | ok wrote =>
    dsimp only
    split <;> rfl

theorem keeps_writeExact {a : Value} {bs : List Byte} (h : P (a, bs.length)) :
    Keeps (Logs P)
    (onOut (writeExact S.logged a bs) : Mapping φ (σ × List (Value × Nat)) Unit) := by
  intro s
  obtain ⟨r, t, hwrite⟩ : ∃ r t, S.write s.out.1 a bs = (r, t) := ⟨_, _, rfl⟩
  have hlogged : S.logged.write s.out a bs = (r, t, s.out.2 ++ [(a, bs.length)]) :=
    congrArg (fun p : Except Status Nat × σ => (p.1, p.2, s.out.2 ++ [(a, bs.length)])) hwrite
  have hadds : Adds P s.out.2 (s.out.2 ++ [(a, bs.length)]) :=
    ⟨_, rfl, fun _ hw => List.mem_singleton.1 hw ▸ h⟩
  rw [post_onOut]
  unfold Post
  rw [writeExact_apply hlogged]
  cases r with
  | error e => exact hadds
  | ok wrote =>
    by_cases hwrote : wrote = bs.length
    · simp only [if_pos hwrote]
      exact hadds
    · simp only [if_neg hwrote]
      exact hadds

variable {B : MapArgs φ σ}

/-- The arguments, with a stream that keeps its writes. -/
def MapArgs.logged (B : MapArgs φ σ) :
    MapArgs φ (σ × List (Value × Nat)) := { B with out := B.out.logged }

theorem between_chunk {a : Value} {n k : Nat} (hlo : lo ≤ a.toNat) (hhi : a.toNat + n ≤ hi)
    (hk : k ≤ n) {bs : List Byte} (hbs : bs.length = k) : Between lo hi (a, bs.length) := by
  subst hbs
  exact ⟨hlo, by dsimp only; omega⟩

theorem toNat_advance {a : Value} {n k : Nat} (hfit : a.toNat + n < 2 ^ 64) (hk : k ≤ n) :
    (a + BitVec.ofNat 64 k).toNat = a.toNat + k := by
  rw [BitVec.toNat_add, BitVec.toNat_ofNat]
  omega

theorem keeps_copyLoop {a : Value} {n : Nat} (fuel : Nat) (hlo : lo ≤ a.toNat)
    (hhi : a.toNat + n ≤ hi) (hfit : a.toNat + n < 2 ^ 64) :
    Keeps (Logs (Between lo hi)) (B.logged.copyLoop fuel a n) := by
  induction fuel generalizing a n with
  | zero => exact .pure ()
  | succ fuel ih =>
    unfold MapArgs.copyLoop
    refine .ite (.pure ()) ?_
    have hk : min B.logged.pageSize n ≤ n := Nat.min_le_right _ _
    have hnext := toNat_advance hfit hk
    refine (yields_exactRead _ _ _).keeps_bind fun page hpage => ?_
    refine .bind (keeps_writeExact (between_chunk hlo hhi hk hpage)) fun _ => ?_
    exact ih (by omega) (by omega) (by omega)

theorem keeps_memsetLoop {a : Value} {n : Nat} (fuel : Nat) (hlo : lo ≤ a.toNat)
    (hhi : a.toNat + n ≤ hi) (hfit : a.toNat + n < 2 ^ 64) :
    Keeps (Logs (Between lo hi)) (B.logged.memsetLoop fuel a n) := by
  induction fuel generalizing a n with
  | zero => exact .pure ()
  | succ fuel ih =>
    unfold MapArgs.memsetLoop
    refine .ite (.pure ()) ?_
    have hk : min B.logged.pageSize n ≤ n := Nat.min_le_right _ _
    have hnext := toNat_advance hfit hk
    refine .bind (keeps_writeExact (between_chunk hlo hhi hk List.length_replicate)) fun _ => ?_
    exact ih (by omega) (by omega) (by omega)

theorem yields_safeAdd (a b : Value) :
    Yields (Logs P) (fun c => a.toNat + b.toNat < 2 ^ 64 ∧ c.toNat = a.toNat + b.toNat)
      (orFail (safeAdd a b) : Mapping φ (σ × List (Value × Nat)) Value) := by
  unfold safeAdd
  split
  · exact .throw _
  · next h =>
    refine .pure ?_
    have ha := a.isLt
    rw [BitVec.lt_def, BitVec.toNat_sub_of_le (BitVec.le_def.2 (Nat.le_of_lt_succ ha))] at h
    change ¬ 2 ^ 64 - 1 - a.toNat < b.toNat at h
    rw [BitVec.toNat_add]
    omega

theorem keeps_copyData {a : Value} {n : Nat} (hn : n < 2 ^ 64) (hlo : lo ≤ a.toNat)
    (hhi : a.toNat + n ≤ hi) : Keeps (Logs (Between lo hi)) (B.logged.copyData a n) := by
  refine (yields_safeAdd _ _).keeps_bind fun _ hsum => ?_
  rw [BitVec.toNat_ofNat, Nat.mod_eq_of_lt hn] at hsum
  exact keeps_copyLoop n hlo hhi hsum.1

/-- The range is only asked for where the sum does not overflow. -/
theorem yields_memsetData {a : Value} {n : Nat} (hn : n < 2 ^ 64) (hlo : lo ≤ a.toNat)
    (hhi : a.toNat + n < 2 ^ 64 → a.toNat + n ≤ hi) :
    Yields (Logs (Between lo hi)) (fun _ => a.toNat + n < 2 ^ 64) (B.logged.memsetData a n) := by
  refine (yields_safeAdd _ _).bind fun _ hsum => ?_
  rw [BitVec.toNat_ofNat, Nat.mod_eq_of_lt hn] at hsum
  intro s
  exact (keeps_memsetLoop n hlo (hhi hsum.1) hsum.1 s).mono (fun _ _ h => ⟨hsum.1, h⟩) fun _ _ h =>
    h

end Keeps

/-! ## An image in memory -/

/-- A memory; an access succeeds where `ok` says so. -/
def memoryStream (ok : Value → Nat → Bool) : RandomStream (Value → Byte) where
  read m a n := if ok a n then .ok (load m a n) else .error .error
  write m a bs := if ok a bs.length then (.ok bs.length, store m a bs) else (.error .error, m)

/-- A mapping of this file to this image. -/
abbrev memoryArgs (file : List Byte) (ok : Value → Nat → Bool) (address : Value) (pageSize : Nat) :
    MapArgs Nat (Value → Byte) := ⟨fileStream file, memoryStream ok, address, pageSize⟩

end Diana.Pe
