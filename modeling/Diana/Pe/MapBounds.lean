import Diana.Pe.MapTrace

/-!
# Where a mapped file is written

A mapping writes whatever the headers and the relocations of a file ask for. A section or a target
that does not fit is then written behind the module.

* `WalksTo`: the blocks of relocations that are gone through;
* `Inside`: the sections that are mapped, the targets and `ImageBase` lie in the module;
* `writesInside_iff`: a file is mapped inside its module exactly then.
-/

namespace Diana.Pe

open Diana.Lib

/-! ## Sections that fit -/

theorem dataSize_le (avail n pageSize : Nat) : dataSize avail n pageSize ≤ n := by
  unfold dataSize
  split
  · exact le_rfl
  · exact (Nat.div_mul_le_self avail pageSize).trans (by omega)

theorem SectionHeader.writtenSize_le (h : SectionHeader) (address : Value)
    (sizeOfModule fileSize pageSize : Nat) :
    h.writtenSize address sizeOfModule fileSize pageSize ≤ h.mappedSize := by
  unfold writtenSize
  split
  · exact Nat.zero_le _
  · split
    · exact le_rfl
    · exact (dataSize_le _ _ _).trans h.copiedSize_le

/-- What is written for the section ends in the module. -/
def SectionHeader.Fits (h : SectionHeader) (address : Value)
    (sizeOfModule fileSize pageSize : Nat) : Prop :=
  h.writtenSize address sizeOfModule fileSize pageSize = 0 ∨
    h.virtualAddress.toNat + h.writtenSize address sizeOfModule fileSize pageSize ≤ sizeOfModule

/-- The sections that the mapping gets to fit. -/
def SectionsFit (address : Value) (sizeOfModule fileSize pageSize : Nat) : List SectionHeader → Prop
  | [] => True
  | h :: rest => h.Fits address sizeOfModule fileSize pageSize ∧
      (h.Passes address sizeOfModule fileSize →
        SectionsFit address sizeOfModule fileSize pageSize rest)

section

variable {file : List Byte} {address : Value} {pageSize M : Nat} {s : Logged}

theorem acts_mapSections (hpage : 0 < pageSize) (l : List SectionHeader) :
    ∃ ws, ((∀ w ∈ ws, Between address.toNat (address.toNat + M) w) ↔
        SectionsFit address M file.length pageSize l) ∧
      Acts ((traced file address pageSize).mapSections M l) s
        (∀ h ∈ l, h.Passes address M file.length)
        (l.foldl (fun m h => h.mapInto file address m) s.out.1) ws := by
  induction l generalizing s with
  | nil => exact ⟨[], iff_of_true nofun trivial, .pure nofun⟩
  | cons h l ih =>
    obtain ⟨ws, hfills, hturn⟩ := acts_mapSection (M := M) (h := h) (s := s) hpage
    have hinside : (∀ w ∈ ws, Between address.toNat (address.toNat + M) w) ↔
        h.Fits address M file.length pageSize := by
      rw [hfills.between_iff (Nat.le_add_right _ _), Nat.add_assoc, Nat.add_le_add_iff_left]
      exact Iff.rfl
    unfold MapArgs.mapSections SectionsFit
    by_cases hpasses : h.Passes address M file.length
    · obtain ⟨ws', hinside', hboth⟩ := hturn.bind hpasses fun t ht => ht ▸ ih (s := t)
      refine ⟨ws ++ ws', ?_, hboth.congr ?_ fun _ => rfl⟩
      · rw [List.forall_mem_append, hinside, hinside']
        exact and_congr_right fun _ => ⟨fun hrest _ => hrest, fun hrest => hrest hpasses⟩
      · rw [List.forall_mem_cons]
        exact (and_iff_right hpasses).symm
    · refine ⟨ws, ?_, hturn.bind_of_not hpasses fun hall => hpasses (hall h List.mem_cons_self)⟩
      rw [hinside]
      exact (and_iff_left fun h => absurd h hpasses).symm

end

/-! ## The walk over the relocations -/

/-- The sub entries of the block at an offset of the directory. -/
def entriesAt (relocs : List Byte) (o : Nat) : List (BitVec 16) :=
  subEntriesAt relocs o (subEntriesCount (sizeOfBlockAt relocs o))

/-- There is a block at the offset, and it lies in the directory. -/
def IsBlock (relocs : List Byte) (o : Nat) : Prop :=
  o + headerSize < relocs.length ∧ sizeOfBlockAt relocs o ≤ relocs.length - o

/-- The walk gets to an offset of the directory: every block before it is accepted, and none of its
addresses overflows. -/
inductive WalksTo (address : Value) (relocs : List Byte) : Nat → Prop where
  | start : WalksTo address relocs 0
  | next {o : Nat} : WalksTo address relocs o → IsBlock relocs o →
      (∀ e ∈ entriesAt relocs o, Addressable address (virtualAddressAt relocs o) e) →
      WalksTo address relocs (o + 2 * (sizeOfBlockAt relocs o / 2))

/-- The targets that are changed for the block at an offset. -/
def targetsAt (address : Value) (relocs : List Byte) (o : Nat) : List Target :=
  reachedTargets address (virtualAddressAt relocs o) (entriesAt relocs o)

/-- The targets that the walk gets to lie in the module. -/
def TargetsFit (address : Value) (relocs : List Byte) (sizeOfModule : Nat) : Prop :=
  ∀ o, WalksTo address relocs o → IsBlock relocs o →
    ∀ t ∈ targetsAt address relocs o, t.rva + t.kind.width ≤ sizeOfModule

/-- The walk gets to the end of the directory. -/
def WalkEnds (address : Value) (relocs : List Byte) : Prop :=
  ∃ o, WalksTo address relocs o ∧ relocs.length ≤ o + headerSize

section

variable {address diff : Value} {relocs : List Byte} {o : Nat}
  {s t : (Value → Byte) × List (Value × Nat)}

/-- The turn of the walk at a block. -/
theorem blockTurn_traced (hblock : IsBlock relocs o) :
    ∃ t, t.2 = s.2 ++ (targetsAt address relocs o).map (Target.write address) ∧
      ((∀ e ∈ entriesAt relocs o, Addressable address (virtualAddressAt relocs o) e) ∧
          blockTurn tracedMemory address diff relocs (o, s) =
            .inl (o + 2 * (sizeOfBlockAt relocs o / 2), t) ∨
        (¬ ∀ e ∈ entriesAt relocs o, Addressable address (virtualAddressAt relocs o) e) ∧
          ∃ e, blockTurn tracedMemory address diff relocs (o, s) = .inr (.error e, t)) := by
  obtain ⟨t, htrace, hrun⟩ := processRelocationEntry_traced (s := s) (entriesAt relocs o)
  have hnext := headerSize_add_subEntriesCount (sizeOfBlockAt_lt relocs o)
  refine ⟨t, htrace, ?_⟩
  unfold blockTurn
  dsimp only
  rw [if_pos hblock.1, if_neg (Nat.not_lt.2 hblock.2)]
  rcases hrun with ⟨hall, hok⟩ | ⟨hno, e, herror⟩
  · refine .inl ⟨hall, ?_⟩
    unfold entriesAt at hok
    rw [hok]
    dsimp only
    congr 2
    omega
  · refine .inr ⟨hno, e, ?_⟩
    unfold entriesAt at herror
    rw [herror]

theorem blockTurn_end (h : relocs.length ≤ o + headerSize) :
    blockTurn tracedMemory address diff relocs (o, s) = .inr (.ok (), s) := if_neg (Nat.not_lt.2 h)

/-- Elsewhere the walk ends without a change. -/
theorem blockTurn_of_not (h : ¬ IsBlock relocs o) :
    blockTurn tracedMemory address diff relocs (o, s) = .inr (.ok (), s) ∧
    relocs.length ≤ o + headerSize ∨
      blockTurn tracedMemory address diff relocs (o, s) = .inr (.error .error, s) := by
  by_cases hend : relocs.length ≤ o + headerSize
  · exact .inl ⟨blockTurn_end hend, hend⟩
  · right
    unfold blockTurn
    dsimp only
    rw [if_pos (Nat.lt_of_not_le hend), if_pos]
    exact Nat.lt_of_not_le fun hle => h ⟨Nat.lt_of_not_le hend, hle⟩

/-- The walk of the code gets where `WalksTo` says. -/
theorem exists_reached (h : WalksTo address relocs o) :
    ∃ t, Reached (blockTurn tracedMemory address diff relocs) (0, s) (o, t) := by
  induction h with
  | start => exact ⟨s, .refl _ _⟩
  | next _ hblock hall ih =>
    obtain ⟨t, ht⟩ := ih
    obtain ⟨u, -, ⟨-, hturn⟩ | ⟨hno, -⟩⟩ :=
      blockTurn_traced (s := t) hblock
    · exact ⟨u, ht.next hturn⟩
    · exact absurd hall hno

/-- The writes of a trace lie in the module. -/
def Stays (address : Value) (sizeOfModule : Nat) (log : List (Value × Nat)) : Prop :=
  ∀ w ∈ log, Between address.toNat (address.toNat + sizeOfModule) w

theorem stays_append {M : Nat} {log log' : List (Value × Nat)} :
    Stays address M (log ++ log') ↔ Stays address M log ∧ Stays address M log' :=
  List.forall_mem_append

/-- A target that is reached has an address. -/
theorem addressable_of_mem {va : BitVec 32} {l : List (BitVec 16)} {t : Target}
    (h : t ∈ reachedTargets address va l) : address.toNat + t.rva < 2 ^ 64 := by
  obtain ⟨e, he, htarget⟩ := List.mem_filterMap.1 h
  have haddress : Addressable address va e :=
    of_decide_eq_true (List.all_eq_true.1 List.all_takeWhile e he)
  unfold targetOf at htarget
  split at htarget
  · cases htarget
  · obtain ⟨kind, -, rfl⟩ := Option.map_eq_some_iff.1 htarget
    exact haddress

/-- The writes for a block lie in the module, exactly if its targets do. -/
theorem stays_targets {M : Nat} :
    Stays address M ((targetsAt address relocs o).map (Target.write address)) ↔
      ∀ t ∈ targetsAt address relocs o, t.rva + t.kind.width ≤ M := by
  unfold Stays
  rw [List.forall_mem_map]
  refine forall₂_congr fun t ht => ?_
  have hspace := addressable_of_mem ht
  have hrva : (address + BitVec.ofNat 64 t.rva).toNat = address.toNat + t.rva :=
    toNat_advance (n := t.rva) hspace le_rfl
  unfold Between Target.write
  rw [hrva]
  dsimp only
  omega

variable {M : Nat}

/-- Where the targets fit, the walk keeps to the module. -/
theorem walksTo_of_reached (hfit : TargetsFit address relocs M) (hs : Stays address M s.2)
    (h : Reached (blockTurn tracedMemory address diff relocs) (0, s) (o, t)) :
    WalksTo address relocs o ∧ Stays address M t.2 := by
  obtain ⟨n, hn⟩ := h
  refine runFrom_inv (P := fun p => WalksTo address relocs p.1 ∧ Stays address M p.2.2) ?_
    ⟨.start, hs⟩ hn
  rintro - ⟨o, t⟩ ⟨o', t'⟩ ⟨hwalk, ht⟩ hturn
  by_cases hblock : IsBlock relocs o
  · obtain ⟨u, hu, ⟨hall, hturn'⟩ | ⟨-, e, hturn'⟩⟩ :=
      blockTurn_traced (s := t) hblock
    · rw [hturn'] at hturn
      cases hturn
      refine ⟨.next hwalk hblock hall, ?_⟩
      rw [hu, stays_append]
      exact ⟨ht, stays_targets.2 (hfit o hwalk hblock)⟩
    · rw [hturn'] at hturn
      cases hturn
  · rcases blockTurn_of_not (s := t) hblock with ⟨hend, -⟩ | hend
    all_goals
      rw [hend] at hturn
      cases hturn

/-- All of the walk stays in the module, and it succeeds at the end of the directory only. -/
theorem stays_runFrom (hfit : TargetsFit address relocs M) (hs : Stays address M s.2) (fuel : Nat) :
    Stays address M
        (Turned.trace (runFrom (fun _ => blockTurn tracedMemory address diff relocs) 0
          fuel (0, s))) ∧
      ∀ t, runFrom (fun _ => blockTurn tracedMemory address diff relocs) 0 fuel (0, s) = .inr
      (.ok (), t) →
        WalkEnds address relocs := by
  rcases hrun : runFrom (fun _ => blockTurn tracedMemory address diff relocs) 0 fuel (0,
    s) with ⟨o, t⟩ | ⟨r, t⟩
  · exact ⟨(walksTo_of_reached hfit hs ⟨fuel, hrun⟩).2, nofun⟩
  · obtain ⟨m, ⟨o, u⟩, -, hm, hturn⟩ := exists_last hrun
    obtain ⟨hwalk, hu⟩ := walksTo_of_reached hfit hs ⟨m, hm⟩
    by_cases hblock : IsBlock relocs o
    · obtain ⟨v, hv, ⟨-, hturn'⟩ | ⟨-, e, hturn'⟩⟩ :=
        blockTurn_traced (s := u) hblock
      · rw [hturn'] at hturn
        cases hturn
      · rw [hturn'] at hturn
        cases hturn
        refine ⟨?_, nofun⟩
        change Stays address M t.2
        rw [hv, stays_append]
        exact ⟨hu, stays_targets.2 (hfit o hwalk hblock)⟩
    · rcases blockTurn_of_not (s := u) hblock with ⟨hturn', hend⟩ | hturn'
      · rw [hturn'] at hturn
        cases hturn
        exact ⟨hu, fun _ _ => ⟨o, hwalk, hend⟩⟩
      · rw [hturn'] at hturn
        cases hturn
        exact ⟨hu, nofun⟩

variable (s) in
/-- A block that the walk gets to is relocated by some walk, which does not end there. -/
theorem exists_runFrom_block (hwalk : WalksTo address relocs o) (hblock : IsBlock relocs o) :
    ∃ fuel, (targetsAt address relocs o).map (Target.write address) ⊆
        Turned.trace
        (runFrom (fun _ => blockTurn tracedMemory address diff relocs) 0 fuel (0, s)) := by
  obtain ⟨t, n, hn⟩ := exists_reached (s := s) hwalk
  obtain ⟨u, hu, hturn⟩ := blockTurn_traced (s := t) hblock
  refine ⟨n + 1, ?_⟩
  rw [runFrom_succ hn]
  rcases hturn with ⟨-, hturn⟩ | ⟨-, e, hturn⟩
  all_goals
    rw [hturn]
    change _ ⊆ u.2
    rw [hu]
    exact List.subset_append_right _ _

variable (s) in
theorem exists_runFrom_end (h : WalkEnds address relocs) :
    ∃ fuel t, runFrom (fun _ => blockTurn tracedMemory address diff relocs) 0 fuel (0, s) = .inr
    (.ok (), t) := by
  obtain ⟨o, hwalk, hend⟩ := h
  obtain ⟨t, n, hn⟩ := exists_reached (s := s) hwalk
  exact ⟨n + 1, t, (runFrom_succ hn).trans (blockTurn_end hend)⟩

end

/-! ## The relocation -/

/-- There are relocations to make. -/
def PeFile.Relocates (pe : PeFile) (address : Value) : Prop :=
  pe.relocationDirectory.size ≠ 0 ∧ pe.relocationDirectory.virtualAddress ≠ 0 ∧
    address - pe.imageBase ≠ 0

/-- The relocation directory in a memory. -/
def PeFile.relocations (pe : PeFile) (address : Value) (m : Value → Byte) : List Byte :=
  load m (address + pe.relocationDirectory.virtualAddress.setWidth 64)
    pe.relocationDirectory.size.toNat

/-- `ImageBase` in the mapped headers lies in the module. -/
def PatchFits (pe : PeFile) : Prop :=
  (MapArgs.imageBaseOffset pe).toNat + pe.dianaMode.size ≤ pe.sizeOfModule

/-- What the relocation of a memory changes lies in the module. -/
structure RelocationFits (pe : PeFile) (address : Value) (m : Value → Byte) : Prop where
  unused : ¬ pe.Relocates address → PatchFits pe
  targets : pe.Relocates address → pe.relocationDirectory.size.toNat ≤ maxSafeAllocSize →
    TargetsFit address (pe.relocations address m) pe.sizeOfModule
  patch : pe.Relocates address → pe.relocationDirectory.size.toNat ≤ maxSafeAllocSize →
    WalkEnds address (pe.relocations address m) → PatchFits pe

section

variable {file : List Byte} {address : Value} {pageSize : Nat} {pe : PeFile} {s : Logged}

theorem captureRelocs_unused (h : ¬ pe.Relocates address) :
    captureRelocs tracedMemory true pe.relocationDirectory pe.imageBase address s.out =
    .ok none := by
  unfold captureRelocs
  by_cases hdir : pe.relocationDirectory.size = 0 ∨ pe.relocationDirectory.virtualAddress = 0
  · exact if_pos hdir
  · rw [if_neg hdir]
    refine if_pos ?_
    rw [not_or] at hdir
    by_contra hdiff
    exact h ⟨hdir.1, hdir.2, hdiff⟩

theorem captureRelocs_large (h : pe.Relocates address)
    (hsize : maxSafeAllocSize < pe.relocationDirectory.size.toNat) :
    captureRelocs tracedMemory true pe.relocationDirectory pe.imageBase address s.out =
      .error .invalidInput := by
  unfold captureRelocs
  rw [if_neg (by rw [not_or]; exact ⟨h.1, h.2.1⟩), if_neg h.2.2, if_pos hsize]

theorem captureRelocs_traced (h : pe.Relocates address)
    (hsize : pe.relocationDirectory.size.toNat ≤ maxSafeAllocSize) :
    captureRelocs tracedMemory true pe.relocationDirectory pe.imageBase address s.out =
      .ok (some (pe.relocations address s.out.1)) := by
  unfold captureRelocs
  rw [if_neg (by rw [not_or]; exact ⟨h.1, h.2.1⟩), if_neg h.2.2, if_neg (Nat.not_lt.2 hsize),
    if_neg nofun]
  exact if_pos (length_load _ _ _)

/-- The last write of a relocation. -/
def patchOf (pe : PeFile) (address : Value) : Value × Nat :=
  (address + (MapArgs.imageBaseOffset pe).setWidth 64, pe.dianaMode.size)

theorem relocate_traced (fuel : Nat) :
    Logged.trace (after ((traced file address pageSize).relocate pe true fuel) s) =
      match (traced file address pageSize).relocateBlocks pe true fuel s with
      | .ok _ t => t.out.2 ++ [patchOf pe address]
      | .error _ t => t.out.2 := by
  unfold MapArgs.relocate
  cases hrun : (traced file address pageSize).relocateBlocks pe true fuel s with
  | ok a t =>
    rw [after_of_ok ((bind_of_ok hrun).trans traced_write)]
    dsimp only [Logged.trace, Logged.wrote, patchOf]
    rw [length_leBytes]
    rfl
  | error e t =>
    rw [after_of_error (bind_of_error hrun)]

/-- `ImageBase` is written in the module, exactly if it lies there. -/
theorem between_patchOf (hspace : address.toNat + pe.sizeOfModule < 2 ^ 64) :
    Between address.toNat (address.toNat + pe.sizeOfModule)
    (patchOf pe address) ↔ PatchFits pe := by
  have haddress := address.isLt
  have hoffset := (MapArgs.imageBaseOffset pe).isLt
  unfold Between patchOf PatchFits
  dsimp only
  rw [BitVec.toNat_add, BitVec.toNat_setWidth_of_le (by decide)]
  omega

theorem stays_patch {log : List (Value × Nat)} (hspace : address.toNat + pe.sizeOfModule < 2 ^ 64) :
    Stays address pe.sizeOfModule (log ++ [patchOf pe address]) ↔
      Stays address pe.sizeOfModule log ∧ PatchFits pe := by
  rw [stays_append, ← between_patchOf hspace]
  exact and_congr_right fun _ => List.forall_mem_singleton

/-- The writes of the walk, and of `ImageBase` if it succeeds. -/
def walkTrace (pe : PeFile) (address : Value) : Turned → List (Value × Nat)
  | .inl p => p.2.2
  | .inr (.error _, t) => t.2
  | .inr (.ok (), t) => t.2 ++ [patchOf pe address]

/-- The writes of a relocation whose directory is captured. -/
theorem relocate_walk {fuel : Nat} {r : Turned} (hused : pe.Relocates address)
    (hsize : pe.relocationDirectory.size.toNat ≤ maxSafeAllocSize)
    (hrun : runFrom (fun _ => blockTurn tracedMemory address (address - pe.imageBase)
      (pe.relocations address s.out.1)) 0 fuel (0, s.out) = r) :
    Logged.trace (after ((traced file address pageSize).relocate pe true fuel) s) =
    walkTrace pe address r := by
  have hblocks := relocateBlocks_of_some (A := traced file address pageSize) (s := s) fuel
    (captureRelocs_traced hused hsize)
  rw [relocate_traced, hblocks]
  change (match endOfWalk s
    (runFrom (fun _ => blockTurn tracedMemory address (address - pe.imageBase)
    (pe.relocations address s.out.1)) 0 fuel (0, s.out)) with
      | .ok _ t => t.out.2 ++ [patchOf pe address]
      | .error _ t => t.out.2) = _
  rw [hrun]
  rcases r with ⟨o, t⟩ | ⟨e | _, t⟩ <;> rfl

/-- The writes of the walk are among them. -/
theorem trace_subset_relocate {fuel : Nat} {r : Turned} (hused : pe.Relocates address)
    (hsize : pe.relocationDirectory.size.toNat ≤ maxSafeAllocSize)
    (hrun : runFrom (fun _ => blockTurn tracedMemory address (address - pe.imageBase)
      (pe.relocations address s.out.1)) 0 fuel (0, s.out) = r) :
    Turned.trace r ⊆ Logged.trace
    (after ((traced file address pageSize).relocate pe true fuel) s) := by
  rw [relocate_walk hused hsize hrun]
  rcases r with ⟨o, t⟩ | ⟨e | _, t⟩
  · exact List.Subset.refl _
  · exact List.Subset.refl _
  · exact List.subset_append_left _ _

/-- A relocation that fits stays in the module. -/
theorem RelocationFits.stays (hfits : RelocationFits pe address s.out.1)
    (hspace : address.toNat + pe.sizeOfModule < 2 ^ 64) (hs : Stays address pe.sizeOfModule s.out.2)
    (fuel : Nat) :
    Stays address pe.sizeOfModule
      (Logged.trace (after ((traced file address pageSize).relocate pe true fuel) s)) := by
  by_cases hused : pe.Relocates address
  · rcases Nat.lt_or_ge maxSafeAllocSize pe.relocationDirectory.size.toNat with hsize | hsize
    · rw [relocate_traced, relocateBlocks_of_error (captureRelocs_large hused hsize)]
      exact hs
    · obtain ⟨hstays, hend⟩ := stays_runFrom (hfits.targets hused hsize) hs fuel
      rcases hrun : runFrom (fun _ => blockTurn tracedMemory address (address - pe.imageBase)
        (pe.relocations address s.out.1)) 0 fuel (0, s.out) with ⟨o, t⟩ | ⟨e | _, t⟩
      all_goals
        rw [relocate_walk hused hsize hrun]
        rw [hrun] at hstays
      · exact hstays
      · exact hstays
      · exact (stays_patch hspace).2 ⟨hstays, hfits.patch hused hsize (hend t hrun)⟩
  · rw [relocate_traced, relocateBlocks_of_none (captureRelocs_unused hused)]
    exact (stays_patch hspace).2 ⟨hs, hfits.unused hused⟩

/-- A relocation stays in the module, however far it is followed, exactly if it fits. -/
theorem relocate_stays_iff (hspace : address.toNat + pe.sizeOfModule < 2 ^ 64)
    (hs : Stays address pe.sizeOfModule s.out.2) :
    (∀ fuel, Stays address pe.sizeOfModule
        (Logged.trace (after ((traced file address pageSize).relocate pe true fuel) s))) ↔
      RelocationFits pe address s.out.1 := by
  refine ⟨fun hall => ?_, fun hfits fuel => hfits.stays hspace hs fuel⟩
  constructor
  · intro hunused
    have h := hall 0
    rw [relocate_traced, relocateBlocks_of_none (captureRelocs_unused hunused)] at h
    exact ((stays_patch hspace).1 h).2
  · intro hused hsize o hwalk hblock
    obtain ⟨fuel, hsubset⟩ := exists_runFrom_block s.out hwalk hblock
    exact stays_targets.1 fun w hw =>
      hall fuel w (trace_subset_relocate hused hsize rfl (hsubset hw))
  · intro hused hsize hend
    obtain ⟨fuel, t, hrun⟩ := exists_runFrom_end s.out hend
    have h := hall fuel
    rw [relocate_walk hused hsize hrun] at h
    exact ((stays_patch hspace).1 h).2

end

/-! ## All of it -/

/-- The mapping gets to its first write. -/
def Enters (pe : PeFile) (address : Value) (pageSize : Nat) : Prop :=
  pe.fileMode = true ∧ pe.sizeOfHeaders ≠ 0 ∧ pe.sizeOfHeaders.toNat ≤ pe.sizeOfModule ∧
    8 ≤ pageSize ∧ address.toNat + pe.sizeOfHeaders.toNat < 2 ^ 64

/-- The headers and the sections of the file, in a memory. -/
def PeFile.mapInto (pe : PeFile) (file : List Byte) (address : Value) (m : Value → Byte) :
    Value → Byte :=
  pe.capturedSections.foldl (fun m h => h.mapInto file address m)
    (store m address (file.take pe.sizeOfHeaders.toNat))

/-- What is written lies in the module: where the mapping starts and the file has its headers, the
sections fit, and so does the relocation behind them. -/
def Inside (file : List Byte) (pe : PeFile) (address : Value) (pageSize : Nat)
    (doNotRelocate : Bool) (m : Value → Byte) : Prop :=
  Enters pe address pageSize → pe.sizeOfHeaders.toNat ≤ file.length →
    SectionsFit address pe.sizeOfModule file.length pageSize pe.capturedSections ∧
      ((∀ h ∈ pe.capturedSections, h.Passes address pe.sizeOfModule file.length) →
        doNotRelocate = false → RelocationFits pe address (pe.mapInto file address m))

/-- A mapping of the file to a memory `m` writes inside the module only, whatever the memory refuses
and however far the relocations are followed. -/
def WritesInside (file : List Byte) (pe : PeFile) (address : Value) (pageSize : Nat)
    (doNotRelocate : Bool) (m : Value → Byte) : Prop :=
  ∀ (ok : Value → Nat → Bool) (alloc : Bool) (fuel offset : Nat),
    Stays address pe.sizeOfModule (Logged.trace (after
      ((memoryArgs file ok address pageSize).logged.mapEx pe doNotRelocate alloc fuel)
      ⟨offset, m, []⟩))

section

variable {address : Value} {pe : PeFile} {fileSize : Nat}

/-- The module ends where one of its sections does. -/
theorem exists_last_section (h : pe.sizeOfModule ≠ 0) :
    ∃ x ∈ pe.capturedSections, pe.sizeOfModule = (x.virtualAddress + x.virtualSize).toNat := by
  have hfold : ∀ (l : List SectionHeader) (init : Nat),
      l.foldl (fun size x => max size (x.virtualAddress + x.virtualSize).toNat) init = init ∨
        ∃ x ∈ l, l.foldl (fun size x => max size (x.virtualAddress + x.virtualSize).toNat) init =
          (x.virtualAddress + x.virtualSize).toNat := by
    intro l
    induction l with
    | nil => exact fun init => .inl rfl
    | cons x l ih =>
      intro init
      rw [List.foldl_cons]
      rcases ih (max init (x.virtualAddress + x.virtualSize).toNat) with hinit | ⟨y, hy, hlast⟩
      · rw [hinit]
        rcases le_total init (x.virtualAddress + x.virtualSize).toNat with hle | hle
        · exact .inr ⟨x, List.mem_cons_self, Nat.max_eq_right hle⟩
        · exact .inl (Nat.max_eq_left hle)
      · exact .inr ⟨y, List.mem_cons_of_mem x hy, hlast⟩
  exact (hfold pe.capturedSections 0).resolve_left h

/-- Where all sections are mapped, the module fits into the address space. -/
theorem module_fit (h : pe.sizeOfModule ≠ 0)
    (hpasses : ∀ x ∈ pe.capturedSections, x.Passes address pe.sizeOfModule fileSize) :
    address.toNat + pe.sizeOfModule < 2 ^ 64 := by
  obtain ⟨x, hx, hlast⟩ := exists_last_section h
  have hspace := (hpasses x hx).2.2
  have hend : pe.sizeOfModule ≤ x.virtualAddress.toNat + x.virtualSize.toNat :=
    hlast.trans_le ((BitVec.toNat_add _ _).trans_le (Nat.mod_le _ _))
  have hmapped : x.virtualSize.toNat ≤ x.mappedSize := by
    unfold SectionHeader.mappedSize
    split
    · next hzero => exact hzero ▸ Nat.zero_le _
    · exact Nat.le_refl _
  omega

end

section

variable {file : List Byte} {address : Value} {pageSize : Nat} {doNotRelocate : Bool} {pe : PeFile}
  {s : Logged}

/-- What a mapping does behind the sections. -/
def mapTail (file : List Byte) (pe : PeFile) (address : Value) (pageSize : Nat)
    (doNotRelocate : Bool) (fuel : Nat) : Mapping Nat ((Value → Byte) × List (Value × Nat)) Unit :=
  if doNotRelocate then pure () else (traced file address pageSize).relocate pe true fuel

/-- A mapping that is refused writes nothing. -/
theorem mapEx_of_not_enters (h : ¬ Enters pe address pageSize) (fuel : Nat) :
    Logged.trace (after ((traced file address pageSize).mapEx pe doNotRelocate true fuel) s) =
    s.out.2 := by
  unfold MapArgs.mapEx
  by_cases hmode : pe.fileMode = true
  · rw [if_neg (not_not.2 hmode)]
    by_cases hheaders : pe.sizeOfHeaders = 0 ∨ pe.sizeOfModule < pe.sizeOfHeaders.toNat
    · rw [if_pos hheaders]
      rfl
    · rw [if_neg hheaders]
      rw [not_or, Nat.not_lt] at hheaders
      by_cases hpage : pageSize < 8
      · rw [if_pos (show (traced file address pageSize).pageSize < 8 from hpage)]
        rfl
      · rw [if_neg (show ¬ (traced file address pageSize).pageSize < 8 from hpage)]
        -- the headers do not fit below 2^64
        have hspace : 2 ^ 64 ≤ address.toNat + pe.sizeOfHeaders.toNat :=
          Nat.le_of_not_lt fun hspace =>
          h ⟨hmode, hheaders.1, hheaders.2, Nat.le_of_not_lt hpage, hspace⟩
        have hcopy : (traced file address pageSize).copyData address pe.sizeOfHeaders.toNat
            { s with file := 0 } = .error (.failed .overflow) { s with file := 0 } :=
          orFail_bind_of_error (safeAdd_of_not_fit (by
            rwa [toNat_ofNat_of_lt (by have := pe.sizeOfHeaders.isLt; omega)]))
        rw [after_of_error (e := Stop.failed .overflow) (t := { s with file := 0 })]
        exact (bind_of_ok (traced_moveTo 0)).trans (bind_of_error hcopy)
  · rw [if_pos hmode]
    rfl

/-- Otherwise it writes the headers, the sections, and what the rest does. -/
theorem mapEx_of_enters (doNotRelocate : Bool) (h : Enters pe address pageSize) (fuel : Nat) :
    (traced file address pageSize).mapEx pe doNotRelocate true fuel s =
      ((traced file address pageSize).copyData address pe.sizeOfHeaders.toNat >>= fun _ =>
        (traced file address pageSize).mapSections pe.sizeOfModule pe.capturedSections >>= fun _ =>
          mapTail file pe address pageSize doNotRelocate fuel) { s with file := 0 } := by
  obtain ⟨hmode, hheaders, hmodule, hpage, -⟩ := h
  unfold MapArgs.mapEx
  rw [if_neg (not_not.2 hmode), if_neg (by rw [not_or, Nat.not_lt]; exact ⟨hheaders, hmodule⟩),
    if_neg (show ¬ (traced file address pageSize).pageSize < 8 from Nat.not_lt.2 hpage)]
  exact bind_of_ok (traced_moveTo 0)

theorem mapTail_grows (fuel : Nat) :
    s.out.2 <+: Logged.trace (after (mapTail file pe address pageSize doNotRelocate fuel) s) := by
  have hcuts : Cuts Logged.trace (mapTail file pe address pageSize doNotRelocate fuel)
      (mapTail file pe address pageSize doNotRelocate fuel) :=
    .ite (.pure ()) (.bind (cuts_relocateBlocks pe true fuel) fun _ =>
      cuts_onOut cuts_writeExact)
  exact (hcuts s).1

/-- The rest stays in the module, exactly if everything before did and the relocation fits. -/
theorem stays_mapTail_iff (hspace : address.toNat + pe.sizeOfModule < 2 ^ 64) :
    (∀ fuel, Stays address pe.sizeOfModule
        (Logged.trace (after (mapTail file pe address pageSize doNotRelocate fuel) s))) ↔
      Stays address pe.sizeOfModule s.out.2 ∧
        (doNotRelocate = false → RelocationFits pe address s.out.1) := by
  by_cases hs : Stays address pe.sizeOfModule s.out.2
  · rw [and_iff_right hs]
    cases doNotRelocate with
    | true => exact iff_of_true (fun _ => hs) nofun
    | false =>
      rw [forall_prop_of_true rfl]
      exact relocate_stays_iff hspace hs
  · exact iff_of_false (fun h => hs fun w hw => h 0 w ((mapTail_grows 0).subset hw)) fun h => hs h.1

variable {m : Value → Byte}

/-- The headers are written in the module, as far as they are in the file. -/
theorem mapEx_headers (h : Enters pe address pageSize) :
    ∃ t : Logged, Stays address pe.sizeOfModule t.out.2 ∧
      (pe.sizeOfHeaders.toNat ≤ file.length ∧
          (traced file address pageSize).copyData address pe.sizeOfHeaders.toNat ⟨0, m,
            []⟩ = .ok () t ∧
          t.out.1 = store m address (file.take pe.sizeOfHeaders.toNat) ∨
        ¬ pe.sizeOfHeaders.toNat ≤ file.length ∧ ∃ e,
          (traced file address pageSize).copyData address pe.sizeOfHeaders.toNat ⟨0, m, []⟩ =
          .error e t) := by
  obtain ⟨-, -, hmodule, hpage, hspace⟩ := h
  obtain ⟨ws, hfills, t, ht, hrun⟩ :=
    acts_copyData (a := address) (n := pe.sizeOfHeaders.toNat) (s := ⟨0, m, []⟩)
      (show 0 < pageSize by omega) hspace
  refine ⟨t, ?_, hrun⟩
  rw [ht]
  exact (hfills.between_iff le_rfl).2
    (.inr (Nat.add_le_add_left ((dataSize_le _ _ _).trans hmodule) _))

/-- Where the mapping of the sections ends: the rest is done there, or nothing more. -/
theorem mapEx_sections (h : Enters pe address pageSize)
    (hdata : pe.sizeOfHeaders.toNat ≤ file.length) (doNotRelocate : Bool) (offset : Nat) :
    ∃ u : Logged, (Stays address pe.sizeOfModule u.out.2 ↔
        SectionsFit address pe.sizeOfModule file.length pageSize pe.capturedSections) ∧
      ((∀ x ∈ pe.capturedSections, x.Passes address pe.sizeOfModule file.length) ∧
          u.out.1 = pe.mapInto file address m ∧ (∀ fuel,
            after ((traced file address pageSize).mapEx pe doNotRelocate true fuel)
            ⟨offset, m, []⟩ =
              after (mapTail file pe address pageSize doNotRelocate fuel) u) ∨
        (¬ ∀ x ∈ pe.capturedSections, x.Passes address pe.sizeOfModule file.length) ∧ ∀ fuel,
          after ((traced file address pageSize).mapEx pe doNotRelocate true fuel) ⟨offset, m,
            []⟩ = u) := by
  obtain ⟨t, ht, ⟨-, hcopy, hmem⟩ | ⟨hno, -⟩⟩ := mapEx_headers (m := m) h
  swap
  · exact absurd hdata hno
  have hpage := h.2.2.2.1
  obtain ⟨ws, hinside, u, hu, hsections⟩ :=
    acts_mapSections (M := pe.sizeOfModule) (s := t) (show 0 < pageSize by omega)
      pe.capturedSections
  refine ⟨u, ?_, hsections.imp (fun hok => ⟨hok.1, ?_, fun fuel => ?_⟩) fun hfail => ⟨hfail.1,
    fun fuel => ?_⟩⟩
  · rw [hu, stays_append]
    exact (and_iff_right ht).trans hinside
  · rw [hok.2.2, hmem]
    rfl
  · have hrun :=
      (mapEx_of_enters (s := ⟨offset, m, []⟩) doNotRelocate h fuel).trans
        ((bind_of_ok hcopy).trans (bind_of_ok hok.2.1))
    unfold after
    rw [hrun]
  · obtain ⟨e, hmap⟩ := hfail.2
    exact after_of_error ((mapEx_of_enters doNotRelocate h fuel).trans
      ((bind_of_ok hcopy).trans (bind_of_error hmap)))

/-- In a memory that takes every access, a mapping stays in the module exactly if `Inside`. -/
theorem traced_stays_iff (doNotRelocate : Bool) (offset : Nat) :
    (∀ fuel, Stays address pe.sizeOfModule (Logged.trace (after
        ((traced file address pageSize).mapEx pe doNotRelocate true fuel) ⟨offset, m, []⟩))) ↔
      Inside file pe address pageSize doNotRelocate m := by
  by_cases henters : Enters pe address pageSize
  swap
  · refine iff_of_true (fun fuel => ?_) fun h => absurd h henters
    rw [mapEx_of_not_enters henters]
    exact nofun
  by_cases hdata : pe.sizeOfHeaders.toNat ≤ file.length
  swap
  · -- the headers are not in the file
    obtain ⟨t, ht, ⟨hyes, -⟩ | ⟨-, e, hcopy⟩⟩ := mapEx_headers (m := m) henters
    · exact absurd hyes hdata
    · refine iff_of_true (fun fuel => ?_) fun _ h => absurd h hdata
      rw [after_of_error ((mapEx_of_enters doNotRelocate henters fuel).trans (bind_of_error hcopy))]
      exact ht
  have hmodule : pe.sizeOfModule ≠ 0 := by
    intro hzero
    have hle := henters.2.2.1
    rw [hzero] at hle
    exact henters.2.1 (BitVec.eq_of_toNat_eq (Nat.le_zero.1 hle))
  obtain ⟨u, hlog, ⟨hall, himage, hrun⟩ | ⟨hno, hrun⟩⟩ :=
    mapEx_sections (m := m) henters hdata doNotRelocate offset
  · simp only [hrun]
    rw [stays_mapTail_iff (module_fit hmodule hall), hlog, himage]
    exact ⟨fun h _ _ => ⟨h.1, fun _ => h.2⟩,
      fun h => ⟨(h henters hdata).1, (h henters hdata).2 hall⟩⟩
  · -- a section is refused
    simp only [hrun]
    exact ⟨fun h _ _ => ⟨hlog.1 (h 0), fun hall => absurd hall hno⟩,
      fun h _ => hlog.2 (h henters hdata).1⟩

theorem WritesInside.inside (h : WritesInside file pe address pageSize doNotRelocate m) :
    Inside file pe address pageSize doNotRelocate m :=
  (traced_stays_iff doNotRelocate 0).1 fun fuel => h (fun _ _ => true) true fuel 0

end

/-- A file is mapped inside its module, exactly if the sections and the targets that the mapping
gets to lie there, and so does `ImageBase`. -/
theorem writesInside_iff (file : List Byte) (pe : PeFile) (address : Value) (pageSize : Nat)
    (doNotRelocate : Bool) (m : Value → Byte) :
    WritesInside file pe address pageSize doNotRelocate m ↔
      Inside file pe address pageSize doNotRelocate m := by
  constructor
  · exact WritesInside.inside
  · intro h ok alloc fuel offset w hw
    have hcuts : Cuts Logged.trace
        ((memoryArgs file ok address pageSize).logged.mapEx pe doNotRelocate alloc fuel)
        ((traced file address pageSize).mapEx pe doNotRelocate true fuel) :=
      cuts_mapEx pe doNotRelocate alloc fuel
    have hw' := (hcuts.isPrefix ⟨offset, m, []⟩).subset hw
    exact (traced_stays_iff doNotRelocate offset).2 h fuel w hw'

/-! ## Which sections fit -/

theorem le_sizeOfModule {pe : PeFile} {h : SectionHeader} (hmem : h ∈ pe.capturedSections) :
    (h.virtualAddress + h.virtualSize).toNat ≤ pe.sizeOfModule := by
  exact foldl_of_mem (P := fun size => (h.virtualAddress + h.virtualSize).toNat ≤ size) hmem
    (fun _ => Nat.le_max_right _ _) (fun _ _ hle => hle.trans (Nat.le_max_left _ _)) 0

/-- A section of the file with a `VirtualSize` fits, unless its end wraps. -/
theorem fits_of_mem {pe : PeFile} {h : SectionHeader} (address : Value) (fileSize pageSize : Nat)
    (hmem : h ∈ pe.capturedSections) (hsize : h.virtualSize ≠ 0)
    (hend : h.virtualAddress.toNat + h.virtualSize.toNat < 2 ^ 32) :
    h.Fits address pe.sizeOfModule fileSize pageSize := by
  have hmodule := le_sizeOfModule hmem
  rw [BitVec.toNat_add, Nat.mod_eq_of_lt hend] at hmodule
  have hmapped : h.mappedSize = h.virtualSize.toNat := if_neg hsize
  have hwritten := h.writtenSize_le address pe.sizeOfModule fileSize pageSize
  exact .inr (by omega)

/-- The value of a run, and its state. -/
def toOption {ε σ α : Type} : EStateM.Result ε σ α → Option (α × σ)
  | .ok a t => some (a, t)
  | .error _ _ => none

theorem eq_ok_of_toOption {ε σ α : Type} {r : EStateM.Result ε σ α} {a : α} {t : σ}
    (h : toOption r = some (a, t)) : r = .ok a t := by
  cases r with
  | ok b u =>
    cases h
    rfl
  | error e u => cases h

/-- A file of a header and one section at 0x1000, of 0x200 bytes, but with a `VirtualSize` of 0. -/
def noVirtualSize : List Byte :=
  let dosHeader := [0x4D, 0x5A] ++ List.replicate 58 0 ++ leBytes 4 64
  let ntHeaders := leBytes 4 0x4550 ++ leBytes 2 0x14C ++ leBytes 2 1 ++ List.replicate 16 0
  let optionalHeader := List.replicate 60 0 ++ leBytes 4 0x200 ++ List.replicate 160 0
  let header := List.replicate 8 0 ++ leBytes 4 0 ++ leBytes 4 0x1000 ++ leBytes 4 0x200 ++
      leBytes 4 0x200 ++
    List.replicate 16 0
  dosHeader ++ ntHeaders ++ optionalHeader ++ header ++ List.replicate 0x2A0 0

/-- The parser accepts a file that is mapped behind its module. -/
theorem not_mapped_inside : ¬ ∀ (file : List Byte) (pe : PeFile) (t : Nat),
    initPeFile (fileStream file) (BitVec.ofNat 64 file.length) true 0 = .ok pe t →
      ∀ address pageSize doNotRelocate m,
      WritesInside file pe address pageSize doNotRelocate m := by
  intro h
  have haccepted : initPeFile (fileStream noVirtualSize)
    (BitVec.ofNat 64 noVirtualSize.length) true 0 =
      .ok ⟨true, 64, .mode32, 0, 0x200, ⟨0, 0⟩, [⟨0, 0x1000, 0x200, 0x200⟩]⟩ 352 :=
    eq_ok_of_toOption (by decide +kernel)
  have hwrites := h _ _ _ haccepted 0x400000 0x1000 true fun _ => 0
  have hinside := hwrites.inside
  have henters : Enters ⟨true, 64, .mode32, 0, 0x200, ⟨0, 0⟩,
      [⟨0, 0x1000, 0x200, 0x200⟩]⟩ 0x400000 0x1000 :=
    ⟨rfl, by decide, by decide, by decide, by decide⟩
  have hfits := (hinside henters (by decide +kernel)).1.1
  unfold SectionHeader.Fits at hfits
  revert hfits
  decide +kernel

end Diana.Pe
