import Diana.Orthia.Storage

/-!
# Virtual allocations

`VmAlloc` and `VmFree` of `CMemoryStorageOfModifiedData`. A region is given by an address hint, or
chosen between the pages of the page map. The table of allocations is not looked at: what keeps a
region free is the external address space, and for a chosen region the pages of committed regions.
-/

namespace Diana.Orthia

open Diana.Lib

/-- The page size of the allocations. -/
def block : Nat := 0x1000

/-- `IAddressSpace` and what the reader reports of a region; both stay the same. -/
structure AddressSpace where
  isRegionFree : (offset size : Nat) → Bool
  /-- what `IsRegionFree` stores as the start of a new region, zero where it stores nothing -/
  startOfNewRegion : (offset size : Nat) → Nat
  /-- the reader reports the region as one range without data, or nothing -/
  noData : (offset size : Nat) → Bool
  maxValidPointer : Nat
  start_lt : ∀ offset size, startOfNewRegion offset size < 2 ^ 64
  max_lt : maxValidPointer < 2 ^ 64

/-- `AllocationInfo` -/
structure Allocation where
  size : Nat
  released : Bool
  deriving DecidableEq

/-- A storage with its allocations. -/
structure VmStorage (ps : PageSize) where
  storage : Storage ps
  allocations : OrdMap Nat Allocation
  lastSuccessEnd : Nat

def VmStorage.empty (ps : PageSize) : VmStorage ps := ⟨.empty ps false, .empty, 0⟩

/-- `GrowAlignPage` -/
@[irreducible] def growAlignPage (p : Nat) : Except Failure Nat :=
  if p % block = 0 then .ok p
  else
    let newP := add64 p (block - p % block)
    if newP < p then .error .overflow else .ok newP

/-! ## Choosing a region -/

section

variable (E : AddressSpace) (size : Nat)

/-- The loop of `ReportRegion`, up to `stop`. Every turn goes up by a block; `fuel` is more than the
number of blocks. -/
def searchRegion (stop : Nat) : (fuel p : Nat) → Except Failure (Option Nat)
  | 0, _ => .ok none
  | fuel + 1, p =>
    if p < stop then
      if E.isRegionFree p size ∧ E.noData p size then .ok (some p)
      else
        let startOfNewRegion := E.startOfNewRegion p size
        if startOfNewRegion ≠ 0 then
          match growAlignPage startOfNewRegion with
          | .error e => .error e
          | .ok newP => searchRegion stop fuel (if newP ≤ p then add64 p block else newP)
        else
          match growAlignPage (add64 p block) with
          | .error e => .error e
          | .ok p => searchRegion stop fuel p
    else .ok none

/-- `ReportRegion` -/
def reportRegion (startOffset endOffset : Nat) : Except Failure (Option Nat) :=
  match growAlignPage startOffset with
  | .error e => .error e
  | .ok p => searchRegion E size (sub64 endOffset size) (2 ^ 52 + 1) p

/-- The loop of `ChooseTheRegion` over the pages behind the one at `k`. -/
def tryGaps (ps maxEndOffset : Nat) : Nat → List (Nat × List Byte) → Except Failure (Option Nat)
  | k, [] => reportRegion E size (add64 k ps) maxEndOffset
  | k, (k', _) :: rest =>
    if size < add64 (k' - k) ps then
      match reportRegion E size (add64 k ps) k' with
      | .error e => .error e
      | .ok (some p) => .ok (some p)
      | .ok none => tryGaps ps maxEndOffset k' rest
    else tryGaps ps maxEndOffset k' rest

/-- One turn of `ChooseTheRegion`, for the pages above the start. -/
def scanPages (ps maxEndOffset startOffset : Nat) :
    List (Nat × List Byte) → Except Failure (Option Nat)
  | [] => reportRegion E size startOffset maxEndOffset
  | (k, _) :: rest =>
    if size ≤ k - startOffset then
      match reportRegion E size startOffset k with
      | .error e => .error e
      | .ok (some p) => .ok (some p)
      | .ok none => tryGaps E size ps maxEndOffset k rest
    else tryGaps E size ps maxEndOffset k rest

end

namespace VmStorage

variable {ps : PageSize} (E : AddressSpace) (s : VmStorage ps)

/-- Where `ChooseTheRegion` starts. -/
def startOffset : Nat :=
  if E.maxValidPointer - block < s.lastSuccessEnd ∨ s.lastSuccessEnd = 0 then 0x3260000
  else s.lastSuccessEnd

/-- `ChooseTheRegion`. Its second turn starts where the first one did. -/
def chooseTheRegion (size : Nat) : Except Failure (Option Nat) :=
  if E.maxValidPointer < block then .error .internalError
  else
    let maxEndOffset := E.maxValidPointer - block
    if maxEndOffset < size then .ok none
    else
      let turn := scanPages E size ps.bytes maxEndOffset (s.startOffset E)
        (s.storage.pages.upperBound (s.startOffset E))
      match turn with
      | .ok none => turn
      | r => r

end VmStorage

/-! ## Committing and releasing -/

namespace Storage

variable {ps : PageSize} (s : Storage ps)

/-- `m_pageMap.insert` of an empty page. -/
def insertPage (k : Nat) : Storage ps :=
  if (s.pages.find k).isSome then s
  else if h : ps.bytes ∣ k then s.setPage k (List.replicate ps.bytes 0) h List.length_replicate
  else s

/-- The loop that commits `size` bytes at `offset`, from `i` on. -/
def commit (offset size : Nat) : (fuel i : Nat) → Storage ps → Except Failure Unit × Storage ps
  | 0, _, s => (.ok (), s)
  | fuel + 1, i, s =>
    if i < size then
      if 2 ^ 64 ≤ i + offset then (.error .overflow, s)
      else commit offset size fuel (i + ps.bytes) (s.insertPage (i + offset))
    else (.ok (), s)

/-- The pages of a region erased. -/
def erasePages (offset size : Nat) : Storage ps :=
  { s with
    pages := s.pages.keep fun k => decide (k < offset ∨ size ≤ k - offset)
    page := by
      intro k d h
      by_cases hk : k < offset ∨ size ≤ k - offset
      · rw [OrdMap.find_keep _ (by simpa using hk)] at h
        exact s.page k d h
      · rw [OrdMap.find_keep_none _ (by simpa using hk)] at h
        cases h }

end Storage

/-- The size of an allocation: whole blocks. -/
def allocSize (size : Nat) : Nat :=
  let size := if size = 0 then block else size
  if size % block ≠ 0 then add64 (size - size % block) block else size

/-- An address without its offset in the block. -/
def allocOffset (offsetHint : Nat) : Nat := offsetHint - offsetHint % block

namespace VmStorage

variable {ps : PageSize} (E : AddressSpace) (s : VmStorage ps)

/-- `VmAlloc` from the choice of the region on. -/
def allocAt (bCommit : Bool) (offset size : Nat) :
    Except Failure (Option (Nat × Nat)) × VmStorage ps :=
  let committed := if bCommit then s.storage.commit offset size size 0 else (.ok (), s.storage)
  match committed with
  | (.error e, storage) => (.error e, { s with storage })
  | (.ok (), storage) =>
    let info := (s.allocations.find offset).getD ⟨size, false⟩
    let info := if bCommit then info else { info with released := true }
    (.ok (some (offset, size)), { s with storage, allocations := s.allocations.set offset info })

/-- `VmAlloc`: the region, and the storage after the call. -/
def vmAlloc (offsetHint size : Nat) (bCommit : Bool) :
    Except Failure (Option (Nat × Nat)) × VmStorage ps :=
  if allocOffset offsetHint ≠ 0 then
    if ¬ E.isRegionFree (allocOffset offsetHint) (allocSize size) then (.ok none, s)
    else s.allocAt bCommit (allocOffset offsetHint) (allocSize size)
  else
    match s.chooseTheRegion E (allocSize size) with
    | .error e => (.error e, s)
    | .ok none => (.ok none, s)
    | .ok (some p) => { s with lastSuccessEnd := p }.allocAt bCommit p (allocSize size)

/-- `VmFree`: the region, and the storage after the call. -/
def vmFree (offsetHint : Nat) (bRelease : Bool) : Option (Nat × Nat) × VmStorage ps :=
  let offset := allocOffset offsetHint
  match s.allocations.find offset with
  | none => (none, s)
  | some info =>
    if bRelease then
      -- the pages are erased from the one at the offset on, if there is one
      let storage :=
        if (s.storage.pages.find offset).isSome then s.storage.erasePages offset info.size
        else s.storage
      (some (offset, info.size), { s with storage, allocations := s.allocations.erase offset })
    else
      (some (offset, info.size),
        { s with allocations := s.allocations.set offset { info with released := true } })

end VmStorage

end Diana.Orthia
