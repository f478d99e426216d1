import Diana.Orthia.Regions

/-!
# Releasing an allocation

`VmFree` looks for the page at the start of the allocation and erases the pages from there on.
Where that page is not there, because the region was only reserved and then written to further
up, nothing is erased.
-/

namespace Diana.Orthia

open Diana.Lib

/-- The region `[address, address + size)` after its release: no page starts in it, the other pages
are as they were, and the allocation is not listed. -/
structure Released {ps : PageSize} (s s' : VmStorage ps) (address size : Nat) : Prop where
  inside : ∀ k, address ≤ k → k < address + size → s'.storage.pages.find k = none
  outside : ∀ k, ¬ (address ≤ k ∧ k < address + size) →
    s'.storage.pages.find k = s.storage.pages.find k
  listed : s'.allocations.find address = none

section

variable {ps : PageSize} {s : VmStorage ps} {offsetHint : Nat} {info : Allocation}

theorem find_erasePages_inside {s : Storage ps} {offset size k : Nat} (h1 : offset ≤ k)
    (h2 : k < offset + size) : (s.erasePages offset size).pages.find k = none := by
  refine Option.not_isSome_iff_eq_none.1 fun h => ?_
  have := (Storage.isSome_erasePages.1 h).2
  omega

theorem find_erasePages_outside {s : Storage ps} {offset size k : Nat}
    (h : ¬ (offset ≤ k ∧ k < offset + size)) :
    (s.erasePages offset size).pages.find k = s.pages.find k :=
  OrdMap.find_keep _ (decide_eq_true (by omega))

theorem vmFree_storage (h : s.allocations.find (allocOffset offsetHint) = some info) :
    (s.vmFree offsetHint true).2.storage =
      if (s.storage.pages.find (allocOffset offsetHint)).isSome then s.storage.erasePages
      (allocOffset offsetHint) info.size else s.storage := by
  unfold VmStorage.vmFree
  dsimp only
  rw [h]
  rfl

theorem vmFree_allocations (h : s.allocations.find (allocOffset offsetHint) = some info) :
    (s.vmFree offsetHint true).2.allocations = s.allocations.erase (allocOffset offsetHint) := by
  unfold VmStorage.vmFree
  dsimp only
  rw [h]
  rfl

/-- The pages go with the allocation if there is one at its start, or none at all. -/
theorem vmFree_released_iff (h : s.allocations.find (allocOffset offsetHint) = some info) :
    Released s (s.vmFree offsetHint true).2 (allocOffset offsetHint) info.size ↔
      (s.storage.pages.find (allocOffset offsetHint)).isSome ∨
        ∀ k, allocOffset offsetHint ≤ k → k < allocOffset offsetHint + info.size →
        s.storage.pages.find k = none := by
  have hlisted : (s.vmFree offsetHint true).2.allocations.find (allocOffset offsetHint) = none := by
    rw [vmFree_allocations h]
    exact OrdMap.find_keep_none _ (by simp)
  by_cases hpage : (s.storage.pages.find (allocOffset offsetHint)).isSome
  · have hstorage := vmFree_storage h
    rw [if_pos hpage] at hstorage
    refine iff_of_true ⟨fun k h1 h2 => ?_, fun k hk => ?_, hlisted⟩ (.inl hpage)
    · rw [hstorage]
      exact find_erasePages_inside h1 h2
    · rw [hstorage]
      exact find_erasePages_outside hk
  · have hstorage := vmFree_storage h
    rw [if_neg hpage] at hstorage
    constructor
    · intro hr
      refine .inr fun k h1 h2 => ?_
      rw [← hstorage]
      exact hr.inside k h1 h2
    · rintro (hp | hnone)
      · exact absurd hp hpage
      · refine ⟨fun k h1 h2 => ?_, fun k _ => by rw [hstorage], hlisted⟩
        rw [hstorage]
        exact hnone k h1 h2

end

/-! ### A reserved region -/

/-- A region of two blocks at `0x10000` that is only reserved. -/
def twoBlocks : VmStorage page16 :=
  ((VmStorage.empty page16).vmAlloc freeSpace 0x10000 0x2000 false).2

/-- A write into the region, to the start of a block. -/
def reservedWritten (block : Nat) : VmStorage page16 :=
  { twoBlocks with storage := (twoBlocks.storage.write (readerOverVector 0 []) true block [1]).1 }

theorem reservedWritten_find (block : Nat) :
    (reservedWritten block).allocations.find (allocOffset 0x10000) = some ⟨0x2000, true⟩ := by
  rfl

/-- The first block of the region has been written to. -/
theorem vmFree_released_written :
    Released (reservedWritten 0x10000) ((reservedWritten 0x10000).vmFree 0x10000 true).2
    (allocOffset 0x10000) 0x2000 ↔
      ((reservedWritten 0x10000).storage.pages.find (allocOffset 0x10000)).isSome ∨
        ∀ k, allocOffset 0x10000 ≤ k → k < allocOffset 0x10000 + 0x2000 →
          (reservedWritten 0x10000).storage.pages.find k = none :=
  vmFree_released_iff (reservedWritten_find 0x10000)

/-- Only the second block has been written to. -/
theorem not_released :
    ¬ ∀ (ps : PageSize) (s : VmStorage ps) (offsetHint : Nat) (info : Allocation),
    s.allocations.find (allocOffset offsetHint) = some info →
      Released s (s.vmFree offsetHint true).2 (allocOffset offsetHint) info.size := by
  intro h
  have hr := h _ (reservedWritten 0x11000) 0x10000 _ (reservedWritten_find 0x11000)
  have hnone := hr.inside 0x11000 (by decide) (by decide)
  have hkept : (((reservedWritten 0x11000).vmFree 0x10000 true).2.storage.pages.find
      0x11000).isSome = true := by
    decide +kernel
  rw [hnone] at hkept
  cases hkept

end Diana.Orthia
