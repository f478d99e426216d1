import Diana.Orthia.Basic

/-!
# Readers over a region

`CMemoryCache` and `CReaderOverVector` serve reads from a block of bytes that stands for a region of
memory. The ends of the request and of the region wrap at `2^64`: a request that ends past the top
of the address space is copied as if it were short, and a region that ends there has an end of zero
and gives nothing.

* `cache_exact_iff`, `vector_exact_iff`: when a reader gives the part of the request
  that lies in its region.
-/

namespace Diana.Orthia

/-- A region of memory and its bytes. -/
structure Region where
  address : Nat
  data : List Byte
  address_lt : address < 2 ^ 64
  fits : address + data.length ≤ 2 ^ 64

/-- What a read leaves: the bytes behind `pBuffer`, or `none` where `memcpy` runs past the source,
and `*pBytesRead`. -/
structure Answer where
  copied : Option (List Byte)
  bytesRead : Nat

/-- `memcpy` of `size` bytes from `data + skip` -/
def copyBytes (data : List Byte) (skip size : Nat) : Option (List Byte) :=
  if skip + size ≤ data.length then some ((data.drop skip).take size) else none

/-- Nothing is copied. -/
def nothingRead : Answer := ⟨some [], 0⟩

def ORTHIA_MR_FLAG_READ_ABSOLUTE : Nat := 2

namespace Region

variable (r : Region)

/-- `CMemoryCache::Read` over the reader `pReader`; a region of size zero is one that `Init`
was not called for. -/
def cacheRead (pReader : Nat → Nat → Nat → Answer) (offset bytesToRead flags : Nat) : Answer :=
  if flags &&& ORTHIA_MR_FLAG_READ_ABSOLUTE ≠ 0 then
    pReader offset bytesToRead flags
  else
    -- it gets relative addresses
    let offset := add64 offset r.address
    if r.data.length = 0 then
      pReader offset bytesToRead flags
    else
      let last := add64 offset bytesToRead
      if offset < r.address then
        nothingRead
      else
        let regionEnd := add64 r.address r.data.length
        if offset ≥ regionEnd then
          nothingRead
        else if last < regionEnd then
          ⟨copyBytes r.data (offset - r.address) bytesToRead, bytesToRead⟩
        else
          let skipSize := sub64 offset r.address
          let sizeToRead := sub64 r.data.length skipSize
          ⟨copyBytes r.data skipSize sizeToRead, sizeToRead⟩

/-- `CReaderOverVector::Read` -/
def vectorRead (offset bytesToRead : Nat) : Answer :=
  let last := add64 offset bytesToRead
  let regionEndAddress := add64 r.address r.data.length
  if offset < r.address ∨ offset ≥ regionEndAddress ∨ r.data.isEmpty then
    nothingRead
  else
    let bytesToRead := if last > regionEndAddress then
        sub64 bytesToRead (sub64 last regionEndAddress) else bytesToRead
    ⟨copyBytes r.data (offset - r.address) bytesToRead, bytesToRead⟩

/-- The bytes of the region at `[offset, offset + size)`, where the request starts in the region. -/
def part (offset size : Nat) : List Byte :=
  if r.address ≤ offset then (r.data.drop (offset - r.address)).take size else []

end Region

/-- The read gives these bytes and their number. -/
def Gives (a : Answer) (bytes : List Byte) :
    Prop := a.copied = some bytes ∧ a.bytesRead = bytes.length

section

variable {r : Region} {data : List Byte} {offset skip size bytesToRead flags : Nat}

theorem gives_nothingRead_iff {bytes : List Byte} : Gives nothingRead bytes ↔ bytes = [] := by
  constructor
  · rintro ⟨h, -⟩
    exact (Option.some.inj h).symm
  · rintro rfl
    exact ⟨rfl, rfl⟩

/-- Of the bytes behind `skip`, a copy gives the first `wanted` if it asks for as many as there
are. -/
theorem gives_copyBytes_iff {wanted : Nat} (h : skip ≤ data.length) :
    Gives ⟨copyBytes data skip size, size⟩ ((data.drop skip).take wanted) ↔ size = min wanted
    (data.length - skip) := by
  have hlength : ((data.drop skip).take wanted).length = min wanted (data.length - skip) := by
    rw [List.length_take, List.length_drop]
  constructor
  · rintro ⟨-, hsize⟩
    rw [← hlength]
    exact hsize
  · intro hsize
    refine ⟨?_, hsize.trans hlength.symm⟩
    unfold copyBytes
    rw [if_pos (by omega), Option.some_inj, List.take_eq_take_iff, List.length_drop]
    omega

namespace Region

theorem part_length : (r.part offset size).length =
    if r.address ≤ offset then min size (r.address + r.data.length - offset) else 0 := by
  unfold part
  by_cases h : r.address ≤ offset
  · rw [if_pos h, if_pos h, List.length_take, List.length_drop]
    omega
  · rw [if_neg h, if_neg h, List.length_nil]

theorem part_eq_nil_iff :
    r.part offset size = [] ↔ offset < r.address ∨ r.address + r.data.length ≤ offset ∨
    size = 0 := by
  rw [← List.length_eq_zero_iff, part_length]
  split <;> omega

/-! ### The cache -/

/-- When a read of the cache at a relative address is right: the request starts behind the
region, or neither it nor the region reaches the top of the address space. The cache of no
region hands the request on. -/
def CacheInRange (r : Region) (pReader : Nat → Nat → Nat → Answer)
    (offset bytesToRead flags : Nat) : Prop :=
  if r.data.length = 0 then Gives (pReader (add64 offset r.address) bytesToRead flags) []
  else r.data.length ≤ offset ∨
    (r.address + r.data.length < 2 ^ 64 ∧ r.address + offset + bytesToRead < 2 ^ 64) ∨
    (r.address + r.data.length = 2 ^ 64 ∧ bytesToRead = 0)

variable {pReader : Nat → Nat → Nat → Answer}

/-- Behind the region, the address is out of it, also where it wraps. -/
theorem cacheRead_behind (hflags : flags &&& ORTHIA_MR_FLAG_READ_ABSOLUTE = 0)
    (hoffset : offset < 2 ^ 64) (hsome : r.data.length ≠ 0) (hbehind : r.data.length ≤ offset) :
    r.cacheRead pReader offset bytesToRead flags = nothingRead := by
  have hfits := r.fits
  have haddress := r.address_lt
  unfold cacheRead
  rw [if_neg (not_not_intro hflags)]
  dsimp only
  rw [if_neg hsome]
  by_cases hlow : add64 offset r.address < r.address
  · rw [if_pos hlow]
  · rw [if_neg hlow, if_pos]
    unfold add64 at hlow ⊢
    omega

/-- A region that ends at the top has an end of zero. -/
theorem cacheRead_top (hflags : flags &&& ORTHIA_MR_FLAG_READ_ABSOLUTE = 0)
    (hsome : r.data.length ≠ 0) (htop : r.address + r.data.length = 2 ^ 64) :
    r.cacheRead pReader offset bytesToRead flags = nothingRead := by
  unfold cacheRead
  rw [if_neg (not_not_intro hflags)]
  dsimp only
  rw [if_neg hsome, show add64 r.address r.data.length = 0 by unfold add64; rw [htop, Nat.mod_self],
    if_pos (Nat.zero_le _), ite_self]

/-- In the region the read asks `memcpy` for the whole request where its end wraps. -/
theorem cacheRead_inside (hflags : flags &&& ORTHIA_MR_FLAG_READ_ABSOLUTE = 0)
    (hsize : bytesToRead < 2 ^ 64) (hin : offset < r.data.length)
    (hlow : r.address + r.data.length < 2 ^ 64) :
    ∃ size, r.cacheRead pReader offset bytesToRead flags = ⟨copyBytes r.data offset size, size⟩ ∧
      size = if r.address + offset + bytesToRead < 2 ^ 64 then min bytesToRead
      (r.data.length - offset)
        else bytesToRead := by
  have hstart : add64 offset r.address = offset + r.address := add64_of_lt (by omega)
  have hend : add64 r.address r.data.length = r.address + r.data.length := add64_of_lt hlow
  unfold cacheRead
  rw [if_neg (not_not_intro hflags)]
  dsimp only
  rw [if_neg (by omega), hstart, hend, if_neg (by omega), if_neg (by omega), Nat.add_sub_cancel]
  by_cases hlast : add64 (offset + r.address) bytesToRead < r.address + r.data.length
  · rw [if_pos hlast]
    refine ⟨_, rfl, ?_⟩
    unfold add64 at hlast
    split <;> omega
  · rw [if_neg hlast, sub64_of_le (by omega) (by omega), Nat.add_sub_cancel,
      sub64_of_le (by omega) (by omega)]
    refine ⟨_, rfl, ?_⟩
    unfold add64 at hlast
    split <;> omega

theorem cache_exact_iff (hflags : flags &&& ORTHIA_MR_FLAG_READ_ABSOLUTE = 0)
    (hoffset : offset < 2 ^ 64) (hsize : bytesToRead < 2 ^ 64) :
    Gives (r.cacheRead pReader offset bytesToRead flags) ((r.data.drop offset).take bytesToRead) ↔
      CacheInRange r pReader offset bytesToRead flags := by
  unfold CacheInRange
  by_cases hsome : r.data.length = 0
  · rw [if_pos hsome, List.length_eq_zero_iff.1 hsome, List.drop_nil, List.take_nil]
    unfold cacheRead
    rw [if_neg (not_not_intro hflags)]
    dsimp only
    rw [if_pos hsome]
  rw [if_neg hsome]
  have hfits := r.fits
  by_cases hbehind : r.data.length ≤ offset
  · rw [cacheRead_behind hflags hoffset hsome hbehind, gives_nothingRead_iff,
      List.drop_of_length_le hbehind, List.take_nil]
    exact iff_of_true rfl (Or.inl hbehind)
  rw [Nat.not_le] at hbehind
  rcases Nat.lt_or_eq_of_le hfits with hlow | htop
  · obtain ⟨size, hread, rfl⟩ := @cacheRead_inside _ _ _ _ pReader hflags hsize hbehind hlow
    rw [hread, gives_copyBytes_iff (Nat.le_of_lt hbehind)]
    split <;> omega
  · rw [cacheRead_top hflags hsome htop, gives_nothingRead_iff, ← List.length_eq_zero_iff,
      List.length_take, List.length_drop]
    omega

/-! ### The vector -/

/-- When a read of the vector is right. -/
def VectorInRange (r : Region) (offset bytesToRead : Nat) : Prop :=
  offset < r.address ∨ r.address + r.data.length ≤ offset ∨
    (r.address + r.data.length < 2 ^ 64 ∧ offset + bytesToRead < 2 ^ 64) ∨
    (r.address + r.data.length = 2 ^ 64 ∧ bytesToRead = 0)

theorem vectorRead_outside (houtside : offset < r.address ∨ r.address + r.data.length ≤ offset) :
    r.vectorRead offset bytesToRead = nothingRead := by
  unfold vectorRead
  dsimp only
  refine if_pos (houtside.imp_right fun h => Or.inl (Nat.le_trans ?_ h))
  exact Nat.mod_le _ _

theorem vectorRead_top (htop : r.address + r.data.length = 2 ^ 64) :
    r.vectorRead offset bytesToRead = nothingRead := by
  unfold vectorRead
  dsimp only
  refine if_pos (Or.inr (Or.inl ?_))
  rw [show add64 r.address r.data.length = 0 by unfold add64; rw [htop, Nat.mod_self]]
  exact Nat.zero_le _

theorem vectorRead_inside (hsize : bytesToRead < 2 ^ 64) (hstart : r.address ≤ offset)
    (hin : offset < r.address + r.data.length) (hlow : r.address + r.data.length < 2 ^ 64) :
    ∃ size, r.vectorRead offset bytesToRead = ⟨copyBytes r.data (offset - r.address) size, size⟩ ∧
      size = if offset + bytesToRead < 2 ^ 64 then min bytesToRead
      (r.data.length - (offset - r.address))
        else bytesToRead := by
  have hsome : r.data.isEmpty = false := by
    rw [List.isEmpty_eq_false_iff, ← List.length_pos_iff]
    omega
  unfold vectorRead
  dsimp only
  rw [add64_of_lt hlow, if_neg (by rw [hsome]; simp; omega)]
  refine ⟨_, rfl, ?_⟩
  unfold sub64 add64
  split <;> split <;> omega

theorem vector_exact_iff (hsize : bytesToRead < 2 ^ 64) :
    Gives (r.vectorRead offset bytesToRead)
    (r.part offset bytesToRead) ↔ VectorInRange r offset bytesToRead := by
  have hfits := r.fits
  unfold VectorInRange
  by_cases houtside : offset < r.address ∨ r.address + r.data.length ≤ offset
  · rw [vectorRead_outside houtside, gives_nothingRead_iff, part_eq_nil_iff]
    exact iff_of_true (houtside.imp_right Or.inl) (houtside.imp_right Or.inl)
  rw [not_or, Nat.not_lt, Nat.not_le] at houtside
  rcases Nat.lt_or_eq_of_le hfits with hlow | htop
  · obtain ⟨size, hread, rfl⟩ := vectorRead_inside hsize houtside.1 houtside.2 hlow
    unfold part
    rw [hread, if_pos houtside.1, gives_copyBytes_iff (by omega)]
    split <;> omega
  · rw [vectorRead_top htop, gives_nothingRead_iff, part_eq_nil_iff]
    omega

end Region

/-- A read gives what its region holds of the request in these cases and no other. -/
theorem regionReaders_iff (r : Region) (pReader : Nat → Nat → Nat → Answer)
    (offset bytesToRead flags : Nat) (hflags : flags &&& ORTHIA_MR_FLAG_READ_ABSOLUTE = 0)
    (hoffset : offset < 2 ^ 64) (hsize : bytesToRead < 2 ^ 64) :
    (Gives (r.cacheRead pReader offset bytesToRead flags) ((r.data.drop offset).take bytesToRead) ↔
        r.CacheInRange pReader offset bytesToRead flags) ∧
      (Gives (r.vectorRead offset bytesToRead) (r.part offset bytesToRead) ↔
        r.VectorInRange offset bytesToRead) :=
  ⟨Region.cache_exact_iff hflags hoffset hsize, Region.vector_exact_iff hsize⟩

end

/-- Two bytes at `0x1000`. -/
def lowRegion : Region := ⟨0x1000, [0x11#8, 0x22#8], by decide, by decide⟩

/-- Two bytes at the top of the address space. -/
def topRegion : Region := ⟨2 ^ 64 - 2, [0x11#8, 0x22#8], by decide, by decide⟩

theorem regionReaders_iff_low :
    (1 &&& ORTHIA_MR_FLAG_READ_ABSOLUTE = 0 ∧ 1 < 2 ^ 64 ∧ 5 < 2 ^ 64) ∧
      (Gives (lowRegion.cacheRead (fun _ _ _ => nothingRead) 1 5 1)
        ((lowRegion.data.drop 1).take 5) ↔
          lowRegion.CacheInRange (fun _ _ _ => nothingRead) 1 5 1) ∧
        (Gives (lowRegion.vectorRead 1 5) (lowRegion.part 1 5) ↔ lowRegion.VectorInRange 1 5) :=
  ⟨by decide, regionReaders_iff lowRegion (fun _ _ _ => nothingRead) 1 5 1 (by decide) (by decide)
    (by decide)⟩

/-- The last byte of the address space is not read, and a request that ends past the top
runs out of the region. -/
theorem not_regionReaders :
    ¬ Gives (topRegion.cacheRead (fun _ _ _ => nothingRead) 1 1 0)
    ((topRegion.data.drop 1).take 1) ∧
      ¬ Gives (topRegion.vectorRead (2 ^ 64 - 1) 1) (topRegion.part (2 ^ 64 - 1) 1) ∧
        (lowRegion.cacheRead (fun _ _ _ => nothingRead) 1 (2 ^ 64 - 0x1001) 0).copied = none ∧
          (lowRegion.vectorRead 0x1001 (2 ^ 64 - 1)).copied = none := by
  refine ⟨?_, ?_, by decide, by decide⟩
  · rintro ⟨h, -⟩
    revert h
    decide
  · rintro ⟨h, -⟩
    revert h
    decide

end Diana.Orthia
