import Diana.Elf.Dynamic
import Diana.Lib.Widen

/-!
# The dynamic section in place

`DianaElf_NormalizeDyn` of `diana_elf.c` makes an array of `Elf64_Dyn` of the bytes that were read,
in the same buffer. Entries of 8 bytes are widened from the last one to the first one, entries of 16
bytes are swapped where they stand.

* `normalizeDyn`: the function on the memory of the buffer;
* `entryAt`: `pDyn[i]` as the rest of the file reads it;
* `entryAt_normalizeDyn`: what it reads is the list `dynEntries`;
* `normalizeDyn_widens`: entries of 8 bytes.
-/

namespace Diana.Elf

open Diana.Lib

/-- `pDyn[i]`: the host is little-endian. -/
def entryAt (m : Nat → Byte) (i : Nat) : DynEntry :=
  let entry := window m (16 * i) 16
  ⟨rd64 entry 0 true, rd64 entry 8 true⟩

/-- A step of the first loop: both fields are read, then both are written. -/
def widenEntry (isLE : Bool) (m : Nat → Byte) (i : Nat) : Nat → Byte :=
  let tag := rd32 (window m (8 * i) 4) 0 isLE
  let value := rd32 (window m (8 * i + 4) 4) 0 isLE
  let m := overlay m (16 * i) (wr 8 (tag.signExtend 64).toNat true)
  overlay m (16 * i + 8) (wr 8 (value.setWidth 64).toNat true)

/-- The first loop with the entries below `i` left. -/
def widenEntries (isLE : Bool) : Nat → (Nat → Byte) → Nat → Byte
  | 0, m => m
  | i + 1, m => widenEntries isLE i (widenEntry isLE m i)

/-- A field of 8 bytes that is read from its place and written there. -/
def swapField (m : Nat → Byte) (offset : Nat) : Nat → Byte :=
  overlay m offset (wr 8 (rd64 (window m offset 8) 0 false).toNat true)

/-- The second loop. -/
def swapEntries (count : Nat) (m : Nat → Byte) : Nat → Byte :=
  (List.range count).foldl (fun m i => swapField (swapField m (16 * i)) (16 * i + 8)) m

/-- `DianaElf_NormalizeDyn`: the new `*pReadBytes` and the buffer. -/
def normalizeDyn (I : Ident) (readBytes : Value) (m : Nat → Byte) : Value × (Nat → Byte) :=
  if ¬ I.is64bit then
    let count := readBytes / 8
    (count * 16, widenEntries I.isLE count.toNat m)
  else if I.isLE then (readBytes, m)
  else (readBytes, swapEntries (readBytes / 16).toNat m)

theorem ofNat_rd (n : Nat) (v : BitVec (8 * n)) (xs ys : List Byte) (isLE : Bool) :
    BitVec.ofNat (8 * n) (rd n (xs ++ (wr n v.toNat isLE ++ ys)) xs.length isLE) = v := by
  have hlt : v.toNat < 256 ^ n := by
    rw [show 256 ^ n = 2 ^ (8 * n) from (Nat.pow_mul 2 8 n).symm]
    exact v.isLt
  rw [rd_wr isLE rfl hlt]
  exact BitVec.eq_of_toNat_eq (by rw [BitVec.toNat_ofNat, Nat.mod_eq_of_lt v.isLt])

/-- An entry of two fields that the host wrote. -/
theorem entryAt_of_window {m : Nat → Byte} {i : Nat} {e : DynEntry}
    (h : window m (16 * i) 16 = wr 8 e.d_tag.toNat true ++ wr 8 e.d_val.toNat true) :
    entryAt m i = e := by
  have htag := ofNat_rd 8 e.d_tag [] (wr 8 e.d_val.toNat true) true
  have hval := ofNat_rd 8 e.d_val (wr 8 e.d_tag.toNat true) [] true
  rw [List.nil_append, List.length_nil] at htag
  rw [List.append_nil, length_wr] at hval
  simp only [entryAt, h, rd64]
  rw [htag, hval]

/-! ## Entries of 8 bytes -/

/-- The entry of 8 bytes. -/
def entry32 (isLE : Bool) (raw : List Byte) : DynEntry :=
  ⟨(rd32 raw 0 isLE).signExtend 64, (rd32 raw 4 isLE).setWidth 64⟩

/-- The bytes of the entry that it becomes. -/
def widened (isLE : Bool) (raw : List Byte) : List Byte :=
  wr 8 (entry32 isLE raw).d_tag.toNat true ++ wr 8 (entry32 isLE raw).d_val.toNat true

theorem length_widened (isLE : Bool) (raw : List Byte) : (widened isLE raw).length = 16 := by
  rw [widened, List.length_append, length_wr, length_wr]

/-- The two writes are one write of 16 bytes. -/
theorem widenEntry_eq (isLE : Bool) (m : Nat → Byte) (i : Nat) :
    widenEntry isLE m i = overlay m (16 * i) (widened isLE (window m (8 * i) 8)) := by
  have htag : rd32 (window m (8 * i) 8) 0 isLE = rd32 (window m (8 * i) 4) 0 isLE := by
    rw [rd32, rd_window isLE (by decide), Nat.add_zero, rd32]
  have hval : rd32 (window m (8 * i) 8) 4 isLE = rd32 (window m (8 * i + 4) 4) 0 isLE := by
    rw [rd32, rd_window isLE (by decide), rd32]
  rw [widened, entry32, htag, hval, ← overlay_append, length_wr, widenEntry]

theorem widenEntries_eq (isLE : Bool) (n : Nat) (m : Nat → Byte) :
    widenEntries isLE n m = widen 8 16 (widened isLE) n m := by
  induction n generalizing m with
  | zero => rfl
  | succ n ih => rw [widenEntries, widenEntry_eq, ih, widen]

theorem entryAt_widenEntries {n i : Nat} (isLE : Bool) (m : Nat → Byte) (hi : i < n) :
    entryAt (widenEntries isLE n m) i = entry32 isLE (window m (8 * i) 8) := by
  refine entryAt_of_window ?_
  rw [widenEntries_eq, window_widen (length_widened isLE) (by decide) hi, widened]

theorem widenEntries_outside {n a : Nat} (isLE : Bool) (m : Nat → Byte) (ha : 16 * n ≤ a) :
    widenEntries isLE n m a = m a := by
  rw [widenEntries_eq, widen_outside (length_widened isLE) ha]

/-- The entry in what was read. -/
theorem entry32_window {m : Nat → Byte} {i n : Nat} (isLE : Bool) (h : 8 * i + 8 ≤ n) :
    entry32 isLE (window m (8 * i) 8) =
      ⟨(rd32 (window m 0 n) (8 * i) isLE).signExtend 64,
        (rd32 (window m 0 n) (8 * i + 4) isLE).setWidth 64⟩ := by
  have htag : rd32 (window m (8 * i) 8) 0 isLE = rd32 (window m 0 n) (8 * i) isLE := by
    rw [rd32, rd32, rd_window isLE (by decide), rd_window isLE (n := n) (by omega), Nat.zero_add,
      Nat.add_zero]
  have hval : rd32 (window m (8 * i) 8) 4 isLE = rd32 (window m 0 n) (8 * i + 4) isLE := by
    rw [rd32, rd32, rd_window isLE (by decide), rd_window isLE (n := n) (by omega), Nat.zero_add]
  rw [entry32, htag, hval]

/-! ## Entries of 16 bytes -/

/-- A field that is swapped, as a patch. -/
def swapPatch (offset : Nat) : Patch Byte where
  start := offset
  width := 8
  change raw := wr 8 (rd64 raw 0 false).toNat true
  length_change _ _ := length_wr _ _ _

theorem window_swapField {m : Nat → Byte} {a n offset : Nat} (h : a + n ≤ offset ∨ offset + 8 ≤ a) :
    window (swapField m offset) a n = window m a n :=
  window_overlay_of_disjoint (by rwa [length_wr])

theorem window_swapField_same (m : Nat → Byte) (offset : Nat) :
    window (swapField m offset) offset 8 = wr 8 (rd64 (window m offset 8) 0 false).toNat true :=
  Patch.window_apply_same (swapPatch offset) m

theorem window_sixteen (m : Nat → Byte) (a : Nat) :
    window m a 16 = window m a 8 ++ window m (a + 8) 8 := by
  rw [← List.take_append_drop 8 (window m a 16)]
  have hlow := take_drop_window (m := m) (o := a) (n := 16) (k := 0) (p := 8) (by decide)
  have hhigh := take_drop_window (m := m) (o := a) (n := 16) (k := 8) (p := 8) (by decide)
  rw [List.drop_zero, Nat.add_zero] at hlow
  rw [hlow, ← hhigh, List.take_of_length_le]
  simp

/-- The entry of 16 bytes in the order of the file. -/
def entry64 (isLE : Bool) (raw : List Byte) : DynEntry := ⟨rd64 raw 0 isLE, rd64 raw 8 isLE⟩

/-- A step of the second loop. -/
theorem entryAt_swapped (m : Nat → Byte) (i : Nat) :
    entryAt (swapField (swapField m (16 * i)) (16 * i + 8)) i = entry64 false
    (window m (16 * i) 16) := by
  refine entryAt_of_window ?_
  have htag : window (swapField (swapField m (16 * i)) (16 * i + 8)) (16 * i) 8 =
      wr 8 (rd64 (window m (16 * i) 8) 0 false).toNat true := by
    rw [window_swapField (.inl (by omega)), window_swapField_same]
  have hval : window (swapField (swapField m (16 * i)) (16 * i + 8)) (16 * i + 8) 8 =
      wr 8 (rd64 (window m (16 * i + 8) 8) 0 false).toNat true := by
    rw [window_swapField_same, window_swapField (.inr (by omega))]
  have h0 : rd64 (window m (16 * i) 16) 0 false = rd64 (window m (16 * i) 8) 0 false := by
    rw [rd64, rd_window false (by decide), Nat.add_zero, rd64]
  have h8 : rd64 (window m (16 * i) 16) 8 false = rd64 (window m (16 * i + 8) 8) 0 false := by
    rw [rd64, rd_window false (by decide), rd64]
  rw [window_sixteen, htag, hval, entry64, h0, h8]

theorem entryAt_congr {m m' : Nat → Byte} {i : Nat}
    (h : window m (16 * i) 16 = window m' (16 * i) 16) : entryAt m i = entryAt m' i := by
  simp only [entryAt, h]

theorem swapEntries_succ (count : Nat) (m : Nat → Byte) :
    swapEntries (count + 1) m = swapField (swapField (swapEntries count m) (16 * count))
    (16 * count + 8) := by
  rw [swapEntries, List.range_succ, List.foldl_append]
  rfl

/-- The entries that the loop did not come to. -/
theorem window_swapEntries {count i : Nat} (m : Nat → Byte) (h : count ≤ i) :
    window (swapEntries count m) (16 * i) 16 = window m (16 * i) 16 := by
  induction count with
  | zero => rfl
  | succ n ih =>
    rw [swapEntries_succ, window_swapField (.inr (by omega)), window_swapField (.inr (by omega)),
      ih (by omega)]

theorem entryAt_swapEntries {count i : Nat} (m : Nat → Byte) (h : i < count) :
    entryAt (swapEntries count m) i = entry64 false (window m (16 * i) 16) := by
  induction count with
  | zero => cases h
  | succ n ih =>
    rw [swapEntries_succ]
    rcases Nat.lt_succ_iff_lt_or_eq.1 h with hlt | rfl
    · rw [@entryAt_congr _ (swapEntries n m), ih hlt]
      rw [window_swapField (.inl (by omega)), window_swapField (.inl (by omega))]
    · rw [entryAt_swapped, window_swapEntries m (Nat.le_refl _)]

/-! ## What the rest of the file reads -/

/-- The bytes of an entry, the last of which may lie behind what was read. -/
theorem entry_eq_window (m : Nat → Byte) (n i : Nat) :
    ((List.range 16).map fun k => (window m 0 n).getD (16 * i + k) (m (16 * i + k))) = window m
    (16 * i) 16 := by
  refine List.map_congr_left fun k _ => ?_
  rw [List.getD_eq_getElem?_getD]
  by_cases h : 16 * i + k < n
  · rw [List.getElem?_eq_getElem (by rwa [length_window])]
    simp only [window, List.getElem_map, List.getElem_range, Option.getD_some, Nat.zero_add]
  · rw [List.getElem?_eq_none (by rw [length_window]; omega), Option.getD_none]

theorem normalizeDyn_narrow {I : Ident} (h : I.is64bit = false) (readBytes : Value)
    (m : Nat → Byte) :
    normalizeDyn I readBytes m =
    (readBytes / 8 * 16, widenEntries I.isLE (readBytes.toNat / 8) m) := by
  have hcount : (readBytes / 8).toNat = readBytes.toNat / 8 := BitVec.toNat_udiv
  rw [normalizeDyn, if_pos (by simp [h]), ← hcount]

/-- The buffer after `DianaElf_NormalizeDyn` holds the entries that the functions on a
loaded image work on. -/
theorem entryAt_normalizeDyn (I : Ident) (readBytes : Value) (m : Nat → Byte) :
    ((List.range (dynEntries I (window m 0 readBytes.toNat) m).length).map
      (entryAt (normalizeDyn I readBytes m).2)) = dynEntries I (window m 0 readBytes.toNat) m := by
  refine List.ext_getElem (by rw [List.length_map, List.length_range]) fun i h1 h2 => ?_
  rw [List.getElem_map, List.getElem_range]
  cases hclass : I.is64bit with
  | false =>
    simp only [dynEntries, hclass, if_false, Bool.false_eq_true, List.getElem_map,
      List.getElem_range]
    have hi : i < readBytes.toNat / 8 := by
      simpa only [dynEntries, hclass, if_false, Bool.false_eq_true, List.length_map,
        List.length_range, length_window] using h2
    rw [normalizeDyn_narrow hclass, entryAt_widenEntries I.isLE m hi]
    exact entry32_window I.isLE (by omega)
  | true =>
    simp only [dynEntries, hclass, if_true, List.getElem_map, List.getElem_range, entry_eq_window]
    rw [normalizeDyn, if_neg (by simp [hclass])]
    cases hle : I.isLE with
    | true => rfl
    | false =>
      have hcount : (readBytes / 16).toNat = readBytes.toNat / 16 := BitVec.toNat_udiv
      rw [if_neg Bool.false_ne_true, hcount, Bool.false_or, length_window]
      by_cases hi : i < readBytes.toNat / 16
      · rw [entryAt_swapEntries m hi, entry64, decide_eq_false (by omega)]
      · rw [entryAt_congr (window_swapEntries m (Nat.le_of_not_lt hi)), decide_eq_true (by omega)]
        rfl

/-- Entries of 8 bytes that are widened over each other become what they become in an array of their
own; only that array is written. -/
theorem normalizeDyn_widens (isLE : Bool) (readBytes : Value) (m : Nat → Byte) :
    let count := readBytes.toNat / 8
    let r := normalizeDyn ⟨false, isLE⟩ readBytes m
    r.1 = BitVec.ofNat 64 (16 * count) ∧
      (List.range count).map (entryAt r.2) =
      dynEntries ⟨false, isLE⟩ (window m 0 readBytes.toNat) m ∧
      ∀ a, 16 * count ≤ a → r.2 a = m a := by
  have hlen : (dynEntries ⟨false, isLE⟩ (window m 0 readBytes.toNat) m).length =
      readBytes.toNat / 8 := by
    simp only [dynEntries, Bool.false_eq_true, if_false, List.length_map, List.length_range,
      length_window]
  refine ⟨?_, ?_, fun a ha => ?_⟩
  · refine BitVec.eq_of_toNat_eq ?_
    rw [normalizeDyn_narrow rfl, BitVec.toNat_mul, BitVec.toNat_udiv, BitVec.toNat_ofNat,
      Nat.mul_comm]
    rfl
  · have h := entryAt_normalizeDyn ⟨false, isLE⟩ readBytes m
    rwa [hlen] at h
  · rw [normalizeDyn_narrow rfl]
    exact widenEntries_outside isLE m ha

/-- Two big-endian entries of 8 bytes, the value of the first one where its tag of 16 bytes goes. -/
example :
    let raw : List Byte := [0, 0, 0, 5, 0, 0, 1, 0, 255, 255, 255, 255, 128, 0, 0, 0]
    (List.range 2).map (entryAt (normalizeDyn ⟨false, false⟩ 16 fun i => raw.getD i 0).2) =
      [⟨5, 256⟩, ⟨0xFFFFFFFFFFFFFFFF, 0x80000000⟩] := by
  decide

end Diana.Elf
