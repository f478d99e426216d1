import Diana.Elf.Relocate
import Diana.Lib.Patches

/-!
# What relocating an ELF image changes

On a well-formed image the relocations and the pointers of the dynamic section are patches that do
not meet, and `DianaElfFile_Relocate` makes them one after the other.

* `dynFrom`, `relocsOf`: what the image says before anything is changed;
* `WellFormed`: the tables and the targets lie in the image and apart;
* `relocate_exact`: the image behind it.
-/

namespace Diana.Elf

open Diana.Lib Diana.Pe

/-! ## Accesses -/

/-- The place of an address in an image. -/
def place (m : Image) (a : Value) : Nat := (a - m.base).toNat

section

variable {m : Image} {a : Value} {n k : Nat}

theorem place_add (h : place m a + k < 2 ^ 64) :
    place m (a + BitVec.ofNat 64 k) = place m a + k := by
  unfold place at h ⊢
  have hshift : a + BitVec.ofNat 64 k - m.base = a - m.base + BitVec.ofNat 64 k := by
    rw [BitVec.sub_eq_add_neg, BitVec.sub_eq_add_neg, BitVec.add_assoc,
      BitVec.add_comm (BitVec.ofNat 64 k), ← BitVec.add_assoc]
  rw [hshift, BitVec.toNat_add, BitVec.toNat_ofNat]
  omega

theorem readExact_image (h : place m a + n ≤ m.size) :
    readExact imageStream a n m = .ok (window m.byte (place m a) n) m := by
  unfold place at h ⊢
  simp only [readExact, get_bind, imageStream, if_pos h, length_window, if_true, pure_apply]

theorem writeNumber_image {v : Nat} {isLE : Bool} (h : place m a + n ≤ m.size) :
    writeNumber imageStream a n v isLE m = .ok ()
    { m with byte := overlay m.byte (place m a) (wr n v isLE) } := by
  have hwrite : imageStream.write m a (wr n v isLE) =
      (.ok n, { m with byte := overlay m.byte (place m a) (wr n v isLE) }) := by
    unfold imageStream
    dsimp only
    rw [length_wr, if_pos (show (a - m.base).toNat + n ≤ m.size from h)]
    rfl
  unfold writeNumber
  rw [hwrite]

end

/-! ## Patches -/

/-- A relocation that has an effect. -/
structure Reloc where
  isRela : Bool
  entry : RelaEntry
  fixup : Fixup
  deriving DecidableEq, Repr

/-- The change of a relocation. -/
def Reloc.patch (m : Image) (bias : Value) (isLE : Bool) (r : Reloc) : Patch Byte where
  start := place m (r.entry.r_offset + bias)
  width := r.fixup.width
  change w :=
    wr r.fixup.width (r.fixup.value bias r.entry.r_addend (rd r.fixup.width w 0 isLE)) isLE
  length_change _ _ := length_wr _ _ _

/-- The image with patches. -/
def patched (m : Image) (ps : List (Patch Byte)) : Image := { m with byte := applyAll ps m.byte }

theorem patched_append (m : Image) (ps qs : List (Patch Byte)) :
    patched m (ps ++ qs) = patched (patched m ps) qs := by
  simp only [patched, applyAll, List.foldl_append]

/-- The window of a patch that changes nothing. -/
def windowAt (o n : Nat) : Patch Byte := ⟨o, n, id, fun _ h => h⟩

theorem window_patched {m : Image} {ps : List (Patch Byte)} {o n : Nat}
    (h : ∀ p ∈ ps, p.Disjoint (windowAt o n)) :
    window (patched m ps).byte o n = window m.byte o n :=
  window_applyAll_of_disjoint (q := windowAt o n) h

section

variable {m : Image} {bias : Value} {isLE : Bool} {r : Reloc}

theorem applyFixup_image (h : (r.patch m bias isLE).start + (r.patch m bias isLE).width ≤ m.size)
    (ps : List (Patch Byte)) :
    applyFixup imageStream bias (r.entry.r_offset + bias) r.entry isLE r.fixup (patched m ps) =
      .ok () (patched m (ps ++ [r.patch m bias isLE])) := by
  have hplace : place (patched m ps) (r.entry.r_offset + bias) + r.fixup.width ≤
      (patched m ps).size := h
  have hresult : patched m (ps ++ [r.patch m bias isLE]) = { patched m ps with
      byte := overlay (patched m ps).byte (place m (r.entry.r_offset + bias))
        (wr r.fixup.width (r.fixup.value bias
        r.entry.r_addend (rd r.fixup.width
          (window (patched m ps).byte (place m (r.entry.r_offset + bias)) r.fixup.width)
          0 isLE)) isLE) } := patched_append m ps _
  rw [hresult]
  unfold applyFixup
  by_cases hrelative : r.fixup = .relative64
  · -- the value does not depend on what was there
    rw [if_pos hrelative, writeNumber_image hplace, hrelative]
    rfl
  · rw [if_neg hrelative]
    exact (bind_of_ok (readExact_image hplace)).trans (writeNumber_image hplace)

end

/-! ## What the image says -/

namespace ElfFile

variable (E : ElfFile) (bias : Value) (m : Image)

/-- The place of the dynamic section. -/
def dynPlace : Nat := place m (E.dynamicAddress + bias)

def dynAt (i : Nat) : DynEntry :=
  decodeDyn E.ident (window m.byte (E.dynPlace bias m + i * dynEntSize E.ident.is64bit)
    (dynEntSize E.ident.is64bit))

/-- The entries before `DIANA_DT_NULL`, with their indices: `n` are left. -/
def dynFrom : (n i : Nat) → List (Nat × DynEntry)
  | 0, _ => []
  | n + 1, i =>
    if (E.dynAt bias m i).d_tag = 0 then [] else (i, E.dynAt bias m i) :: dynFrom n (i + 1)

/-- The change of a pointer in the dynamic section. -/
def pointerPatch (p : Nat × DynEntry) : Patch Byte where
  start := E.dynPlace bias m + p.1 * dynEntSize E.ident.is64bit + pointerSize E.ident.is64bit
  width := pointerSize E.ident.is64bit
  change _ := wr (pointerSize E.ident.is64bit)
    ((p.2.d_val + bias).toNat % 256 ^ pointerSize E.ident.is64bit) E.ident.isLE
  length_change _ _ := length_wr _ _ _

/-- The pointers that are moved. -/
def pointers (l : List (Nat × DynEntry)) :
    List (Nat × DynEntry) := l.filter fun p => bias ≠ 0 ∧ p.2.IsPtrTag

/-- The tables that are there. -/
def relocTables (l : List (Nat × DynEntry)) : List RelocTable :=
  (l.foldl (fun T p => T.note bias p.2) RelocTables.initial).tables.filter fun T =>
    T.va ≠ 0 ∧ T.size ≠ 0

def relocAt (T : RelocTable) (i : Nat) : RelaEntry :=
  decodeRela E.ident T.isRela
    (window m.byte (place m T.va + i * entSize T.isRela E.ident.is64bit)
      (entSize T.isRela E.ident.is64bit))

/-- The relocation of an entry, if it has an effect. -/
def relocOf (T : RelocTable) (i : Nat) : Option Reloc :=
  (effectOf E.e_machine (E.relocAt m T i)).map fun f => ⟨T.isRela, E.relocAt m T i, f⟩

/-- The relocations of a table. -/
def relocsOf (T : RelocTable) :
    List Reloc := (List.range (T.count E.ident.is64bit)).filterMap (E.relocOf m T)

/-- The entries of the dynamic section. -/
def dynamicEntries : List (Nat × DynEntry) := E.dynFrom bias m E.dynCount 0

/-- All relocations. -/
def relocs : List Reloc := (relocTables bias (E.dynamicEntries bias m)).flatMap (E.relocsOf m)

/-- The patches of the pointers and of the relocations. -/
def pointerPatches : List (Patch Byte) :=
  (pointers bias (E.dynamicEntries bias m)).map (E.pointerPatch bias m)

def relocPatches : List (Patch Byte) := (E.relocs bias m).map (Reloc.patch m bias E.ident.isLE)

/-- The window of the dynamic section, and that of a table. -/
def dynWindow : Patch Byte := windowAt (E.dynPlace bias m) (E.dynCount * dynEntSize E.ident.is64bit)

def tableWindow (T : RelocTable) : Patch Byte :=
  windowAt (place m T.va) (T.count E.ident.is64bit * entSize T.isRela E.ident.is64bit)

/-- The dynamic section, the tables and the targets lie in the image; the targets do not meet each
other, the tables or the dynamic section, and the dynamic section meets no table. -/
structure WellFormed : Prop where
  fits : m.size ≤ 2 ^ 64
  dynamic : (E.dynWindow bias m).start + (E.dynWindow bias m).width ≤ m.size
  tables : ∀ T ∈ relocTables bias (E.dynamicEntries bias m),
    (E.tableWindow m T).start + (E.tableWindow m T).width ≤ m.size
  inside : ∀ p ∈ E.relocPatches bias m, p.start + p.width ≤ m.size
  disjoint : (E.relocPatches bias m).Pairwise Patch.Disjoint
  apart : ∀ p ∈ E.relocPatches bias m, p.Disjoint (E.dynWindow bias m) ∧
    ∀ T ∈ relocTables bias (E.dynamicEntries bias m), p.Disjoint (E.tableWindow m T)
  separate : ∀ T ∈ relocTables bias (E.dynamicEntries bias m),
    (E.dynWindow bias m).Disjoint (E.tableWindow m T)

end ElfFile

namespace Reloc

variable (m : Image) (bias : Value) (isLE : Bool) (r : Reloc)

/-- What was at the target. -/
def old : List Byte := window m.byte (r.patch m bias isLE).start (r.patch m bias isLE).width

/-- The addend: that of the entry if it has one, else what was at the target. -/
def addend : Value :=
  if r.isRela then r.entry.r_addend
  else
    (BitVec.ofNat (8 * r.fixup.width)
      (rd r.fixup.width (r.old m bias isLE) 0 isLE)).signExtend 64

/-- An addend that the fixup does not get to see: an explicit one of 0, which a relative relocation
of 32 bits takes for none, an explicit one of an absolute relocation of `B`, and the content of the
target where a relative relocation of 64 bits does not look. -/
def AddendLost : Prop :=
  match r.fixup with
  | .relative32 => r.isRela = true ∧ r.entry.r_addend = 0
  | .abs32 => r.isRela = true
  | .relative64 => r.isRela = false
  | _ => False

end Reloc

/-- The image after relocation: the targets and the pointers are moved, and nothing else. -/
structure ElfFile.Relocated (E : ElfFile) (bias : Value) (m m' : Image) : Prop where
  base : m'.base = m.base
  size : m'.size = m.size
  relative : ∀ r ∈ E.relocs bias m, r.fixup.IsRelative → ¬ r.AddendLost →
    r.old m' bias E.ident.isLE =
      wr r.fixup.width ((bias + r.addend m bias E.ident.isLE).toNat % 256 ^ r.fixup.width)
      E.ident.isLE
  absolute : ∀ r ∈ E.relocs bias m, ¬ r.fixup.IsRelative → ¬ r.AddendLost →
    r.old m' bias E.ident.isLE =
      wr r.fixup.width ((rd r.fixup.width (r.old m bias E.ident.isLE) 0 E.ident.isLE +
        bias.toNat + r.entry.r_addend.toNat) % 256 ^ r.fixup.width) E.ident.isLE
  pointer : ∀ p ∈ ElfFile.pointers bias (E.dynamicEntries bias m),
    window m'.byte (E.pointerPatch bias m p).start (pointerSize E.ident.is64bit) =
      wr (pointerSize E.ident.is64bit)
      ((p.2.d_val + bias).toNat % 256 ^ pointerSize E.ident.is64bit) E.ident.isLE
  rest : ∀ i, (∀ p ∈ E.pointerPatches bias m ++ E.relocPatches bias m, ¬ p.Covers i) →
    m'.byte i = m.byte i

/-! ## Runs -/

theorem disjoint_inside {p q r : Patch Byte} (h : p.Disjoint q) (hlo : q.start ≤ r.start)
    (hhi : r.start + r.width ≤ q.start + q.width) : p.Disjoint r := by
  unfold Patch.Disjoint at h ⊢
  omega

theorem disjoint_windowAt {p : Patch Byte} {o n o' n' : Nat} (h : p.Disjoint (windowAt o n))
    (hlo : o ≤ o') (hhi : o' + n' ≤ o + n) :
    p.Disjoint (windowAt o' n') := disjoint_inside h hlo hhi

section Runs

variable {E : ElfFile} {bias : Value} {m : Image}

theorem dynEntSize_eq (is64 : Bool) : dynEntSize is64 = pointerSize is64 + pointerSize is64 := by
  cases is64 <;> rfl

theorem entSize_pos' (isRela is64 : Bool) :
    0 < entSize isRela is64 := by cases isRela <;> cases is64 <;> decide

/-- An entry of the dynamic section lies in it. -/
theorem dynEntry_le {i n : Nat} (hin : i + n ≤ E.dynCount) (hn : 0 < n) :
    i * dynEntSize E.ident.is64bit + dynEntSize E.ident.is64bit ≤
    E.dynCount * dynEntSize E.ident.is64bit := by
  rw [← Nat.succ_mul]
  exact Nat.mul_le_mul_right _ (by omega)

variable (hwf : E.WellFormed bias m)

include hwf

theorem place_dynEntVA {i n : Nat} (hin : i + n ≤ E.dynCount) (hn : 0 < n)
    (ps : List (Patch Byte)) :
    place (patched m ps) (E.dynEntVA bias i) = E.dynPlace bias m + i * dynEntSize E.ident.is64bit ∧
      E.dynPlace bias m + i * dynEntSize E.ident.is64bit + dynEntSize E.ident.is64bit ≤ m.size := by
  have hle := dynEntry_le hin hn
  have hdynamic : E.dynPlace bias m + E.dynCount * dynEntSize E.ident.is64bit ≤ m.size :=
    hwf.dynamic
  have hpos : 0 < dynEntSize E.ident.is64bit := by cases E.ident.is64bit <;> decide
  have hfits := hwf.fits
  refine ⟨place_add (m := m) ?_, by omega⟩
  change E.dynPlace bias m + i * dynEntSize E.ident.is64bit < 2 ^ 64
  omega

theorem movePointer_image {i n : Nat} (hin : i + n ≤ E.dynCount) (hn : 0 < n) (e : DynEntry)
    (ps : List (Patch Byte)) : E.movePointer imageStream bias (E.dynEntVA bias i) e (patched m ps) =
      .ok () (patched m (ps ++ (ElfFile.pointers bias [(i, e)]).map (E.pointerPatch bias m))) := by
  obtain ⟨hplace, hsize⟩ := place_dynEntVA hwf hin hn ps
  have hent := dynEntSize_eq E.ident.is64bit
  have hfits := hwf.fits
  have hpos : 0 < pointerSize E.ident.is64bit := by cases E.ident.is64bit <;> decide
  unfold ElfFile.movePointer
  by_cases hptr : bias ≠ 0 ∧ e.IsPtrTag
  · have hone : ElfFile.pointers bias [(i, e)] = [(i, e)] :=
      List.filter_cons_of_pos (decide_eq_true hptr)
    have hvalue : place (patched m ps)
      (E.dynEntVA bias i + BitVec.ofNat 64 (pointerSize E.ident.is64bit)) =
        E.dynPlace bias m + i * dynEntSize E.ident.is64bit + pointerSize E.ident.is64bit := by
      rw [place_add (by omega), hplace]
    rw [if_pos hptr, hone]
    rw [writeNumber_image (by rw [hvalue]; change _ ≤ m.size; omega), hvalue]
    rw [patched_append]
    rfl
  · have hnone : ElfFile.pointers bias [(i, e)] = [] := by
      rw [ElfFile.pointers, List.filter_eq_nil_iff]
      intro p hp
      rw [List.mem_singleton.1 hp]
      exact fun h => hptr (of_decide_eq_true h)
    rw [if_neg hptr, hnone, List.map_nil, List.append_nil]
    rfl

/-- The loop over the dynamic section, behind patches that it does not see. -/
theorem collectTables_image {n i : Nat} (hin : i + n ≤ E.dynCount) (T : RelocTables)
    (ps : List (Patch Byte)) (hps : ∀ p ∈ ps, ∀ j,
      i ≤ j → p.Disjoint (windowAt (E.dynPlace bias m + j * dynEntSize E.ident.is64bit)
      (dynEntSize E.ident.is64bit))) :
    E.collectTables imageStream bias n i T (patched m ps) =
      .ok ((E.dynFrom bias m n i).foldl (fun T p => T.note bias p.2) T)
        (patched m (ps ++ (ElfFile.pointers bias (E.dynFrom bias m n i)).map
          (E.pointerPatch bias m))) := by
  induction n generalizing i T ps with
  | zero =>
    unfold ElfFile.collectTables ElfFile.dynFrom ElfFile.pointers
    rw [List.filter_nil, List.map_nil, List.append_nil]
    rfl
  | succ n ih =>
    obtain ⟨hplace, hsize⟩ := place_dynEntVA hwf hin (Nat.succ_pos n) ps
    have hread : readExact imageStream (E.dynEntVA bias i) (dynEntSize E.ident.is64bit)
      (patched m ps) =
        .ok (window m.byte (E.dynPlace bias m + i * dynEntSize E.ident.is64bit)
          (dynEntSize E.ident.is64bit)) (patched m ps) := by
      rw [readExact_image (by rw [hplace]; exact hsize), hplace,
        window_patched fun p hp => hps p hp i le_rfl]
    unfold ElfFile.collectTables
    refine (bind_of_ok hread).trans ?_
    unfold ElfFile.dynFrom
    change (if (E.dynAt bias m i).d_tag = 0 then _ else _ : Run Image _) _ = _
    by_cases hnull : (E.dynAt bias m i).d_tag = 0
    · rw [if_pos hnull, if_pos hnull]
      unfold ElfFile.pointers
      rw [List.filter_nil, List.map_nil, List.append_nil]
      rfl
    · rw [if_neg hnull, if_neg hnull]
      refine (bind_of_ok (movePointer_image hwf hin (Nat.succ_pos n) _ ps)).trans ?_
      rw [ih (by omega)]
      · unfold ElfFile.pointers
        rw [List.append_assoc, ← List.map_append, ← List.filter_append]
        rfl
      · intro p hp j hj
        rcases List.mem_append.1 hp with hp | hp
        · exact hps p hp j (by omega)
        · -- the pointer of this entry ends where the next entry starts
          obtain ⟨q, hq, rfl⟩ := List.mem_map.1 hp
          obtain rfl := List.mem_singleton.1 (List.mem_filter.1 hq).1
          have hent := dynEntSize_eq E.ident.is64bit
          have hmul : (i + 1) * dynEntSize E.ident.is64bit ≤ j * dynEntSize E.ident.is64bit :=
            Nat.mul_le_mul_right _ hj
          rw [Nat.succ_mul] at hmul
          left
          unfold ElfFile.pointerPatch windowAt
          dsimp only
          omega

/-- The loop of a table, behind patches that it does not see. -/
theorem processEntries_image {T : RelocTable}
    (hT : T ∈ ElfFile.relocTables bias (E.dynamicEntries bias m)) {n i : Nat}
    (hin : i + n = T.count E.ident.is64bit) (ps : List (Patch Byte))
    (hps : ∀ p ∈ ps, p.Disjoint (E.tableWindow m T)) :
    E.processEntries imageStream bias T n i (patched m ps) =
      .ok ()
      (patched m (ps ++ ((List.range' i n).filterMap (E.relocOf m T)).map
        (Reloc.patch m bias E.ident.isLE))) := by
  induction n generalizing i ps with
  | zero =>
    unfold ElfFile.processEntries
    rw [List.range'_zero, List.filterMap_nil, List.map_nil, List.append_nil]
    rfl
  | succ n ih =>
    have htable : place m T.va + T.count E.ident.is64bit * entSize T.isRela E.ident.is64bit ≤
        m.size := hwf.tables T hT
    have hpos := entSize_pos' T.isRela E.ident.is64bit
    have hfits := hwf.fits
    have hentry : i * entSize T.isRela E.ident.is64bit + entSize T.isRela E.ident.is64bit ≤
        T.count E.ident.is64bit * entSize T.isRela E.ident.is64bit := by
      rw [← Nat.succ_mul]
      exact Nat.mul_le_mul_right _ (by omega)
    have hplace : place (patched m ps) (T.entVA E.ident.is64bit i) =
        place m T.va + i * entSize T.isRela E.ident.is64bit := by
      refine place_add (m := m) ?_
      omega
    have hread : readExact imageStream (T.entVA E.ident.is64bit i)
      (entSize T.isRela E.ident.is64bit) (patched m ps) =
        .ok (window m.byte (place m T.va + i * entSize T.isRela E.ident.is64bit)
          (entSize T.isRela E.ident.is64bit)) (patched m ps) := by
      rw [readExact_image (by rw [hplace]; change _ ≤ m.size; omega), hplace,
        window_patched fun p hp => disjoint_windowAt (hps p hp) (by omega) (by omega)]
    unfold ElfFile.processEntries
    refine (bind_of_ok hread).trans ?_
    have happly : applyReloc imageStream bias E.e_machine E.ident.isLE (E.relocAt m T i)
        (patched m ps) = .ok ()
        (patched m (ps ++ ((E.relocOf m T i).toList).map (Reloc.patch m bias E.ident.isLE))) := by
      unfold applyReloc ElfFile.relocOf
      cases heffect : effectOf E.e_machine (E.relocAt m T i) with
      | none =>
        rw [Option.map_none, Option.toList_none, List.map_nil, List.append_nil]
        rfl
      | some f =>
        refine applyFixup_image (r := ⟨T.isRela, E.relocAt m T i, f⟩)
          (hwf.inside _ (List.mem_map.2 ⟨_, ?_, rfl⟩)) ps
        refine List.mem_flatMap.2 ⟨T, hT, List.mem_filterMap.2 ⟨i, List.mem_range.2 (by omega), ?_⟩⟩
        rw [ElfFile.relocOf, heffect, Option.map_some]
    refine (bind_of_ok happly).trans ?_
    rw [ih (by omega)]
    · rw [List.append_assoc, ← List.map_append, List.range'_succ, List.filterMap_cons]
      cases E.relocOf m T i <;> rfl
    · intro p hp
      rcases List.mem_append.1 hp with hp | hp
      · exact hps p hp
      · obtain ⟨r, hr, rfl⟩ := List.mem_map.1 hp
        refine (hwf.apart _ (List.mem_map.2 ⟨r,
          List.mem_flatMap.2 ⟨T, hT, List.mem_filterMap.2 ⟨i, ?_, ?_⟩⟩, rfl⟩)).2 T hT
        · exact List.mem_range.2 (by omega)
        · exact Option.mem_toList.1 hr

/-- The tables one after the other: those that are not there change nothing. -/
theorem processTables_image (l : List RelocTable)
    (hl : ∀ T ∈ l.filter fun T => T.va ≠ 0 ∧ T.size ≠ 0,
      T ∈ ElfFile.relocTables bias (E.dynamicEntries bias m))
    (ps : List (Patch Byte))
    (hps : ∀ p ∈ ps, ∀ T ∈ ElfFile.relocTables bias (E.dynamicEntries bias m),
      p.Disjoint (E.tableWindow m T)) :
    E.processTables imageStream bias l (patched m ps) =
      .ok ()
      (patched m (ps ++ (((l.filter fun T => T.va ≠ 0 ∧ T.size ≠ 0).flatMap (E.relocsOf m)).map
        (Reloc.patch m bias E.ident.isLE)))) := by
  induction l generalizing ps with
  | nil =>
    rw [List.filter_nil, List.flatMap_nil, List.map_nil, List.append_nil]
    rfl
  | cons T rest ih =>
    unfold ElfFile.processTables
    by_cases hthere : T.va ≠ 0 ∧ T.size ≠ 0
    · have hfilter := List.filter_cons_of_pos
          (p := fun T : RelocTable => decide (T.va ≠ 0 ∧ T.size ≠ 0)) (l := rest)
        (decide_eq_true hthere)
      rw [hfilter] at hl ⊢
      have hT := hl T List.mem_cons_self
      have hrun : E.processRelocTable imageStream bias T (patched m ps) =
          .ok () (patched m (ps ++ (E.relocsOf m T).map (Reloc.patch m bias E.ident.isLE))) := by
        unfold ElfFile.processRelocTable ElfFile.relocsOf
        rw [if_pos hthere, List.range_eq_range']
        exact processEntries_image hwf hT (Nat.zero_add _) ps fun p hp => hps p hp T hT
      refine (bind_of_ok hrun).trans ?_
      rw [ih fun T' h => hl T' (List.mem_cons_of_mem _ h)]
      · rw [List.flatMap_cons, List.map_append, List.append_assoc]
      · intro p hp T' hT'
        rcases List.mem_append.1 hp with hp | hp
        · exact hps p hp T' hT'
        · obtain ⟨r, hr, rfl⟩ := List.mem_map.1 hp
          exact (hwf.apart _ (List.mem_map.2 ⟨r, List.mem_flatMap.2 ⟨T, hT, hr⟩, rfl⟩)).2 T' hT'
    · have hfilter := List.filter_cons_of_neg
          (p := fun T : RelocTable => decide (T.va ≠ 0 ∧ T.size ≠ 0)) (l := rest)
        (by simpa using hthere)
      rw [hfilter] at hl ⊢
      have hrun : E.processRelocTable imageStream bias T (patched m ps) =
          .ok () (patched m ps) := by
        unfold ElfFile.processRelocTable
        rw [if_neg hthere]
        rfl
      exact (bind_of_ok hrun).trans (ih hl ps hps)

omit hwf in
theorem mem_dynFrom {n i : Nat} {q : Nat × DynEntry} (hq : q ∈ E.dynFrom bias m n i) :
    i ≤ q.1 ∧ q.1 < i + n := by
  induction n generalizing i with
  | zero => exact absurd hq List.not_mem_nil
  | succ n ih =>
    unfold ElfFile.dynFrom at hq
    split at hq
    · exact absurd hq List.not_mem_nil
    · rcases List.mem_cons.1 hq with rfl | hq
      · exact ⟨le_rfl, by dsimp only; omega⟩
      · have := ih hq
        omega

omit hwf in
theorem pairwise_dynFrom (n i : Nat) : (E.dynFrom bias m n i).Pairwise fun p q => p.1 < q.1 := by
  induction n generalizing i with
  | zero => exact List.Pairwise.nil
  | succ n ih =>
    unfold ElfFile.dynFrom
    split
    · exact List.Pairwise.nil
    · exact List.pairwise_cons.2 ⟨fun q hq => (mem_dynFrom hq).1, ih (i + 1)⟩

omit hwf in
/-- A pointer lies in the entry of its index. -/
theorem pointerPatch_place (q : Nat × DynEntry) :
    E.dynPlace bias m + q.1 * dynEntSize E.ident.is64bit ≤ (E.pointerPatch bias m q).start ∧
      (E.pointerPatch bias m q).start + (E.pointerPatch bias m q).width =
        E.dynPlace bias m + (q.1 + 1) * dynEntSize E.ident.is64bit := by
  have hent := dynEntSize_eq E.ident.is64bit
  unfold ElfFile.pointerPatch
  rw [Nat.succ_mul]
  dsimp only
  omega

omit hwf in
theorem disjoint_pointerPatches : (E.pointerPatches bias m).Pairwise Patch.Disjoint := by
  refine List.pairwise_map.2 (((pairwise_dynFrom E.dynCount 0).filter _).imp fun {p q} hlt => ?_)
  have hp := @pointerPatch_place E bias m p
  have hq := @pointerPatch_place E bias m q
  have hle : (p.1 + 1) * dynEntSize E.ident.is64bit ≤ q.1 * dynEntSize E.ident.is64bit :=
    Nat.mul_le_mul_right _ hlt
  left
  omega

omit hwf in
/-- What does not meet the dynamic section meets none of its pointers. -/
theorem disjoint_pointerPatch {p q : Patch Byte} (hp : p.Disjoint (E.dynWindow bias m))
    (hq : q ∈ E.pointerPatches bias m) : p.Disjoint q := by
  obtain ⟨e, he, rfl⟩ := List.mem_map.1 hq
  have hindex := mem_dynFrom (List.mem_filter.1 he).1
  have hplace := @pointerPatch_place E bias m e
  have hle : (e.1 + 1) * dynEntSize E.ident.is64bit ≤ E.dynCount * dynEntSize E.ident.is64bit :=
    Nat.mul_le_mul_right _ (by omega)
  refine disjoint_inside hp ?_ ?_
  · change E.dynPlace bias m ≤ _
    omega
  · change _ ≤ E.dynPlace bias m + E.dynCount * dynEntSize E.ident.is64bit
    omega

theorem disjoint_patches :
    (E.pointerPatches bias m ++ E.relocPatches bias m).Pairwise Patch.Disjoint :=
  List.pairwise_append.2 ⟨disjoint_pointerPatches, hwf.disjoint,
    fun _ hp q hq => (disjoint_pointerPatch (hwf.apart q hq).1 hp).symm⟩

/-- The function makes the patches of the pointers, then those of the relocations. -/
theorem relocate_image (hrebase : ¬ E.NothingToRebase bias) :
    E.relocate imageStream bias m = .ok ()
    (patched m (E.pointerPatches bias m ++ E.relocPatches bias m)) := by
  have hcollect := collectTables_image hwf (n := E.dynCount) (i := 0) (by omega) .initial []
    fun _ h => absurd h List.not_mem_nil
  unfold ElfFile.relocate
  rw [if_neg hrebase]
  refine (bind_of_ok hcollect).trans ?_
  refine processTables_image hwf _ (fun T hT => hT) _ fun p hp T hT => ?_
  exact (disjoint_pointerPatch (hwf.separate T hT).symm hp).symm

theorem old_relocated {r : Reloc} (hr : r ∈ E.relocs bias m) :
    r.old (patched m (E.pointerPatches bias m ++ E.relocPatches bias m)) bias E.ident.isLE =
      (r.patch m bias E.ident.isLE).change (r.old m bias E.ident.isLE) :=
  window_applyAll (disjoint_patches hwf) (List.mem_append_right _ (List.mem_map_of_mem hr))

omit hwf in
/-- An entry without an addend has the addend 0. -/
theorem addend_of_rel {r : Reloc} (hr : r ∈ E.relocs bias m) (hrel : r.isRela = false) :
    r.entry.r_addend = 0 := by
  obtain ⟨T, -, hT⟩ := List.mem_flatMap.1 hr
  obtain ⟨i, -, hi⟩ := List.mem_filterMap.1 hT
  obtain ⟨f, -, rfl⟩ := Option.map_eq_some_iff.1 hi
  change (decodeRela E.ident T.isRela _).r_addend = 0
  change T.isRela = false at hrel
  rw [hrel]
  unfold decodeRela
  cases E.ident.is64bit <;> rfl

omit hwf in
/-- The value of a relative relocation is the bias and the addend. -/
theorem value_relative {r : Reloc} (hr : r ∈ E.relocs bias m) (hrelative : r.fixup.IsRelative)
    (hlost : ¬ r.AddendLost) :
    r.fixup.value bias r.entry.r_addend
    (rd r.fixup.width (r.old m bias E.ident.isLE) 0 E.ident.isLE) =
      (bias + r.addend m bias E.ident.isLE).toNat % 256 ^ r.fixup.width := by
  unfold Reloc.addend
  unfold Reloc.AddendLost at hlost
  rcases hrelative with h | h
  · rw [h, Bool.not_eq_false] at hlost
    have hlt := (bias + r.entry.r_addend).isLt
    rw [if_pos hlost, h]
    exact (Nat.mod_eq_of_lt hlt).symm
  · rw [h] at hlost ⊢
    cases hrel : r.isRela with
    | true =>
      have hne : r.entry.r_addend ≠ 0 := fun h0 => hlost ⟨hrel, h0⟩
      rw [if_pos rfl]
      unfold Fixup.value
      rw [if_pos hne]
      rfl
    | false =>
      have h0 := addend_of_rel hr hrel
      rw [if_neg Bool.false_ne_true]
      unfold Fixup.value
      rw [if_neg (not_not_intro h0)]
      rfl

omit hwf in
/-- The value of an absolute relocation is what was there, the bias and the addend. -/
theorem value_absolute {r : Reloc} (hr : r ∈ E.relocs bias m) (habsolute : ¬ r.fixup.IsRelative)
    (hlost : ¬ r.AddendLost) :
    r.fixup.value bias r.entry.r_addend
    (rd r.fixup.width (r.old m bias E.ident.isLE) 0 E.ident.isLE) =
      (rd r.fixup.width (r.old m bias E.ident.isLE) 0 E.ident.isLE + bias.toNat +
        r.entry.r_addend.toNat) % 256 ^ r.fixup.width := by
  unfold Fixup.IsRelative at habsolute
  unfold Reloc.AddendLost at hlost
  cases h : r.fixup with
  | relative64 => exact absurd (Or.inl h) habsolute
  | relative32 => exact absurd (Or.inr h) habsolute
  | abs64 => simp [Fixup.value, Fixup.width]
  | abs32Addend => simp [Fixup.value, Fixup.width]
  | abs32 =>
    rw [h, Bool.not_eq_true] at hlost
    simp [Fixup.value, Fixup.width, addend_of_rel hr hlost]

/-- `DianaElfFile_Relocate` on a well-formed image. -/
theorem relocate_exact : ∃ m', E.relocate imageStream bias m = .ok () m' ∧
    if bias = 0 ∧ E.e_type = 2 then m' = m else E.Relocated bias m m' := by
  by_cases hrebase : E.NothingToRebase bias
  · refine ⟨m, by unfold ElfFile.relocate; rw [if_pos hrebase]; rfl, ?_⟩
    rcases hrebase with h | hdynamic
    · rw [if_pos h]
    · split
      · rfl
      · -- without a dynamic section there is nothing to move
        have hentries : E.dynamicEntries bias m = [] := by
          have hcount : E.dynCount = 0 := by rw [ElfFile.dynCount, hdynamic]; exact Nat.zero_div _
          rw [ElfFile.dynamicEntries, hcount]
          rfl
        have hrelocs : E.relocs bias m = [] := by
          rw [ElfFile.relocs, hentries]
          rfl
        refine ⟨rfl, rfl, ?_, ?_, ?_, fun _ _ => rfl⟩
        · exact fun r hr => absurd hr (by rw [hrelocs]; exact List.not_mem_nil)
        · exact fun r hr => absurd hr (by rw [hrelocs]; exact List.not_mem_nil)
        · exact fun p hp => absurd hp (by rw [hentries]; exact List.not_mem_nil)
  · refine ⟨_, relocate_image hwf hrebase, ?_⟩
    rw [if_neg fun h => hrebase (Or.inl h)]
    exact {
      base := rfl
      size := rfl
      relative := fun r hr hrelative hlost => by
        rw [old_relocated hwf hr, ← value_relative hr hrelative hlost]
        rfl
      absolute := fun r hr habsolute hlost => by
        rw [old_relocated hwf hr, ← value_absolute hr habsolute hlost]
        rfl
      pointer :=
      fun p hp => window_applyAll (disjoint_patches hwf)
        (List.mem_append_left _ (List.mem_map_of_mem hp))
      rest := fun i hi => applyAll_outside hi }

end Runs

/-! ## An image of 36 bytes -/

/-- For x86, with a table of one relocation without an addend that is at 0x18; its
target is the 4 at 0x20. -/
def oneReloc : ElfFile where
  fileMode := false
  ident := ⟨false, true⟩
  e_type := 3
  e_machine := 3
  e_ehsize := 52
  e_phentsize := 32
  e_phnum := 1
  capturedSegments := [⟨DIANA_PT_DYNAMIC, 6, 0, 0, 0, 24, 24, 4⟩]

def oneRelocImage (r_type : Byte) : Image where
  base := 0x1000
  size := 36
  byte i := ([17, 0, 0, 0, 0x18, 0, 0, 0, 18, 0, 0, 0, 8, 0, 0, 0, 0, 0, 0, 0, 0, 0, 0, 0,
    0x20, 0, 0, 0, r_type, 0, 0, 0, 4, 0, 0, 0] : List Byte).getD i 0

instance (p q : Patch Byte) : Decidable (p.Disjoint q) := inferInstanceAs (Decidable (_ ∨ _))

instance (p : Patch Byte) (i : Nat) : Decidable (p.Covers i) := inferInstanceAs (Decidable (_ ∧ _))

/-- With the type 8 of a relative relocation, and with the type 1 of an absolute one. -/
theorem wellFormed_oneReloc (r_type : Byte) (h : r_type = 8 ∨ r_type = 1) :
    oneReloc.WellFormed 0x1000 (oneRelocImage r_type) := by
  rcases h with rfl | rfl
  · exact ⟨by decide, by decide, by decide +kernel, by decide +kernel, by decide +kernel, by
      decide +kernel, by decide +kernel⟩
  · exact ⟨by decide, by decide, by decide +kernel, by decide +kernel, by decide +kernel, by
      decide +kernel, by decide +kernel⟩

theorem relocate_exact_oneReloc :
    ∃ m', oneReloc.relocate imageStream 0x1000 (oneRelocImage 8) = .ok () m' ∧
    if (0x1000 : Value) = 0 ∧ oneReloc.e_type = 2 then m' = oneRelocImage 8
    else oneReloc.Relocated 0x1000 (oneRelocImage 8) m' :=
  relocate_exact (wellFormed_oneReloc 8 (Or.inl rfl))

/-- An absolute relocation without a symbol changes its target too. -/
theorem not_relocated_only : ¬ ∀ (E : ElfFile) (bias : Value) (m : Image), E.WellFormed bias m →
    ∃ m', E.relocate imageStream bias m = .ok () m' ∧
      ∀ i, (∀ p ∈ E.pointerPatches bias m, ¬ p.Covers i) →
        (∀ r ∈ E.relocs bias m, r.fixup.IsRelative → ¬ (r.patch m bias E.ident.isLE).Covers i) →
        m'.byte i = m.byte i := by
  intro h
  have hwf := wellFormed_oneReloc 1 (Or.inr rfl)
  obtain ⟨m', hrun, hrest⟩ := h oneReloc 0x1000 (oneRelocImage 1) hwf
  rw [relocate_image hwf (by decide)] at hrun
  cases hrun
  have hbyte := hrest 0x21 (by decide +kernel) (by decide +kernel)
  exact absurd hbyte (by decide +kernel)

end Diana.Elf
