import Diana.Lib.Copies
import Diana.Orthia.CapturedRegions

/-!
# Reading a saved process

`orthia_saved_process.cpp`: the bytes of a process that has exited, from what its folder keeps. The
mapped files of its modules are copied first, the snapshots of floating code over them, the captured
regions over both.

* `SavedProcess`: the layers and where they stand; `Files` is what the files hold;
* `readExactEx2`: the read;
* `layer`: what an address should read as;
* `readsAsLayers_iff`: the ranges that do.

A module whose first byte is captured is left out altogether, so the rest of it reads as missing
where it was not captured. The mapped file of a module may go on past the module; a range that meets
the module reads that part too. What ends with the address space ends at zero for a copy.
-/

namespace Diana.Orthia

open Diana.Lib
open Folder (Text CapturedRegion)

/-! ## The layers -/

/-- `CSavedProcess::Snapshot`; its bytes are those of the file. -/
structure Snapshot where
  base : Address
  size : Address
  file : List Byte
  deriving DecidableEq

/-- `IImageSource`: the range of a module, and the size of its mapped file when there is one. -/
structure ImageSource where
  base : Address
  size : Address
  image : Option Address
  pos : 0 < size.val
  le : base.val + size.val ≤ 2 ^ 64
  deriving DecidableEq

/-- `CSavedProcess` -/
structure SavedProcess where
  /-- `m_capture.regions`: by base, not overlapping -/
  regions : List CapturedRegion
  regions_apart : regions.Pairwise fun r r' => r.stop ≤ r'.base.val
  /-- `m_sources`: by base, one per module -/
  sources : List ImageSource
  sources_apart : sources.Pairwise fun s s' => s.base.val + s.size.val ≤ s'.base.val
  /-- `m_snapshots`: one per base -/
  snapshots : List Snapshot
  snapshots_distinct : snapshots.Pairwise fun s s' => s.base ≠ s'.base

/-- What the files hold: by their names, a mapped file by the base it is relocated to. -/
structure Files where
  capture : Text → Nat → Byte
  snapshot : List Byte → Nat → Byte
  mapped : Address → Nat → Byte

/-- `GetLastValidAddress` -/
def ImageSource.lastValidAddress (s : ImageSource) : Address := s.base + s.size - 1

/-- `AddSnapshot`, with the size of the allocation: a snapshot of the same base is replaced. -/
def SavedProcess.addSnapshot (p : SavedProcess) (s : Snapshot) (allocationSize : Address) :
    SavedProcess :=
  if s.file = [] ∨ s.size = 0 ∨ allocationSize < s.size then p
  else
    { p with
      snapshots := p.snapshots.filter (fun t => t.base ≠ s.base) ++ [s]
      snapshots_distinct := by
        rw [List.pairwise_append]
        refine ⟨p.snapshots_distinct.filter _, List.pairwise_singleton _ _, fun t ht t' ht' => ?_⟩
        rw [List.mem_singleton.1 ht']
        simpa using (List.mem_filter.1 ht).2 }

/-! ## The read -/

/-- `FindCaptured`: the last region that does not start behind the address. -/
def SavedProcess.findCaptured (p : SavedProcess) (address : Address) : Option CapturedRegion :=
  match (p.regions.takeWhile fun r => r.base ≤ address).getLast? with
  | none => none
  | some r => if address - r.base < r.size then some r else none

def SavedProcess.isCaptured (p : SavedProcess) (address : Address) : Bool :=
  match p.findCaptured address with
  | none => false
  | some r => r.file ≠ Text.empty

/-- `end` of a read -/
def readEnd (offset size : Address) : Address :=
  if offset + size < offset then -1 else offset + size

/-- The part of `size` bytes at `base` between `offset` and `stop`. The sum wraps. -/
def segment (offset stop base size : Address) (data : Nat → Byte) : Segment Byte :=
  ⟨max offset.val base.val, min stop.val (base + size).val, fun a => data (a - base.val)⟩

section

variable (p : SavedProcess) (files : Files) (offset stop : Address)

/-- A turn of the loop over the modules; nothing is `continue`. -/
def SavedProcess.imageSegment (s : ImageSource) : Option (Segment Byte) :=
  if s.base ≥ stop ∨ s.lastValidAddress < offset then none
  -- a captured module needs no file
  else if p.isCaptured s.base then none
  else s.image.map fun size => segment offset stop s.base size (files.mapped s.base)

def Snapshot.segment (s : Snapshot) : Segment Byte :=
  Orthia.segment offset stop s.base s.size (files.snapshot s.file)

/-- A turn of the loop of `CopyCaptured`. -/
def regionSegment (r : CapturedRegion) : Option (Segment Byte) :=
  if r.file = Text.empty then none
  else some (segment offset stop r.base r.size (files.capture r.file))

/-- Where `CopyCaptured` starts: at the last region that does not start behind the range. -/
def SavedProcess.firstCaptured : Nat := (p.regions.takeWhile fun r => r.base ≤ offset).length - 1

/-- The regions that the loop of `CopyCaptured` goes through. -/
def SavedProcess.met : List CapturedRegion :=
  (p.regions.drop (p.firstCaptured offset)).takeWhile fun r => r.base < stop

def copyWith {α : Type} (f : α → Option (Segment Byte)) (c : Copied Byte) (x : α) : Copied Byte :=
  match f x with
  | none => c
  | some s => c.copy s

/-- `CopyCaptured` -/
def SavedProcess.copyCaptured (c : Copied Byte) : Copied Byte :=
  (p.met offset stop).foldl (copyWith (regionSegment files offset stop)) c

/-- `ReadExactEx2`: the status, and the buffer by address. -/
def SavedProcess.readExactEx2 (size : Address) : Nat × (Nat → Byte) :=
  if size = 0 then (1, fun _ => 0)
  else
    let stop := readEnd offset size
    let c := p.sources.foldl (copyWith (p.imageSegment files offset stop)) ⟨false, fun _ => 0⟩
    let c := p.snapshots.foldl (fun c s => c.copy (s.segment files offset stop)) c
    let c := p.copyCaptured files offset stop c
    (if c.found then 0 else 1, c.buffer)

end

/-! ## What an address should read as -/

/-- The region has a file and covers the address. -/
def Folder.CapturedRegion.Has (r : CapturedRegion) (a : Nat) : Prop :=
  r.file ≠ Text.empty ∧ r.base.val ≤ a ∧ a < r.stop

instance (r : CapturedRegion) (a : Nat) : Decidable (r.Has a) :=
  inferInstanceAs (Decidable (_ ∧ _))

section

variable (p : SavedProcess) (files : Files) (offset size : Address) (a : Nat)

/-- The address behind the snapshot. -/
def Snapshot.stop (s : Snapshot) : Nat := s.base.val + s.size.val

def Snapshot.Has (s : Snapshot) : Prop := s.base.val ≤ a ∧ a < s.stop

instance (s : Snapshot) : Decidable (s.Has a) := inferInstanceAs (Decidable (_ ∧ _))

/-- The module covers the address and its mapped file has it. -/
def ImageSource.Has (s : ImageSource) : Prop :=
  s.base.val ≤ a ∧ a ≤ s.lastValidAddress.val ∧ ∃ n ∈ s.image, a < s.base.val + n.val

instance (s : ImageSource) : Decidable (s.Has a) := inferInstanceAs (Decidable (_ ∧ _ ∧ _))

/-- The mapped file has the address, and ends before the address space does. -/
def ImageSource.Maps (s : ImageSource) : Prop :=
  s.base.val ≤ a ∧ ∃ n ∈ s.image, a < s.base.val + n.val ∧ s.base.val + n.val < 2 ^ 64

/-- The first byte of the module is not captured. -/
def SavedProcess.Uncaptured (s : ImageSource) : Prop := ∀ r ∈ p.regions, ¬r.Has s.base.val

instance (s : ImageSource) : Decidable (s.Maps a) := inferInstanceAs (Decidable (_ ∧ ∃ _, _ ∧ _))

instance (s : ImageSource) : Decidable (p.Uncaptured s) :=
  inferInstanceAs (Decidable (∀ r ∈ p.regions, _))

/-- The captured region covering the address. -/
def SavedProcess.regionAt : Option CapturedRegion := p.regions.find? fun r => r.Has a

/-- The snapshot last added that covers the address. -/
def SavedProcess.snapshotAt : Option Snapshot := p.snapshots.reverse.find? fun s => s.Has a

/-- The module covering the address, with its mapped file. -/
def SavedProcess.sourceAt : Option ImageSource := p.sources.find? fun s => s.Has a

/-- The byte of the first of the layers that has the address. -/
def SavedProcess.layer : Option Byte :=
  ((p.regionAt a).map fun r => files.capture r.file (a - r.base.val)).or
    (((p.snapshotAt a).map fun s => files.snapshot s.file (a - s.base.val)).or
      ((p.sourceAt a).map fun s => files.mapped s.base (a - s.base.val)))

def Requested : Prop := offset.val ≤ a ∧ a < offset.val + size.val

/-- The read gives every byte of the range from its layer, zero where there is none, and succeeds
when there is one. -/
def SavedProcess.ReadsAsLayers : Prop :=
  (∀ a, Requested offset size a →
    (p.readExactEx2 files offset size).2 a = (p.layer files a).getD 0) ∧
  ((p.readExactEx2 files offset size).1 = 0 ↔
    ∃ a, Requested offset size a ∧ (p.layer files a).isSome = true)

/-- No layer of the byte ends with the address space, and the byte is not left to a module that is
not asked for it and does not come from behind one. -/
structure SavedProcess.ClearAt : Prop where
  region : ∀ r, p.regionAt a = some r → r.stop < 2 ^ 64
  snapshot : p.regionAt a = none → ∀ s, p.snapshotAt a = some s → s.stop < 2 ^ 64
  source : p.regionAt a = none → p.snapshotAt a = none →
    ∀ s, p.sourceAt a = some s → p.Uncaptured s ∧ s.Maps a
  /-- of the modules that meet the range -/
  behind : p.regionAt a = none → p.snapshotAt a = none → p.sourceAt a = none →
    ∀ s ∈ p.sources, offset ≤ s.lastValidAddress → p.Uncaptured s → ¬s.Maps a

def SavedProcess.Clear : Prop := ∀ a, Requested offset size a → p.ClearAt offset a

end

/-! ## Arithmetic of the address space -/

section

variable {p : SavedProcess} {files : Files} {offset size : Address} {a : Nat}

theorem ImageSource.val_lastValidAddress (s : ImageSource) :
    s.lastValidAddress.val = s.base.val + s.size.val - 1 := by
  have hpos := s.pos
  have hle := s.le
  have hbase := s.base.isLt
  unfold ImageSource.lastValidAddress
  rw [Fin.val_sub, Fin.val_add]
  have hone : (1 : Address).val = 1 := rfl
  omega

/-- A range that ends with the address space is read without its last byte. -/
theorem val_readEnd (h : offset.val + size.val ≤ 2 ^ 64) :
    (readEnd offset size).val = min (offset.val + size.val) (2 ^ 64 - 1) := by
  have hoffset := offset.isLt
  have hsize := size.isLt
  have hsum := Fin.val_add offset size
  have hlast : (-1 : Address).val = 2 ^ 64 - 1 := rfl
  unfold readEnd
  split
  · next hlt =>
    rw [Fin.lt_def] at hlt
    omega
  · next hlt =>
    rw [Fin.lt_def] at hlt
    omega

/-- A sum of two addresses that is behind the first one has not wrapped. -/
theorem lt_val_add {base size : Address} (hbase : base.val ≤ a) :
    a < (base + size).val ↔ a < base.val + size.val ∧ base.val + size.val < 2 ^ 64 := by
  have hb := base.isLt
  have hs := size.isLt
  rw [Fin.val_add]
  omega

/-- What a copy of a read has. -/
theorem segment_at? (h : offset.val + size.val ≤ 2 ^ 64) (ha : Requested offset size a)
    {base len : Address} {data : Nat → Byte} :
    (segment offset (readEnd offset size) base len data).at? a =
      if base.val ≤ a ∧ a < base.val + len.val ∧ base.val + len.val < 2 ^ 64 then
        some (data (a - base.val))
      else none := by
  obtain ⟨hle, hlt⟩ := ha
  unfold segment Segment.at?
  refine if_congr ?_ rfl rfl
  rw [val_readEnd h, Nat.max_le, Nat.lt_min, Nat.lt_min]
  constructor
  · rintro ⟨⟨-, hbase⟩, -, hcov⟩
    exact ⟨hbase, (lt_val_add hbase).1 hcov⟩
  · rintro ⟨hbase, hcov⟩
    exact ⟨⟨hle, hbase⟩, ⟨hlt, by omega⟩, (lt_val_add hbase).2 hcov⟩

/-! ## The captured regions -/

theorem SavedProcess.region_unique {r r' : CapturedRegion} (hr : r ∈ p.regions)
    (hr' : r' ∈ p.regions) (h : r.Holds a) (h' : r'.Holds a) : r = r' := by
  obtain ⟨hle, hlt⟩ := h
  obtain ⟨hle', hlt'⟩ := h'
  rcases rel_of_pairwise p.regions_apart hr hr' with h0 | h0 | h0
  · exact h0
  · omega
  · omega

theorem SavedProcess.source_unique {s s' : ImageSource} (hs : s ∈ p.sources) (hs' : s' ∈ p.sources)
    (h : s.base.val ≤ a ∧ a ≤ s.lastValidAddress.val)
    (h' : s'.base.val ≤ a ∧ a ≤ s'.lastValidAddress.val) : s = s' := by
  have hpos := s.pos
  have hpos' := s'.pos
  rw [ImageSource.val_lastValidAddress] at h h'
  rcases rel_of_pairwise p.sources_apart hs hs' with h0 | h0 | h0
  · exact h0
  · omega
  · omega

/-- A module is named by its base. -/
theorem SavedProcess.source_base_inj {s s' : ImageSource} (hs : s ∈ p.sources)
    (hs' : s' ∈ p.sources) (h : s.base = s'.base) : s = s' := by
  have hpos := s.pos
  have hpos' := s'.pos
  rcases rel_of_pairwise p.sources_apart hs hs' with h0 | h0 | h0
  · exact h0
  · rw [h] at h0
    omega
  · rw [h] at h0
    omega

/-- A snapshot is named by its base. -/
theorem SavedProcess.snapshot_base_inj {s s' : Snapshot} (hs : s ∈ p.snapshots)
    (hs' : s' ∈ p.snapshots) (h : s.base = s'.base) : s = s' := by
  rcases rel_of_pairwise p.snapshots_distinct hs hs' with h0 | h0 | h0
  · exact h0
  · exact absurd h h0
  · exact absurd h.symm h0

/-- `upper_bound` stops behind every region that does not start behind the address. -/
theorem SavedProcess.mem_takeWhile_base {r : CapturedRegion} {address : Address}
    (hr : r ∈ p.regions) (h : r.base ≤ address) :
    r ∈ p.regions.takeWhile fun r => decide (r.base ≤ address) := by
  refine mem_takeWhile_of_pairwise (p.regions_apart.imp ?_) hr (by simpa using h)
  intro x y hxy hy
  rw [decide_eq_true_eq, Fin.le_def] at hy ⊢
  exact (Nat.le_add_right _ _).trans (hxy.trans hy)

/-- The region `CopyCaptured` starts with is not behind one that meets the range. -/
theorem SavedProcess.mem_drop_firstCaptured {r : CapturedRegion} (hr : r ∈ p.regions)
    (h : offset.val < r.stop) : r ∈ p.regions.drop (p.firstCaptured offset) := by
  set k := p.firstCaptured offset with hk
  rw [← List.take_append_drop k p.regions, List.mem_append] at hr
  refine hr.resolve_left fun htake => ?_
  obtain ⟨i, hi, rfl⟩ := List.getElem_of_mem htake
  rw [List.length_take] at hi
  have hlen : k < (p.regions.takeWhile fun r => decide (r.base ≤ offset)).length := by
    rw [hk, SavedProcess.firstCaptured]
    rw [hk, SavedProcess.firstCaptured] at hi
    omega
  have hlast : (p.regions.takeWhile fun r => decide (r.base ≤ offset))[k].base ≤ offset := by
    have hmem := List.mem_takeWhile_imp (List.getElem_mem hlen)
    simpa using hmem
  have hle : k < p.regions.length := lt_of_lt_of_le hlen (List.takeWhile_prefix _).length_le
  have heq : (p.regions.takeWhile fun r => decide (r.base ≤ offset))[k] = p.regions[k] :=
    (List.takeWhile_prefix _).getElem hlen
  have hpair := List.pairwise_iff_getElem.1 p.regions_apart i k (by omega) hle (by omega)
  rw [List.getElem_take] at h
  rw [heq, Fin.le_def] at hlast
  omega

/-- The loop of `CopyCaptured` goes through the regions that meet the range. -/
theorem SavedProcess.mem_met {stop : Address} {r : CapturedRegion} (hr : r ∈ p.regions)
    (h : offset.val < r.stop) (hstop : r.base < stop) : r ∈ p.met offset stop := by
  refine mem_takeWhile_of_pairwise ?_ (mem_drop_firstCaptured hr h) (by simpa using hstop)
  refine (p.regions_apart.sublist (List.drop_sublist _ _)).imp ?_
  intro x y hxy hy
  rw [decide_eq_true_eq, Fin.lt_def] at hy ⊢
  exact lt_of_le_of_lt ((Nat.le_add_right _ _).trans hxy) hy

theorem SavedProcess.mem_of_mem_met {stop : Address} {r : CapturedRegion}
    (h : r ∈ p.met offset stop) : r ∈ p.regions :=
  List.mem_of_mem_drop ((List.takeWhile_prefix _).subset h)

theorem SavedProcess.findCaptured_eq_some {r : CapturedRegion} {address : Address} :
    p.findCaptured address = some r ↔ r ∈ p.regions ∧ r.Holds address.val := by
  have hsub : ∀ {x : CapturedRegion}, x.base ≤ address →
      (address - x.base < x.size ↔ address.val < x.stop) := by
    intro x hx
    have hle := Fin.le_def.1 hx
    rw [Fin.lt_def, Fin.sub_val_of_le hx]
    unfold CapturedRegion.stop
    omega
  unfold SavedProcess.findCaptured
  set before := p.regions.takeWhile fun r => decide (r.base ≤ address) with hbefore
  have hprefix : before <+: p.regions := List.takeWhile_prefix _
  have hbase : ∀ x ∈ before, x.base ≤ address := fun x hx => by
    simpa using List.mem_takeWhile_imp hx
  constructor
  · intro h
    cases hlast : before.getLast? with
    | none => rw [hlast] at h; cases h
    | some x =>
      rw [hlast] at h
      have hx : x ∈ before := List.mem_of_getLast? hlast
      simp only at h
      split at h
      · next hcov =>
        cases h
        exact ⟨List.IsPrefix.subset hprefix hx, hbase r hx, (hsub (hbase r hx)).1 hcov⟩
      · cases h
  · rintro ⟨hr, hle, hlt⟩
    have hmem : r ∈ before := mem_takeWhile_base hr hle
    have hne : before ≠ [] := List.ne_nil_of_mem hmem
    have hsplit := List.dropLast_concat_getLast hne
    have hpair : before.Pairwise fun r r' => r.stop ≤ r'.base.val :=
      p.regions_apart.sublist hprefix.sublist
    -- a region before the last one ends before it starts
    have hlast : before.getLast hne = r := by
      rw [← hsplit, List.mem_append, List.mem_singleton] at hmem
      rcases hmem with hmem | hmem
      · rw [← hsplit, List.pairwise_append] at hpair
        have hapart := hpair.2.2 r hmem _ (List.mem_singleton_self _)
        have hstart := Fin.le_def.1 (hbase _ (List.getLast_mem hne))
        omega
      · exact hmem.symm
    rw [List.getLast?_eq_some_getLast hne, hlast]
    exact if_pos ((hsub hle).2 hlt)

theorem SavedProcess.isCaptured_iff {address : Address} :
    p.isCaptured address = true ↔ ∃ r ∈ p.regions, r.Has address.val := by
  unfold SavedProcess.isCaptured
  constructor
  · intro h
    cases hf : p.findCaptured address with
    | none => rw [hf] at h; cases h
    | some r =>
      rw [hf] at h
      obtain ⟨hr, hcov⟩ := findCaptured_eq_some.1 hf
      exact ⟨r, hr, by simpa using h, hcov⟩
  · rintro ⟨r, hr, hfile, hcov⟩
    rw [findCaptured_eq_some.2 ⟨hr, hcov⟩]
    simpa using hfile

theorem SavedProcess.uncaptured_iff {s : ImageSource} :
    p.Uncaptured s ↔ p.isCaptured s.base = false := by
  rw [← Bool.not_eq_true, isCaptured_iff]
  unfold SavedProcess.Uncaptured
  push Not
  exact Iff.rfl

/-! ## The layers by their parts -/

theorem SavedProcess.regionAt_eq_some {r : CapturedRegion} :
    p.regionAt a = some r ↔ r ∈ p.regions ∧ r.Has a := by
  constructor
  · intro h
    exact ⟨List.mem_of_find?_eq_some h, by simpa using List.find?_some h⟩
  · rintro ⟨hr, hhas⟩
    cases hf : p.regionAt a with
    | none => exact absurd hhas (by simpa using List.find?_eq_none.1 hf r hr)
    | some x =>
      have hx : x.Has a := by simpa using List.find?_some hf
      rw [region_unique (List.mem_of_find?_eq_some hf) hr hx.2 hhas.2]

theorem SavedProcess.sourceAt_eq_some {s : ImageSource} :
    p.sourceAt a = some s ↔ s ∈ p.sources ∧ s.Has a := by
  constructor
  · intro h
    exact ⟨List.mem_of_find?_eq_some h, by simpa using List.find?_some h⟩
  · rintro ⟨hs, hhas⟩
    cases hf : p.sourceAt a with
    | none => exact absurd hhas (by simpa using List.find?_eq_none.1 hf s hs)
    | some x =>
      have hx : x.Has a := by simpa using List.find?_some hf
      rw [source_unique (List.mem_of_find?_eq_some hf) hs ⟨hx.1, hx.2.1⟩ ⟨hhas.1, hhas.2.1⟩]

/-- A snapshot that is added comes before the others. -/
theorem SavedProcess.snapshotAt_addSnapshot {s : Snapshot} {allocationSize : Address}
    (hfile : s.file ≠ []) (hsize : s.size ≠ 0) (hle : s.size ≤ allocationSize) :
    (p.addSnapshot s allocationSize).snapshotAt a =
      if s.Has a then some s else
        (p.snapshots.filter fun t => t.base ≠ s.base).reverse.find? fun t => t.Has a := by
  have hadd : ¬(s.file = [] ∨ s.size = 0 ∨ allocationSize < s.size) := by
    rintro (h | h | h)
    · exact hfile h
    · exact hsize h
    · exact absurd hle (not_le.2 h)
  rw [SavedProcess.addSnapshot, if_neg hadd, SavedProcess.snapshotAt, List.reverse_append,
    List.reverse_singleton, List.singleton_append, List.find?_cons]
  by_cases h : s.Has a <;> simp [h]

/-! ## The copies, layer by layer -/

theorem foldl_copyWith {α : Type} (f : α → Option (Segment Byte)) (xs : List α) (c : Copied Byte) :
    xs.foldl (copyWith f) c = (xs.filterMap f).foldl Copied.copy c := by
  induction xs generalizing c with
  | nil => rfl
  | cons x xs ih =>
    rw [List.foldl_cons, ih, copyWith]
    cases hx : f x with
    | none => rw [List.filterMap_cons_none hx]
    | some s => rw [List.filterMap_cons_some hx, List.foldl_cons]

variable (p files offset size) in
/-- The copies of a read, in their order. -/
def SavedProcess.segments : List (Segment Byte) :=
  p.sources.filterMap (p.imageSegment files offset (readEnd offset size)) ++
    (p.snapshots.map (·.segment files offset (readEnd offset size)) ++
      (p.met offset (readEnd offset size)).filterMap
        (regionSegment files offset (readEnd offset size)))

/-- What a captured region gives to a read. -/
theorem regionSegment_at? (h : offset.val + size.val ≤ 2 ^ 64) (ha : Requested offset size a)
    (r : CapturedRegion) :
    ((regionSegment files offset (readEnd offset size) r).bind (·.at? a)) =
      if r.Has a ∧ r.stop < 2 ^ 64 then some (files.capture r.file (a - r.base.val)) else none := by
  unfold regionSegment
  by_cases hfile : r.file = Text.empty
  · rw [if_pos hfile, if_neg fun hhas => hhas.1.1 hfile]
    rfl
  · rw [if_neg hfile, Option.bind_some, segment_at? h ha]
    refine if_congr ⟨fun hcov => ⟨⟨hfile, hcov.1, hcov.2.1⟩, hcov.2.2⟩, fun hhas => ?_⟩ rfl rfl
    exact ⟨hhas.1.2.1, hhas.1.2.2, hhas.2⟩

/-- What a snapshot gives to a read. -/
theorem snapshotSegment_at? (h : offset.val + size.val ≤ 2 ^ 64) (ha : Requested offset size a)
    (s : Snapshot) :
    (s.segment files offset (readEnd offset size)).at? a =
      if s.Has a ∧ s.stop < 2 ^ 64 then some (files.snapshot s.file (a - s.base.val))
      else none := by
  unfold Snapshot.segment
  rw [segment_at? h ha]
  exact if_congr and_assoc.symm rfl rfl

/-- What a module gives to a read. -/
theorem SavedProcess.imageSegment_at? (h : offset.val + size.val ≤ 2 ^ 64)
    (ha : Requested offset size a) (s : ImageSource) :
    ((p.imageSegment files offset (readEnd offset size) s).bind (·.at? a)) =
      if offset ≤ s.lastValidAddress ∧ p.Uncaptured s ∧ s.Maps a then
        some (files.mapped s.base (a - s.base.val))
      else none := by
  unfold SavedProcess.imageSegment
  by_cases hmeet : s.base ≥ readEnd offset size ∨ s.lastValidAddress < offset
  · rw [if_pos hmeet, if_neg]
    · rfl
    · rintro ⟨hlast, -, hbase, n, -, hlt, hend⟩
      rcases hmeet with hstop | hbehind
      · have hle := Fin.le_def.1 hstop
        have hrange := ha.2
        rw [val_readEnd h] at hle
        omega
      · exact absurd hlast (not_le.2 hbehind)
  rw [if_neg hmeet]
  push Not at hmeet
  by_cases hcap : p.isCaptured s.base = true
  · rw [if_pos hcap, if_neg]
    · rfl
    · rintro ⟨-, hfree, -⟩
      rw [uncaptured_iff.1 hfree] at hcap
      cases hcap
  rw [if_neg hcap]
  have hfree : p.Uncaptured s := uncaptured_iff.2 (by simpa using hcap)
  cases himage : s.image with
  | none =>
    rw [if_neg]
    · rfl
    · rintro ⟨-, -, -, n, hn, -⟩
      rw [himage] at hn
      cases hn
  | some n =>
    rw [Option.map_some, Option.bind_some, segment_at? h ha]
    refine if_congr ?_ rfl rfl
    constructor
    · rintro ⟨hbase, hlt, hend⟩
      exact ⟨hmeet.2, hfree, hbase, n, himage, hlt, hend⟩
    · rintro ⟨-, -, hbase, k, hk, hlt, hend⟩
      rw [himage] at hk
      cases hk
      exact ⟨hbase, hlt, hend⟩

theorem SavedProcess.lastAt_captured_none (h : offset.val + size.val ≤ 2 ^ 64)
    (ha : Requested offset size a) (hnone : p.regionAt a = none) :
    lastAt ((p.met offset (readEnd offset size)).filterMap
      (regionSegment files offset (readEnd offset size))) a = none := by
  rw [lastAt_filterMap, List.findSome?_eq_none_iff]
  intro r hr
  rw [regionSegment_at? h ha]
  refine if_neg fun hhas => ?_
  rw [regionAt_eq_some.2 ⟨mem_of_mem_met (List.mem_reverse.1 hr), hhas.1⟩] at hnone
  cases hnone

theorem SavedProcess.lastAt_captured_some (h : offset.val + size.val ≤ 2 ^ 64)
    (ha : Requested offset size a) {r : CapturedRegion} (hr : p.regionAt a = some r)
    (hstop : r.stop < 2 ^ 64) :
    lastAt ((p.met offset (readEnd offset size)).filterMap
      (regionSegment files offset (readEnd offset size))) a =
      some (files.capture r.file (a - r.base.val)) := by
  obtain ⟨hmem, hhas⟩ := regionAt_eq_some.1 hr
  obtain ⟨hle, hlt⟩ := ha
  obtain ⟨-, hbase, hcov⟩ := hhas
  have hmet : r ∈ p.met offset (readEnd offset size) := by
    refine mem_met hmem (by omega) ?_
    rw [Fin.lt_def, val_readEnd h]
    omega
  rw [lastAt_filterMap]
  refine findSome?_eq_of_unique (List.mem_reverse.2 hmet) ?_ fun y hy hsome => ?_
  · rw [regionSegment_at? h ⟨hle, hlt⟩, if_pos ⟨(regionAt_eq_some.1 hr).2, hstop⟩]
  · rw [regionSegment_at? h ⟨hle, hlt⟩] at hsome ⊢
    have hy' : y.Has a ∧ y.stop < 2 ^ 64 := by
      by_contra hn
      rw [if_neg hn] at hsome
      cases hsome
    rw [if_pos hy', region_unique (mem_of_mem_met (List.mem_reverse.1 hy)) hmem hy'.1.2
      ⟨hbase, hcov⟩]

theorem SavedProcess.lastAt_snapshots_none (h : offset.val + size.val ≤ 2 ^ 64)
    (ha : Requested offset size a) (hnone : p.snapshotAt a = none) :
    lastAt (p.snapshots.map (·.segment files offset (readEnd offset size))) a = none := by
  rw [lastAt, ← List.map_reverse, List.findSome?_map, List.findSome?_eq_none_iff]
  intro s hs
  rw [Function.comp_apply, snapshotSegment_at? h ha]
  refine if_neg fun hhas => ?_
  exact absurd hhas.1 (by simpa using List.find?_eq_none.1 hnone s hs)

theorem SavedProcess.lastAt_snapshots_some (h : offset.val + size.val ≤ 2 ^ 64)
    (ha : Requested offset size a) {s : Snapshot} (hs : p.snapshotAt a = some s)
    (hstop : s.stop < 2 ^ 64) :
    lastAt (p.snapshots.map (·.segment files offset (readEnd offset size))) a =
      some (files.snapshot s.file (a - s.base.val)) := by
  obtain ⟨hhas, later, earlier, heq, hlater⟩ := List.find?_eq_some_iff_append.1 hs
  rw [lastAt, ← List.map_reverse, List.findSome?_map, heq, List.findSome?_append,
    List.findSome?_eq_none_iff.2, Option.none_or, List.findSome?_cons, Function.comp_apply,
    snapshotSegment_at? h ha, if_pos ⟨by simpa using hhas, hstop⟩]
  intro t ht
  rw [Function.comp_apply, snapshotSegment_at? h ha]
  exact if_neg fun hhas => absurd hhas.1 (by simpa using hlater t ht)

theorem SavedProcess.lastAt_images_none (h : offset.val + size.val ≤ 2 ^ 64)
    (ha : Requested offset size a) (hnone : ∀ s ∈ p.sources, offset ≤ s.lastValidAddress →
      p.Uncaptured s → ¬s.Maps a) :
    lastAt (p.sources.filterMap (p.imageSegment files offset (readEnd offset size))) a = none := by
  rw [lastAt_filterMap, List.findSome?_eq_none_iff]
  intro s hs
  rw [imageSegment_at? h ha]
  exact if_neg fun hhas => hnone s (List.mem_reverse.1 hs) hhas.1 hhas.2.1 hhas.2.2

/-- The modules behind the one that covers the address start behind it. -/
theorem SavedProcess.lastAt_images_some (h : offset.val + size.val ≤ 2 ^ 64)
    (ha : Requested offset size a) {s : ImageSource} (hs : p.sourceAt a = some s)
    (hfree : p.Uncaptured s) (hmaps : s.Maps a) :
    lastAt (p.sources.filterMap (p.imageSegment files offset (readEnd offset size))) a =
      some (files.mapped s.base (a - s.base.val)) := by
  obtain ⟨hmem, -, hlast, -⟩ := sourceAt_eq_some.1 hs
  have hmeet : offset ≤ s.lastValidAddress := Fin.le_def.2 (ha.1.trans hlast)
  obtain ⟨pre, post, hsplit⟩ := List.append_of_mem hmem
  have hpost : ∀ t ∈ post, ¬t.Maps a := by
    intro t ht hmapsT
    have hpair := p.sources_apart
    rw [hsplit, List.pairwise_append, List.pairwise_cons] at hpair
    have hapart := hpair.2.1.1 t ht
    have hstart := hmapsT.1
    have hpos := s.pos
    rw [ImageSource.val_lastValidAddress] at hlast
    omega
  rw [lastAt_filterMap, hsplit, List.reverse_append, List.reverse_cons, List.append_assoc,
    List.findSome?_append, List.findSome?_eq_none_iff.2, Option.none_or, List.singleton_append,
    List.findSome?_cons, imageSegment_at? h ha, if_pos ⟨hmeet, hfree, hmaps⟩]
  intro t ht
  rw [imageSegment_at? h ha]
  exact if_neg fun hhas => hpost t (List.mem_reverse.1 ht) hhas.2.2

/-! ## The read -/

/-- The read, by the last copy of every address. -/
theorem SavedProcess.readExactEx2_eq (h0 : size ≠ 0) :
    p.readExactEx2 files offset size =
      (if (p.segments files offset size).any (fun s => decide (s.start < s.stop)) then 0 else 1,
        fun a => (lastAt (p.segments files offset size) a).getD 0) := by
  have hcopies : p.copyCaptured files offset (readEnd offset size)
      (p.snapshots.foldl (fun c s => c.copy (s.segment files offset (readEnd offset size)))
        (p.sources.foldl (copyWith (p.imageSegment files offset (readEnd offset size)))
          ⟨false, fun _ => 0⟩)) =
      (p.segments files offset size).foldl Copied.copy ⟨false, fun _ => 0⟩ := by
    rw [SavedProcess.copyCaptured, foldl_copyWith, foldl_copyWith, SavedProcess.segments,
      List.foldl_append, List.foldl_append, List.foldl_map]
  unfold SavedProcess.readExactEx2
  rw [if_neg h0]
  simp only [hcopies, foldl_copy_found, Bool.false_or]
  exact congrArg (Prod.mk _) (funext fun a => foldl_copy_buffer _ _ _)

/-- A copy of a read is in the range. -/
theorem SavedProcess.inRange_of_lastAt (h : offset.val + size.val ≤ 2 ^ 64)
    (hsome : (lastAt (p.segments files offset size) a).isSome = true) :
    Requested offset size a := by
  obtain ⟨s, hs, hstart, hstop⟩ := lastAt_isSome.1 hsome
  have hseg : ∀ base len data, s = segment offset (readEnd offset size) base len data →
      Requested offset size a := by
    rintro base len data rfl
    have hend := lt_of_lt_of_le hstop (Nat.min_le_left _ _)
    rw [val_readEnd h] at hend
    exact ⟨le_trans (Nat.le_max_left _ _) hstart, by omega⟩
  simp only [SavedProcess.segments, List.mem_append, List.mem_filterMap, List.mem_map] at hs
  rcases hs with ⟨x, -, hx⟩ | ⟨x, -, hx⟩ | ⟨x, -, hx⟩
  · unfold SavedProcess.imageSegment at hx
    split_ifs at hx
    obtain ⟨n, -, rfl⟩ := Option.map_eq_some_iff.1 hx
    exact hseg _ _ _ rfl
  · exact hseg _ _ _ hx.symm
  · unfold regionSegment at hx
    split_ifs at hx
    cases hx
    exact hseg _ _ _ rfl

/-- The layers of the code, one over the other. -/
theorem SavedProcess.lastAt_segments :
    lastAt (p.segments files offset size) a =
      (lastAt ((p.met offset (readEnd offset size)).filterMap
        (regionSegment files offset (readEnd offset size))) a).or
        ((lastAt (p.snapshots.map (·.segment files offset (readEnd offset size))) a).or
          (lastAt (p.sources.filterMap (p.imageSegment files offset (readEnd offset size))) a)) :=
  by
  rw [SavedProcess.segments, lastAt_append, lastAt_append, Option.or_assoc]

/-- A byte that is clear is read from its layer. -/
theorem SavedProcess.lastAt_of_clearAt (h : offset.val + size.val ≤ 2 ^ 64)
    (ha : Requested offset size a) (hclear : p.ClearAt offset a) :
    lastAt (p.segments files offset size) a = p.layer files a := by
  rw [lastAt_segments, SavedProcess.layer]
  cases hregion : p.regionAt a with
  | some r =>
    rw [lastAt_captured_some h ha hregion (hclear.region r hregion)]
    rfl
  | none =>
    rw [lastAt_captured_none h ha hregion]
    cases hsnapshot : p.snapshotAt a with
    | some s =>
      rw [lastAt_snapshots_some h ha hsnapshot (hclear.snapshot hregion s hsnapshot)]
      rfl
    | none =>
      rw [lastAt_snapshots_none h ha hsnapshot]
      cases hsource : p.sourceAt a with
      | some s =>
        obtain ⟨hfree, hmaps⟩ := hclear.source hregion hsnapshot s hsource
        rw [lastAt_images_some h ha hsource hfree hmaps]
        rfl
      | none =>
        rw [lastAt_images_none h ha (hclear.behind hregion hsnapshot hsource)]
        rfl

/-- What a range that is clear reads as. -/
theorem SavedProcess.readsAsLayers_of_clear (h : offset.val + size.val ≤ 2 ^ 64)
    (hclear : p.Clear offset size) : p.ReadsAsLayers files offset size := by
  by_cases h0 : size = 0
  · subst h0
    have hempty : ∀ a, ¬Requested offset 0 a := fun a ha => by
      have hle := ha.1
      have hlt := ha.2
      simp only [Fin.val_zero] at hlt
      omega
    refine ⟨fun a ha => absurd ha (hempty a), iff_of_false (by simp [SavedProcess.readExactEx2]) ?_⟩
    rintro ⟨a, ha, -⟩
    exact hempty a ha
  have hlayer : ∀ a, Requested offset size a →
      lastAt (p.segments files offset size) a = p.layer files a :=
    fun a ha => lastAt_of_clearAt h ha (hclear a ha)
  rw [SavedProcess.ReadsAsLayers, readExactEx2_eq h0]
  refine ⟨fun a ha => congrArg (·.getD 0) (hlayer a ha), ?_⟩
  have hfound := any_start_lt_stop (p.segments files offset size)
  split_ifs with hany
  · obtain ⟨a, ha⟩ := hfound.1 hany
    have hr := inRange_of_lastAt h ha
    exact iff_of_true rfl ⟨a, hr, hlayer a hr ▸ ha⟩
  · refine iff_of_false (by decide) ?_
    rintro ⟨a, hr, ha⟩
    exact hany (hfound.2 ⟨a, (hlayer a hr).symm ▸ ha⟩)

/-! ## The ranges that are not clear -/

/-- The byte that is read at an address comes from a layer that has it and does not end with the
address space. -/
theorem SavedProcess.of_lastAt_eq_some (h : offset.val + size.val ≤ 2 ^ 64)
    (ha : Requested offset size a) {b : Byte}
    (hb : lastAt (p.segments files offset size) a = some b) :
    (∃ r, p.regionAt a = some r ∧ r.stop < 2 ^ 64 ∧ b = files.capture r.file (a - r.base.val)) ∨
      (∃ s ∈ p.snapshots, s.stop < 2 ^ 64 ∧ b = files.snapshot s.file (a - s.base.val) ∧ s.Has a) ∨
      ∃ s ∈ p.sources, p.Uncaptured s ∧ s.Maps a ∧ b = files.mapped s.base (a - s.base.val) := by
  rw [lastAt_segments, Option.or_eq_some_iff, Option.or_eq_some_iff, lastAt_filterMap,
    lastAt_filterMap] at hb
  rcases hb with hb | ⟨-, hb | ⟨-, hb⟩⟩
  · obtain ⟨r, hr, hval⟩ := List.exists_of_findSome?_eq_some hb
    rw [regionSegment_at? h ha] at hval
    split at hval
    · next hhas =>
      have hmem : r ∈ p.regions := mem_of_mem_met (List.mem_reverse.1 hr)
      cases hval
      exact .inl ⟨r, regionAt_eq_some.2 ⟨hmem, hhas.1⟩, hhas.2, rfl⟩
    · cases hval
  · rw [lastAt, ← List.map_reverse, List.findSome?_map] at hb
    obtain ⟨s, hs, hval⟩ := List.exists_of_findSome?_eq_some hb
    rw [Function.comp_apply, snapshotSegment_at? h ha] at hval
    split at hval
    · next hhas =>
      cases hval
      exact .inr (.inl ⟨s, List.mem_reverse.1 hs, hhas.2, rfl, hhas.1⟩)
    · cases hval
  · obtain ⟨s, hs, hval⟩ := List.exists_of_findSome?_eq_some hb
    rw [imageSegment_at? h ha] at hval
    split at hval
    · next hhas =>
      cases hval
      exact .inr (.inr ⟨s, List.mem_reverse.1 hs, hhas.2.1, hhas.2.2, rfl⟩)
    · cases hval

/-- Where the byte of the layer is one, so is the byte that is read. -/
theorem SavedProcess.ReadsAsLayers.lastAt_eq_one (hread : p.ReadsAsLayers files offset size)
    (ha : Requested offset size a) (hlayer : p.layer files a = some 1) :
    lastAt (p.segments files offset size) a = some 1 := by
  have h0 : size ≠ 0 := by
    rintro rfl
    have hle := ha.1
    have hlt := ha.2
    simp only [Fin.val_zero] at hlt
    omega
  have hbuffer := hread.1 a ha
  rw [readExactEx2_eq h0, hlayer, Option.getD_some] at hbuffer
  simp only at hbuffer
  cases hlast : lastAt (p.segments files offset size) a with
  | none =>
    rw [hlast] at hbuffer
    exact absurd hbuffer (by decide)
  | some b =>
    rw [hlast, Option.getD_some] at hbuffer
    rw [hbuffer]

/-- Captures full of ones; the other files are full of zeros. -/
def Files.ofCapture : Files := ⟨fun _ _ => 1, fun _ _ => 0, fun _ _ => 0⟩

/-- A one at one place of one snapshot. -/
def Files.ofSnapshot (file : List Byte) (i : Nat) : Files :=
  ⟨fun _ _ => 0, fun file' i' => if file' = file ∧ i' = i then 1 else 0, fun _ _ => 0⟩

/-- The mapped file of one module is full of ones. -/
def Files.ofMapped (base : Address) : Files :=
  ⟨fun _ _ => 0, fun _ _ => 0, fun base' _ => if base' = base then 1 else 0⟩

theorem zero_ne_one_byte : ¬(1 : Byte) = 0 := by decide

theorem SavedProcess.stop_lt_of_region (h : offset.val + size.val ≤ 2 ^ 64)
    (ha : Requested offset size a) (hread : p.ReadsAsLayers .ofCapture offset size)
    {r : CapturedRegion} (hr : p.regionAt a = some r) : r.stop < 2 ^ 64 := by
  have hlayer : p.layer .ofCapture a = some 1 := by
    rw [SavedProcess.layer, hr]
    rfl
  rcases of_lastAt_eq_some h ha (hread.lastAt_eq_one ha hlayer) with
    ⟨r', hr', hstop, -⟩ | ⟨s, -, -, hb, -⟩ | ⟨s, -, -, -, hb⟩
  · rw [hr] at hr'
    cases hr'
    exact hstop
  · exact absurd hb zero_ne_one_byte
  · exact absurd hb zero_ne_one_byte

theorem SavedProcess.stop_lt_of_snapshot (h : offset.val + size.val ≤ 2 ^ 64)
    (ha : Requested offset size a) (hregion : p.regionAt a = none) {s : Snapshot}
    (hs : p.snapshotAt a = some s)
    (hread : p.ReadsAsLayers (.ofSnapshot s.file (a - s.base.val)) offset size) :
    s.stop < 2 ^ 64 := by
  have hone : (Files.ofSnapshot s.file (a - s.base.val)).snapshot s.file (a - s.base.val) = 1 :=
    if_pos ⟨rfl, rfl⟩
  have hlayer : p.layer (.ofSnapshot s.file (a - s.base.val)) a = some 1 := by
    rw [SavedProcess.layer, hregion, hs, Option.map_none, Option.none_or, Option.map_some, hone]
    rfl
  have hmem : s ∈ p.snapshots := List.mem_reverse.1 (List.mem_of_find?_eq_some hs)
  have hhas : s.Has a := by simpa using List.find?_some hs
  rcases of_lastAt_eq_some h ha (hread.lastAt_eq_one ha hlayer) with
    ⟨r', -, -, hb⟩ | ⟨t, ht, hstop, hb, hhasT⟩ | ⟨t, -, -, -, hb⟩
  · exact absurd hb zero_ne_one_byte
  · -- the bases of two snapshots differ, and with them the places in the file
    have hplace : t.file = s.file ∧ a - t.base.val = a - s.base.val := by
      by_contra hn
      exact zero_ne_one_byte (hb.trans (if_neg hn))
    have hle := hhas.1
    have hle' := hhasT.1
    have hbase : t.base = s.base := Fin.ext (by omega)
    rwa [← snapshot_base_inj ht hmem hbase]
  · exact absurd hb zero_ne_one_byte

theorem SavedProcess.asked_of_source (h : offset.val + size.val ≤ 2 ^ 64)
    (ha : Requested offset size a) (hregion : p.regionAt a = none)
    (hsnapshot : p.snapshotAt a = none) {s : ImageSource} (hs : p.sourceAt a = some s)
    (hread : p.ReadsAsLayers (.ofMapped s.base) offset size) : p.Uncaptured s ∧ s.Maps a := by
  have hone : (Files.ofMapped s.base).mapped s.base (a - s.base.val) = 1 := if_pos rfl
  have hlayer : p.layer (.ofMapped s.base) a = some 1 := by
    rw [SavedProcess.layer, hregion, hsnapshot, hs, Option.map_none, Option.none_or,
      Option.map_none, Option.none_or, Option.map_some, hone]
  rcases of_lastAt_eq_some h ha (hread.lastAt_eq_one ha hlayer) with
    ⟨r', -, -, hb⟩ | ⟨t, -, -, hb, -⟩ | ⟨t, ht, hfree, hmaps, hb⟩
  · exact absurd hb zero_ne_one_byte
  · exact absurd hb zero_ne_one_byte
  · have hbase : t.base = s.base := by
      by_contra hn
      exact zero_ne_one_byte (hb.trans (if_neg hn))
    rw [← source_base_inj ht (sourceAt_eq_some.1 hs).1 hbase]
    exact ⟨hfree, hmaps⟩

/-- Every file is full of ones: the byte behind a module is read as one. -/
theorem SavedProcess.not_maps_behind (h : offset.val + size.val ≤ 2 ^ 64)
    (ha : Requested offset size a) (hregion : p.regionAt a = none)
    (hsnapshot : p.snapshotAt a = none) (hsource : p.sourceAt a = none) {s : ImageSource}
    (hs : s ∈ p.sources) (hmeet : offset ≤ s.lastValidAddress) (hfree : p.Uncaptured s)
    (hread : p.ReadsAsLayers ⟨fun _ _ => 1, fun _ _ => 1, fun _ _ => 1⟩ offset size) :
    ¬s.Maps a := by
  intro hmaps
  set ones : Files := ⟨fun _ _ => 1, fun _ _ => 1, fun _ _ => 1⟩
  have h0 : size ≠ 0 := by
    rintro rfl
    have hle := ha.1
    have hlt := ha.2
    simp only [Fin.val_zero] at hlt
    omega
  have hbuffer := hread.1 a ha
  rw [readExactEx2_eq h0, SavedProcess.layer, hregion, hsnapshot, hsource] at hbuffer
  change (lastAt (p.segments ones offset size) a).getD 0 = 0 at hbuffer
  have hsome : lastAt (p.segments ones offset size) a ≠ none := by
    intro hnone
    rw [lastAt_segments, Option.or_eq_none_iff, Option.or_eq_none_iff, lastAt_filterMap,
      lastAt_filterMap] at hnone
    have hturn := List.findSome?_eq_none_iff.1 hnone.2.2 s (List.mem_reverse.2 hs)
    rw [imageSegment_at? h ha, if_pos ⟨hmeet, hfree, hmaps⟩] at hturn
    cases hturn
  obtain ⟨b, hb⟩ := Option.ne_none_iff_exists'.1 hsome
  have hone : b = 1 := by
    rcases of_lastAt_eq_some h ha hb with ⟨r', -, -, hb⟩ | ⟨t, -, -, hb, -⟩ | ⟨t, -, -, -, hb⟩
    · exact hb
    · exact hb
    · exact hb
  rw [hb, hone] at hbuffer
  exact zero_ne_one_byte hbuffer

/-- The bytes of a process come from their layers, whatever the files hold, exactly in the ranges
that are clear. -/
theorem SavedProcess.readsAsLayers_iff (h : offset.val + size.val ≤ 2 ^ 64) :
    (∀ files, p.ReadsAsLayers files offset size) ↔ p.Clear offset size := by
  constructor
  · intro hall a ha
    exact
      { region := fun r hr => stop_lt_of_region h ha (hall _) hr
        snapshot := fun hregion s hs => stop_lt_of_snapshot h ha hregion hs (hall _)
        source := fun hregion hsnapshot s hs => asked_of_source h ha hregion hsnapshot hs (hall _)
        behind := fun hregion hsnapshot hsource s hs hmeet hfree =>
          not_maps_behind h ha hregion hsnapshot hsource hs hmeet hfree (hall _) }
  · intro hclear files
    exact readsAsLayers_of_clear h hclear

end

/-- A region with a file, or without one. -/
def capturedPages (base size : Address) (file : Text) : CapturedRegion where
  base := base
  size := size
  allocationBase := base
  protect := 1
  committed := true
  type := 0
  name := Text.empty
  file := file
  missing := 0

/-- `"f"` -/
def someFile : Text := ⟨[102], by decide⟩

/-- A module whose capture was cancelled after its first half. -/
def halfCaptured : SavedProcess where
  regions := [capturedPages 0x1000 0x1000 someFile, capturedPages 0x2000 0x1000 Text.empty]
  regions_apart := by decide
  sources := [⟨0x1000, 0x2000, some 0x2000, by decide, by decide⟩]
  sources_apart := by decide
  snapshots := []
  snapshots_distinct := List.Pairwise.nil

/-- The half that was captured. -/
theorem readsAsLayers_halfCaptured :
    halfCaptured.ReadsAsLayers (.ofMapped 0x1000) 0x1000 0x1000 := by
  have hclear : halfCaptured.Clear 0x1000 0x1000 := by
    intro a ha
    have hle : 0x1000 ≤ a := ha.1
    have hlt : a < 0x1000 + 0x1000 := ha.2
    have hregion : halfCaptured.regionAt a = some (capturedPages 0x1000 0x1000 someFile) :=
      SavedProcess.regionAt_eq_some.2 ⟨List.mem_cons_self, by decide, hle, hlt⟩
    refine ⟨fun r hr => ?_, fun h => ?_, fun h => ?_, fun h => ?_⟩
    · rw [hregion] at hr
      cases hr
      decide
    all_goals
      rw [hregion] at h
      cases h
  exact (SavedProcess.readsAsLayers_iff (by decide)).2 hclear (.ofMapped 0x1000)

/-- The last page of the address space, captured. -/
def lastCaptured : SavedProcess where
  regions := [capturedPages (-0x1000) 0x1000 someFile]
  regions_apart := List.pairwise_singleton _ _
  sources := []
  sources_apart := List.Pairwise.nil
  snapshots := []
  snapshots_distinct := List.Pairwise.nil

/-- The other half: the file of the module has the byte, and the read does not find it. The last
page is not found either. -/
theorem halfCaptured_missing :
    ((halfCaptured.readExactEx2 (.ofMapped 0x1000) 0x2000 1).1 = 1 ∧
      halfCaptured.layer (.ofMapped 0x1000) 0x2000 = some 1 ∧
      ¬halfCaptured.ReadsAsLayers (.ofMapped 0x1000) 0x2000 1) ∧
    (lastCaptured.readExactEx2 .ofCapture (-0x1000) 1).1 = 1 ∧
      lastCaptured.layer .ofCapture 0xFFFFFFFFFFFFF000 = some 1 := by
  have hstatus : (halfCaptured.readExactEx2 (.ofMapped 0x1000) 0x2000 1).1 = 1 := by decide
  have hsource : halfCaptured.sourceAt 0x2000 =
      some ⟨0x1000, 0x2000, some 0x2000, by decide, by decide⟩ :=
    SavedProcess.sourceAt_eq_some.2
      ⟨List.mem_cons_self, by decide, by decide, 0x2000, rfl, by decide⟩
  have hregion : halfCaptured.regionAt 0x2000 = none := by decide
  have hlayer : halfCaptured.layer (.ofMapped 0x1000) 0x2000 = some 1 := by
    rw [SavedProcess.layer, hregion, hsource]
    rfl
  have hlast : lastCaptured.regionAt 0xFFFFFFFFFFFFF000 =
      some (capturedPages (-0x1000) 0x1000 someFile) :=
    SavedProcess.regionAt_eq_some.2 ⟨List.mem_cons_self, by decide, Nat.le_refl _, by decide⟩
  refine ⟨⟨hstatus, hlayer, fun h => ?_⟩, by decide, by rw [SavedProcess.layer, hlast]; rfl⟩
  have hok := h.2.2 ⟨0x2000, ⟨by decide, by decide⟩, by rw [hlayer]; rfl⟩
  rw [hstatus] at hok
  exact absurd hok (by decide)

end Diana.Orthia
