import Diana.Orthia.Floating
import Diana.Lib.OrdMap

/-!
# Discovery of floating code

`CollectFloatingRegions` goes through the references that leave a module, in the order the database
gives them, and then through the import and export slots of the module. A target in a known floating
module adds an entry there; a target in a region that the pass made adds an entry there; for any
other the process is asked about its memory, and a region is made of an executable allocation that
no module overlaps.

* `collect`: the pass;
* `stepAt`: the pass as one base address sees it, `Inv.run` that it is the same.
-/

namespace Diana.Orthia.Collect

open Diana.Lib

/-- `c_maxNewRegions` -/
def maxNewRegions : Nat := 1024

/-- `oui::MemoryRegionInfo` -/
structure MemoryRegionInfo where
  allocationBase : Address
  allocationSize : Address
  regionBase : Address
  regionSize : Address
  protect : Int
  committed : Bool
  type : Int
  mappedName : List Byte
  deriving DecidableEq, Repr

/-- `protect & protect_exec` -/
def MemoryRegionInfo.exec (r : MemoryRegionInfo) : Bool := r.protect / 4 % 2 = 1

/-- What the pass asks of a process. The memory map is made of pages; a region is the part of an
allocation around an address with one protection. -/
structure ProcessMemory where
  /-- `QueryMemoryRegion` -/
  query : Address → Option MemoryRegionInfo
  /-- `IsZeroFilled` -/
  zeroFilled : Address → Bool
  /-- `FingerprintFloatingRegion`: the header, the hash and the hashed size of an allocation -/
  fingerprint : (base size : Address) → List Byte × Address × Address
  page : ∀ {a b : Address}, a.val / 0x1000 = b.val / 0x1000 → query a = query b
  same_region : ∀ {a b r}, query a = some r → b - r.regionBase < r.regionSize → query b = some r
  mem_allocation : ∀ {a r}, query a = some r → r.allocationSize ≠ 0 →
    a - r.allocationBase < r.allocationSize
  allocation_le : ∀ {a r}, query a = some r →
    r.allocationBase.val + r.allocationSize.val ≤ 2 ^ 64
  same_allocation : ∀ {a b r}, query a = some r → b - r.allocationBase < r.allocationSize →
    ∃ r', query b = some r' ∧ r'.allocationBase = r.allocationBase ∧
      r'.allocationSize = r.allocationSize

/-- `ModuleInfo`; a floating module has its region. -/
structure ModuleInfo where
  address : Address
  lastValidAddress : Address
  size : Address
  floating : Option FloatingRegionInfo

def ModuleInfo.isInRange (m : ModuleInfo) (a : Address) : Bool :=
  m.address ≤ a ∧ a ≤ m.lastValidAddress

/-- The modules of a process: they do not overlap, and a floating module is the allocation of its
region, as `MakeFloatingModule` makes it. -/
structure Modules where
  list : List ModuleInfo
  le : ∀ m ∈ list, m.address ≤ m.lastValidAddress
  apart : list.Pairwise fun m m' =>
    m.lastValidAddress < m'.address ∨ m'.lastValidAddress < m.address
  floating : ∀ m ∈ list, ∀ k ∈ m.floating, k.WellFormed ∧ k.allocationBase = m.address ∧
    k.allocationBase.val + k.allocationSize.val = m.lastValidAddress.val + 1

/-- `FindModule` -/
def findModule (sorted : List ModuleInfo) (a : Address) : Option ModuleInfo :=
  (sorted.takeWhile fun m => m.address ≤ a).getLast?.filter fun m => m.isInRange a

/-- `OverlapsModule` -/
def overlapsModule (sorted : List ModuleInfo) (base size : Address) : Bool :=
  sorted.any fun m => m.address ≤ base + size - 1 ∧ base ≤ m.lastValidAddress

/-- A reference, or a slot with what it holds. -/
structure Event where
  refFrom : Address
  refTo : Address
  kind : ReferenceKind
  slot : Option PointerSlotInfo
  deriving DecidableEq, Repr

/-- `ModuleReference` -/
structure ModuleReference where
  refFrom : Address
  refTo : Address
  kind : ReferenceKind
  deriving DecidableEq, Repr

def ModuleReference.event (r : ModuleReference) : Event :=
  { refFrom := r.refFrom, refTo := r.refTo, kind := r.kind, slot := none }

def slotEvent (s : PointerSlotInfo) : Event :=
  { refFrom := s.slot, refTo := s.value, kind := .unknown, slot := some s }

/-- What the pass goes through: the references, then the slots. -/
def events (refs : List ModuleReference) (slots : List PointerSlotInfo) : List Event :=
  refs.map ModuleReference.event ++ slots.map slotEvent

/-- The call that adds an event to its region. -/
def Event.call (ev : Event) : FloatingRegionInfo.Call :=
  match ev.slot with
  | some s => .slot ev.refTo s
  | none => .reference ev.refTo ev.refFrom ev.kind

/-- The sets are sorted vectors. -/
structure State where
  regions : OrdMap Address FloatingRegionInfo := .empty
  changed : List Address := []
  toAnalyze : List Address := []
  created : List Address := []
  /-- what the OS said no to: base and size -/
  rejected : List (Address × Address) := []

/-- What the pass works on. -/
structure Input where
  process : ProcessMemory
  modules : Modules
  source : ModuleInfo

namespace Input

variable (input : Input)

def sorted : List ModuleInfo :=
  input.modules.list.mergeSort fun a b => a.address ≤ b.address

/-- `findNew` -/
def findNew (s : State) (a : Address) : Option (Address × FloatingRegionInfo) :=
  (s.regions.entries.takeWhile fun e => e.1 ≤ a).getLast?.filter fun e =>
    a - e.2.allocationBase < e.2.allocationSize

/-- `addReference`, on the region with the key `key`. -/
def addReference (s : State) (key : Address) (info : FloatingRegionInfo) (ev : Event) : State :=
  let added := ev.call.run info
  { s with
    regions := s.regions.set key added.region
    changed := if added.changed then SortedVec.put id info.allocationBase s.changed else s.changed
    toAnalyze :=
      if added.newEntry then SortedVec.put id info.allocationBase s.toAnalyze else s.toAnalyze }

/-- The region made of an allocation. -/
def newRegion (r : MemoryRegionInfo) : FloatingRegionInfo :=
  { allocationBase := r.allocationBase, allocationSize := r.allocationSize, protect := r.protect
    type := r.type, mappedName := r.mappedName }

/-- The part of `consider` that asks the process. -/
def discover (s : State) (ev : Event) : State :=
  match input.process.query ev.refTo with
  | none => { s with rejected := s.rejected ++ [(ev.refTo - ev.refTo % 0x1000, 0x1000)] }
  | some r =>
    if r.allocationSize = 0 then
      { s with rejected := s.rejected ++ [(ev.refTo - ev.refTo % 0x1000, 0x1000)] }
    else if !r.committed || !r.exec ||
        overlapsModule input.sorted r.allocationBase r.allocationSize then
      { s with rejected := s.rejected ++ [(r.regionBase, r.regionSize)] }
    else if maxNewRegions ≤ s.created.length then s
    else
      let s := { s with created := SortedVec.put id r.allocationBase s.created }
      addReference s r.allocationBase (newRegion r) ev

/-- `consider` -/
def consider (s : State) (ev : Event) : State :=
  -- only what leaves the module
  if ev.refTo = 0 ∨ ev.kind = .data ∨ !input.source.isInRange ev.refFrom ∨
      input.source.isInRange ev.refTo then s
  else
    match findModule input.sorted ev.refTo with
    | some owner =>
      match owner.floating with
      | none => s
      | some k =>
        if input.process.zeroFilled ev.refTo then s
        else addReference s owner.address ((s.regions.find owner.address).getD k) ev
    | none =>
      if input.process.zeroFilled ev.refTo then s
      else
        match findNew s ev.refTo with
        | some (key, info) => addReference s key info ev
        | none =>
          if s.rejected.any fun r => ev.refTo - r.1 < r.2 then s
          else input.discover s ev

def run (s : State) (events : List Event) : State := events.foldl input.consider s

end Input

/-- `FloatingDiscovery` -/
structure FloatingDiscovery where
  changed : List FloatingRegionInfo
  toAnalyze : List Address
  deriving DecidableEq, Repr

namespace Input

variable (input : Input)

/-- `FingerprintFloatingRegion` on a region that the pass made. -/
def fingerprint (s : State) (base : Address) (info : FloatingRegionInfo) : FloatingRegionInfo :=
  if base ∈ s.created then
    let f := input.process.fingerprint info.allocationBase info.allocationSize
    { info with header := f.1, bytesHash := f.2.1, hashedSize := f.2.2 }
  else info

def discovery (s : State) : FloatingDiscovery where
  changed := s.changed.filterMap fun base => (s.regions.find base).map (input.fingerprint s base)
  toAnalyze := s.toAnalyze

/-- `CollectFloatingRegions` with the references that the database has of the source. -/
def collect (refs : List ModuleReference) (slots : List PointerSlotInfo) : FloatingDiscovery :=
  if input.source.size = 0 then { changed := [], toAnalyze := [] }
  else input.discovery (input.run {} (events refs slots))

end Input

/-! ## Addresses in a range -/

theorem sub_lt_iff {a base size : Address} (h : base.val + size.val ≤ 2 ^ 64) :
    a - base < size ↔ base ≤ a ∧ a.val < base.val + size.val := by
  have ha := a.isLt
  have hb := base.isLt
  rw [Fin.lt_def, Fin.sub_def, Fin.le_def]
  show (2 ^ 64 - base.val + a.val) % 2 ^ 64 < size.val ↔ _
  omega

theorem val_last {base size : Address} (h : base.val + size.val ≤ 2 ^ 64) (hs : size ≠ 0) :
    (base + size - 1).val = base.val + size.val - 1 := by
  have hb := base.isLt
  have hs' : 0 < size.val := Fin.pos_of_ne_zero hs
  have h1 : (1 : Address).val = 1 := rfl
  rw [Fin.sub_def, Fin.add_def]
  show (2 ^ 64 - (1 : Address).val + (base.val + size.val) % 2 ^ 64) % 2 ^ 64 = _
  omega

/-- The addresses that the rejection of a page stands for. -/
theorem same_page {a t : Address} (h : a - (t - t % 0x1000) < 0x1000) :
    a.val / 0x1000 = t.val / 0x1000 := by
  have ha := a.isLt
  have ht := t.isLt
  have h1 : ((0x1000 : Address)).val = 0x1000 := rfl
  have hm : (t % 0x1000).val = t.val % 0x1000 := rfl
  have hv : (t - t % 0x1000).val = t.val - t.val % 0x1000 := by
    rw [Fin.sub_def]
    show (2 ^ 64 - (t % 0x1000).val + t.val) % 2 ^ 64 = _
    omega
  rw [Fin.lt_def, Fin.sub_def] at h
  change (2 ^ 64 - (t - t % 0x1000).val + a.val) % 2 ^ 64 < (0x1000 : Address).val at h
  omega

/-! ## Owners -/

namespace Input

variable (input : Input)

theorem mem_sorted {m : ModuleInfo} : m ∈ input.sorted ↔ m ∈ input.modules.list :=
  (List.mergeSort_perm _ _).mem_iff

/-- The sorted modules are one after the other. -/
theorem pairwise_sorted : input.sorted.Pairwise fun m m' => m.lastValidAddress < m'.address := by
  have hle : input.sorted.Pairwise fun m m' => decide (m.address ≤ m'.address) = true :=
    List.pairwise_mergeSort
      (fun a b c hab hbc => decide_eq_true
        ((of_decide_eq_true hab).trans (of_decide_eq_true hbc)))
      (fun a b => by simpa using le_total a.address b.address) _
  have hap : input.sorted.Pairwise fun m m' =>
      m.lastValidAddress < m'.address ∨ m'.lastValidAddress < m.address :=
    ((List.mergeSort_perm _ _).pairwise_iff fun h => h.symm).2 input.modules.apart
  refine (hle.and hap).imp_of_mem fun {m m'} hm hm' h => ?_
  rcases h.2 with h2 | h2
  · exact h2
  · have h1 : m.address ≤ m'.address := of_decide_eq_true h.1
    have h3 := input.modules.le m' (input.mem_sorted.1 hm')
    exact absurd (h1.trans h3) h2.not_ge

theorem sorted_sorted : SortedVec.Sorted ModuleInfo.address input.sorted :=
  input.pairwise_sorted.imp_of_mem fun hm _ h =>
    lt_of_le_of_lt (input.modules.le _ (input.mem_sorted.1 hm)) h

/-- `FindModule` finds the module that owns the address. -/
theorem findModule_eq_some {a : Address} {m : ModuleInfo} :
    findModule input.sorted a = some m ↔ m ∈ input.modules.list ∧ m.isInRange a := by
  unfold findModule
  rw [Option.filter_eq_some_iff, SortedVec.getLast?_takeWhile_le input.sorted_sorted,
    input.mem_sorted]
  constructor
  · rintro ⟨⟨hm, -, -⟩, hr⟩
    exact ⟨hm, hr⟩
  · rintro ⟨hm, hr⟩
    have hra : m.address ≤ a ∧ a ≤ m.lastValidAddress := of_decide_eq_true hr
    refine ⟨⟨hm, hra.1, fun b hb hba => ?_⟩, hr⟩
    -- a module after `m` starts after the last address of `m`
    by_contra hlt
    rcases rel_of_pairwise input.pairwise_sorted (input.mem_sorted.2 hm) hb with rfl | h | h
    · exact hlt (le_refl _)
    · exact absurd (hra.2.trans_lt h) hba.not_gt
    · exact hlt ((input.modules.le b (input.mem_sorted.1 hb)).trans h.le)

/-- The memory of an address, when its allocation is one that no module overlaps. -/
def allocOf (a : Address) : Option MemoryRegionInfo :=
  (input.process.query a).filter fun r =>
    r.allocationSize ≠ 0 ∧ !overlapsModule input.sorted r.allocationBase r.allocationSize

variable {input}

theorem allocOf_eq_some {a : Address} {r : MemoryRegionInfo} :
    input.allocOf a = some r ↔ input.process.query a = some r ∧ r.allocationSize ≠ 0 ∧
      overlapsModule input.sorted r.allocationBase r.allocationSize = false := by
  simp [allocOf, Option.filter_eq_some_iff]

theorem allocOf_mem {a : Address} {r : MemoryRegionInfo} (h : input.allocOf a = some r) :
    r.allocationBase ≤ a ∧ a.val < r.allocationBase.val + r.allocationSize.val := by
  obtain ⟨hq, hs, -⟩ := allocOf_eq_some.1 h
  exact (sub_lt_iff (input.process.allocation_le hq)).1 (input.process.mem_allocation hq hs)

/-- The whole allocation is one. -/
theorem allocOf_same {a b : Address} {r : MemoryRegionInfo} (h : input.allocOf a = some r)
    (hb : b - r.allocationBase < r.allocationSize) :
    ∃ r', input.allocOf b = some r' ∧ r'.allocationBase = r.allocationBase ∧
      r'.allocationSize = r.allocationSize := by
  obtain ⟨hq, hs, ho⟩ := allocOf_eq_some.1 h
  obtain ⟨r', hq', hbase, hsize⟩ := input.process.same_allocation hq hb
  exact ⟨r', allocOf_eq_some.2 ⟨hq', by rwa [hsize], by rwa [hbase, hsize]⟩, hbase, hsize⟩

/-- Two allocations with one base have one size. -/
theorem allocOf_size {a a' : Address} {r r' : MemoryRegionInfo} (h : input.allocOf a = some r)
    (h' : input.allocOf a' = some r') (hb : r'.allocationBase = r.allocationBase) :
    r'.allocationSize = r.allocationSize := by
  have hzero : ∀ {a r}, input.allocOf a = some r →
      r.allocationBase - r.allocationBase < r.allocationSize := by
    intro a r h
    obtain ⟨hq, hs, -⟩ := allocOf_eq_some.1 h
    rw [sub_lt_iff (input.process.allocation_le hq)]
    exact ⟨le_refl _, Nat.lt_add_of_pos_right (Fin.pos_of_ne_zero hs)⟩
  obtain ⟨t, ht, -, hsize⟩ := allocOf_same h (hzero h)
  obtain ⟨t', ht', -, hsize'⟩ := allocOf_same h' (hzero h')
  rw [hb, ht, Option.some.injEq] at ht'
  rw [← hsize, ← hsize', ht']

/-- No module has an address of such an allocation. -/
theorem allocOf_disjoint {a : Address} {r : MemoryRegionInfo} (h : input.allocOf a = some r)
    {m : ModuleInfo} (hm : m ∈ input.modules.list) {b : Address} (hb : m.isInRange b) :
    ¬ (r.allocationBase ≤ b ∧ b.val < r.allocationBase.val + r.allocationSize.val) := by
  rintro ⟨h1, h2⟩
  obtain ⟨hq, hs, ho⟩ := allocOf_eq_some.1 h
  have hr : m.address ≤ b ∧ b ≤ m.lastValidAddress := of_decide_eq_true hb
  have hlast := val_last (input.process.allocation_le hq) hs
  have hov : overlapsModule input.sorted r.allocationBase r.allocationSize = true := by
    refine List.any_eq_true.2 ⟨m, input.mem_sorted.2 hm, decide_eq_true ⟨?_, h1.trans hr.2⟩⟩
    rw [Fin.le_def, hlast]
    have := Fin.le_def.1 hr.1
    omega
  rw [ho] at hov
  cases hov

end Input

/-! ## What one base address sees -/

/-- Where an event belongs. -/
inductive Place where
  | skip
  /-- in a known floating module, with its region -/
  | known (k : FloatingRegionInfo)
  /-- in an allocation that no module overlaps -/
  | fresh (r : MemoryRegionInfo)

/-- A region with the flags that the pass keeps for it. -/
structure Tracked where
  info : FloatingRegionInfo
  changed : Bool := false
  newEntry : Bool := false
  deriving DecidableEq

def Tracked.add (t : Tracked) (ev : Event) : Tracked :=
  let added := ev.call.run t.info
  { info := added.region
    changed := t.changed || added.changed
    newEntry := t.newEntry || added.newEntry }

namespace Input

variable (input : Input)

def place (ev : Event) : Place :=
  if ev.refTo = 0 ∨ ev.kind = .data ∨ !input.source.isInRange ev.refFrom ∨
      input.source.isInRange ev.refTo then .skip
  else if input.process.zeroFilled ev.refTo then .skip
  else
    match findModule input.sorted ev.refTo with
    | some owner =>
      match owner.floating with
      | none => .skip
      | some k => .known k
    | none =>
      match input.allocOf ev.refTo with
      | none => .skip
      | some r => .fresh r

/-- An event as the region of one base address sees it. -/
def stepAt (base : Address) (o : Option Tracked) (ev : Event) : Option Tracked :=
  match input.place ev with
  | .skip => o
  | .known k => if k.allocationBase = base then some ((o.getD { info := k }).add ev) else o
  | .fresh r =>
    if r.allocationBase = base then
      match o with
      | some t => some (t.add ev)
      | none =>
        if r.committed && r.exec then some (Tracked.add { info := newRegion r } ev) else none
    else o

end Input

def State.view (s : State) (base : Address) : Option Tracked :=
  (s.regions.find base).map fun info =>
    { info, changed := base ∈ s.changed, newEntry := base ∈ s.toAnalyze }

namespace Input

/-- What holds between two events; `bases` are the allocations that events lead to. -/
structure Inv (input : Input) (bases : List Address) (s : State) : Prop where
  region : ∀ base info, s.regions.find base = some info → info.allocationBase = base ∧
    ((∃ m ∈ input.modules.list, ∃ k, m.floating = some k ∧ k.allocationBase = base ∧
        info.allocationSize = k.allocationSize) ∨
      (∃ a r, input.allocOf a = some r ∧ r.allocationBase = base ∧
        info.allocationSize = r.allocationSize))
  changed : ∀ base ∈ s.changed, (s.regions.find base).isSome
  toAnalyze : ∀ base ∈ s.toAnalyze, (s.regions.find base).isSome
  created : ∀ base ∈ s.created, ∃ a r, input.allocOf a = some r ∧ r.allocationBase = base
  mem_created : ∀ a r, input.allocOf a = some r → (s.regions.find r.allocationBase).isSome →
    r.allocationBase ∈ s.created
  subset : s.created ⊆ bases
  sorted : SortedVec.Sorted id s.changed ∧ SortedVec.Sorted id s.toAnalyze ∧
    SortedVec.Sorted id s.created
  rejected : ∀ p ∈ s.rejected, ∀ a, a - p.1 < p.2 → ∀ r, input.allocOf a = some r →
    (r.committed && r.exec) = false

theorem inv_empty (input : Input) (bases : List Address) : input.Inv bases {} where
  region := nofun
  changed := nofun
  toAnalyze := nofun
  created := nofun
  mem_created := nofun
  subset := nofun
  sorted := ⟨.nil, .nil, .nil⟩
  rejected := nofun

variable {input : Input} {bases : List Address} {s : State}

/-- The region that the pass made before around an address of no module is the one of its
allocation. -/
theorem Inv.findNew_eq (h : input.Inv bases s) {a : Address}
    (ha : findModule input.sorted a = none) :
    findNew s a = (input.allocOf a).bind fun r =>
      (s.regions.find r.allocationBase).map fun info => (r.allocationBase, info) := by
  have hout : ∀ m ∈ input.modules.list, ¬ m.isInRange a := by
    intro m hm hr
    rw [input.findModule_eq_some.2 ⟨hm, hr⟩] at ha
    cases ha
  have hknown : ∀ m ∈ input.modules.list, ∀ k, m.floating = some k →
      ¬ (k.allocationBase ≤ a ∧ a.val < k.allocationBase.val + k.allocationSize.val) := by
    rintro m hm k hk ⟨h1, h2⟩
    obtain ⟨-, hb, hl⟩ := input.modules.floating m hm k hk
    refine hout m hm (decide_eq_true ⟨hb ▸ h1, ?_⟩)
    rw [Fin.le_def]
    omega
  have hsorted : SortedVec.Sorted Prod.fst s.regions.entries := s.regions.sorted
  refine Option.ext fun p => ?_
  obtain ⟨base, info⟩ := p
  unfold findNew
  rw [Option.filter_eq_some_iff, SortedVec.getLast?_takeWhile_le hsorted]
  constructor
  · rintro ⟨⟨hmem, -, -⟩, hin⟩
    have hf := (OrdMap.mem_entries s.regions).1 hmem
    have hin : a - info.allocationBase < info.allocationSize := of_decide_eq_true hin
    obtain ⟨hb, ⟨m, hm, k, hk, hkb, hsize⟩ | ⟨a', r, hr, hrb, hsize⟩⟩ := h.region base info hf
    · have hfl := (input.modules.floating m hm k hk).2
      have hlt := m.lastValidAddress.isLt
      rw [hb, hsize, ← hkb, sub_lt_iff (by omega)] at hin
      exact absurd hin (hknown m hm k hk)
    · rw [hb, hsize, ← hrb] at hin
      obtain ⟨r', hr', hb', -⟩ := allocOf_same hr hin
      rw [hr', Option.bind_some, hb', hrb, hf]
      rfl
  · intro hsome
    obtain ⟨r, hr, hmap⟩ := Option.bind_eq_some_iff.1 hsome
    obtain ⟨info', hf, he⟩ := Option.map_eq_some_iff.1 hmap
    obtain ⟨rfl, rfl⟩ := Prod.mk.inj he
    have hin := allocOf_mem hr
    have hle := input.process.allocation_le (allocOf_eq_some.1 hr).1
    -- the module of a known region would overlap the allocation
    have hnot : ∀ m ∈ input.modules.list, ∀ k, m.floating = some k →
        ¬ (r.allocationBase ≤ k.allocationBase ∧ k.allocationBase ≤ a) := by
      rintro m hm k hk ⟨h1, h2⟩
      obtain ⟨-, hb, -⟩ := input.modules.floating m hm k hk
      have h3 := Fin.le_def.1 h2
      refine allocOf_disjoint hr hm (b := k.allocationBase) ?_ ⟨h1, by omega⟩
      exact decide_eq_true ⟨hb ▸ le_refl _, hb ▸ input.modules.le m hm⟩
    refine ⟨⟨(OrdMap.mem_entries s.regions).2 hf, hin.1, ?_⟩, decide_eq_true ?_⟩
    · rintro ⟨base', info'⟩ hmem hle'
      by_contra hlt
      have hlt : r.allocationBase < base' := not_le.1 hlt
      obtain ⟨-, ⟨m, hm, k, hk, hkb, -⟩ | ⟨a', r', hr', hrb, -⟩⟩ :=
        h.region base' info' ((OrdMap.mem_entries s.regions).1 hmem)
      · subst hkb
        exact hnot m hm k hk ⟨hlt.le, hle'⟩
      · -- the base of another allocation would be inside this one
        have hin' := allocOf_mem hr'
        have h3 : base'.val ≤ a.val := Fin.le_def.1 hle'
        obtain ⟨t, ht, htb, -⟩ := allocOf_same hr (b := base')
          ((sub_lt_iff hle).2 ⟨hlt.le, by omega⟩)
        obtain ⟨t', ht', htb', -⟩ := allocOf_same hr' (b := base') (by
          rw [← hrb, sub_lt_iff (input.process.allocation_le (allocOf_eq_some.1 hr').1)]
          exact ⟨le_refl _, Nat.lt_add_of_pos_right
            (Fin.pos_of_ne_zero (allocOf_eq_some.1 hr').2.1)⟩)
        rw [ht, Option.some.injEq] at ht'
        rw [← hrb, ← htb', ← ht', htb] at hlt
        exact lt_irrefl _ hlt
    · obtain ⟨hb, ⟨m, hm, k, hk, hkb, -⟩ | ⟨a', r', hr', hrb, hsize⟩⟩ := h.region _ _ hf
      · exact absurd ⟨hkb ▸ le_refl _, hkb ▸ hin.1⟩ (hnot m hm k hk)
      · rw [hb, hsize, allocOf_size hr hr' hrb, sub_lt_iff hle]
        exact hin

theorem allocationBase_run (ev : Event) (info : FloatingRegionInfo) :
    (ev.call.run info).region.allocationBase = info.allocationBase ∧
      (ev.call.run info).region.allocationSize = info.allocationSize := by
  unfold Event.call
  cases ev.slot with
  | none => exact ⟨rfl, rfl⟩
  | some slot => exact ⟨rfl, rfl⟩

theorem mem_ite_put {c : Prop} [Decidable c] {a base : Address} {l : List Address} :
    a ∈ (if c then SortedVec.put id base l else l) ↔ (c ∧ a = base) ∨ a ∈ l := by
  split
  · rename_i hc
    rw [SortedVec.mem_put_id, and_iff_right hc]
  · rename_i hc
    simp [hc]

theorem view_addReference {key base : Address} {info : FloatingRegionInfo} {ev : Event}
    (hkey : info.allocationBase = key) :
    (addReference s key info ev).view base =
      if base = key then
        some (Tracked.add { info, changed := key ∈ s.changed, newEntry := key ∈ s.toAnalyze } ev)
      else s.view base := by
  unfold State.view addReference
  by_cases hb : base = key
  · subst hb
    rw [if_pos rfl, OrdMap.find_set_self, Option.map_some, Tracked.add]
    simp only [hkey, mem_ite_put, and_true, Bool.decide_or, Bool.or_comm (decide (base ∈ _)),
      Bool.decide_eq_true]
  · rw [if_neg hb, OrdMap.find_set_of_ne _ hb]
    simp only [hkey, mem_ite_put, hb, and_false, false_or]

theorem Inv.addReference (h : input.Inv bases s) {key : Address} {info : FloatingRegionInfo}
    (ev : Event) (hkey : info.allocationBase = key)
    (hinfo : (∃ m ∈ input.modules.list, ∃ k, m.floating = some k ∧ k.allocationBase = key ∧
        info.allocationSize = k.allocationSize) ∨
      (∃ a r, input.allocOf a = some r ∧ r.allocationBase = key ∧
        info.allocationSize = r.allocationSize))
    (hc : ∀ a r, input.allocOf a = some r → r.allocationBase = key → key ∈ s.created) :
    input.Inv bases (addReference s key info ev) := by
  have hsome : ∀ base, (s.regions.find base).isSome →
      ((s.regions.set key (ev.call.run info).region).find base).isSome := by
    intro base hb
    by_cases he : base = key
    · rw [he, OrdMap.find_set_self]
      rfl
    · rwa [OrdMap.find_set_of_ne _ he]
  have hself : ((s.regions.set key (ev.call.run info).region).find key).isSome := by
    rw [OrdMap.find_set_self]
    rfl
  have hset : ∀ {c : Bool} {l : List Address}, (∀ base ∈ l, (s.regions.find base).isSome) →
      ∀ base ∈ (if c then SortedVec.put id info.allocationBase l else l),
        ((s.regions.set key (ev.call.run info).region).find base).isSome := by
    intro c l hl base hb
    rcases mem_ite_put.1 hb with ⟨-, rfl⟩ | hb
    · rw [hkey]
      exact hself
    · exact hsome base (hl base hb)
  have hput : ∀ {c : Bool} {l : List Address}, SortedVec.Sorted id l →
      SortedVec.Sorted id (if c then SortedVec.put id info.allocationBase l else l) := by
    intro c l hl
    split
    · exact hl.put _
    · exact hl
  refine ⟨?_, hset h.changed, hset h.toAnalyze, h.created, ?_, h.subset,
    ⟨hput h.sorted.1, hput h.sorted.2.1, h.sorted.2.2⟩, h.rejected⟩
  · intro base info' hf
    by_cases he : base = key
    · have hf : (s.regions.set key (ev.call.run info).region).find base = some info' := hf
      rw [he, OrdMap.find_set_self, Option.some.injEq] at hf
      rw [he, ← hf, (allocationBase_run ev info).1, (allocationBase_run ev info).2]
      exact ⟨hkey, hinfo⟩
    · exact h.region base info' ((OrdMap.find_set_of_ne _ he _).symm.trans hf)
  · intro a r hr hf
    by_cases he : r.allocationBase = key
    · rw [he]
      exact hc a r hr he
    · have hf : ((s.regions.set key (ev.call.run info).region).find r.allocationBase).isSome := hf
      rw [OrdMap.find_set_of_ne _ he] at hf
      exact h.mem_created a r hr hf

/-- The flags of a region that is not there are not set. -/
theorem Inv.view_getD (h : input.Inv bases s) (base : Address) (k : FloatingRegionInfo) :
    (s.view base).getD { info := k } =
      { info := (s.regions.find base).getD k, changed := base ∈ s.changed
        newEntry := base ∈ s.toAnalyze } := by
  unfold State.view
  cases hf : s.regions.find base with
  | some info => rfl
  | none =>
    have hnone : ∀ {l : List Address}, (∀ base ∈ l, (s.regions.find base).isSome) → base ∉ l := by
      intro l hl hb
      have := hl base hb
      rw [hf] at this
      cases this
    simp [hnone h.changed, hnone h.toAnalyze]

/-- A step on a known region. -/
theorem Inv.consider_known (h : input.Inv bases s) (ev : Event) {m : ModuleInfo}
    (hm : m ∈ input.modules.list) {k : FloatingRegionInfo} (hk : m.floating = some k) :
    input.Inv bases (Input.addReference s m.address ((s.regions.find m.address).getD k) ev) ∧
      ∀ base, (Input.addReference s m.address ((s.regions.find m.address).getD k) ev).view base =
        if k.allocationBase = base then some (((s.view base).getD { info := k }).add ev)
        else s.view base := by
  obtain ⟨-, hkb, -⟩ := input.modules.floating m hm k hk
  have hkey : ((s.regions.find m.address).getD k).allocationBase = m.address := by
    cases hf : s.regions.find m.address with
    | none => exact hkb
    | some info => exact (h.region _ _ hf).1
  refine ⟨h.addReference ev hkey ?_ ?_, fun base => ?_⟩
  · cases hf : s.regions.find m.address with
    | none => exact .inl ⟨m, hm, k, hk, hkb, rfl⟩
    | some info => exact (h.region _ _ hf).2
  · intro a r hr hb
    refine absurd ?_ (allocOf_disjoint hr hm (b := m.address)
      (decide_eq_true ⟨le_refl _, input.modules.le m hm⟩))
    exact ⟨hb.le, by
      rw [← hb]
      exact Nat.lt_add_of_pos_right (Fin.pos_of_ne_zero (allocOf_eq_some.1 hr).2.1)⟩
  · rw [view_addReference hkey, hkb]
    by_cases he : base = m.address
    · rw [if_pos he, if_pos he.symm, he, h.view_getD]
    · rw [if_neg he, if_neg (Ne.symm he)]

theorem length_created (h : input.Inv bases s) : s.created.length ≤ bases.length := by
  have hnd : s.created.Nodup :=
    h.sorted.2.2.imp fun {a b} hab (e : a = b) => absurd hab (e ▸ lt_irrefl _)
  exact (List.subperm_of_subset hnd h.subset).length_le

/-- A step that asks the process. -/
theorem Inv.discover (h : input.Inv bases s) (hlen : bases.length < maxNewRegions) (ev : Event)
    (hbases : ∀ r, input.allocOf ev.refTo = some r → (r.committed && r.exec) = true →
      r.allocationBase ∈ bases)
    (hnew : ∀ r, input.allocOf ev.refTo = some r → s.regions.find r.allocationBase = none) :
    input.Inv bases (input.discover s ev) ∧
      ∀ base, (input.discover s ev).view base =
        match input.allocOf ev.refTo with
        | none => s.view base
        | some r =>
          if r.allocationBase = base ∧ (r.committed && r.exec) = true then
            some (Tracked.add { info := newRegion r } ev)
          else s.view base := by
  have hreject : ∀ p : Address × Address,
      (∀ a, a - p.1 < p.2 → ∀ r, input.allocOf a = some r → (r.committed && r.exec) = false) →
      input.Inv bases { s with rejected := s.rejected ++ [p] } := by
    intro p hp
    refine { h with rejected := fun q hq => ?_ }
    rcases List.mem_append.1 hq with hq | hq
    · exact h.rejected q hq
    · rw [List.mem_singleton.1 hq]
      exact hp
  unfold Input.discover
  cases hq : input.process.query ev.refTo with
  | none =>
    have hnone : input.allocOf ev.refTo = none := by rw [allocOf, hq]; rfl
    refine ⟨hreject _ fun a ha r hr => ?_, fun base => ?_⟩
    · have hqa := (allocOf_eq_some.1 hr).1
      rw [input.process.page (same_page ha), hq] at hqa
      cases hqa
    · rw [hnone]
      rfl
  | some r =>
    by_cases hz : r.allocationSize = 0
    · have hnone : input.allocOf ev.refTo = none := by
        rw [allocOf, hq]
        simp [Option.filter, hz]
      simp only [hz, if_true]
      refine ⟨hreject _ fun a ha r' hr => ?_, fun base => ?_⟩
      · obtain ⟨hqa, hs, -⟩ := allocOf_eq_some.1 hr
        rw [input.process.page (same_page ha), hq, Option.some.injEq] at hqa
        exact absurd (hqa ▸ hz) hs
      · rw [hnone]
        rfl
    · simp only [hz, if_false]
      have hover : ∀ r', input.allocOf ev.refTo = some r' → r' = r ∧
          overlapsModule input.sorted r.allocationBase r.allocationSize = false := by
        intro r' hr
        obtain ⟨hqa, -, ho⟩ := allocOf_eq_some.1 hr
        rw [hq, Option.some.injEq] at hqa
        exact ⟨hqa.symm, hqa ▸ ho⟩
      by_cases hbad : (!r.committed || !r.exec ||
          overlapsModule input.sorted r.allocationBase r.allocationSize) = true
      · have hnot : overlapsModule input.sorted r.allocationBase r.allocationSize = false →
            (r.committed && r.exec) = false := by
          intro ho
          rw [ho, Bool.or_false] at hbad
          revert hbad
          cases r.committed <;> cases r.exec <;> simp
        simp only [hbad, if_true]
        refine ⟨hreject _ fun a ha r' hr => ?_, fun base => ?_⟩
        · obtain ⟨hqa, -, ho⟩ := allocOf_eq_some.1 hr
          rw [input.process.same_region hq ha, Option.some.injEq] at hqa
          rw [← hqa] at ho ⊢
          exact hnot ho
        · cases hr : input.allocOf ev.refTo with
          | none => rfl
          | some r' =>
            obtain ⟨rfl, ho⟩ := hover r' hr
            show s.view base = if _ then _ else _
            rw [if_neg fun hc => by simp [hnot ho] at hc]
      · obtain ⟨hgood, ho⟩ : (r.committed && r.exec) = true ∧
            overlapsModule input.sorted r.allocationBase r.allocationSize = false := by
          revert hbad
          cases r.committed <;> cases r.exec <;> simp
        have hr : input.allocOf ev.refTo = some r := allocOf_eq_some.2 ⟨hq, hz, ho⟩
        have hcap : ¬ maxNewRegions ≤ s.created.length :=
          Nat.not_le.2 (Nat.lt_of_le_of_lt (length_created h) hlen)
        have hnone := hnew r hr
        rw [Bool.not_eq_true] at hbad
        simp only [hbad, Bool.false_eq_true, if_false, hcap, hr]
        have hinv : input.Inv bases
            { s with created := SortedVec.put id r.allocationBase s.created } := by
          refine { h with created := ?_, mem_created := ?_, subset := ?_, sorted := ?_ }
          · intro base hb
            rcases SortedVec.mem_put_id.1 hb with rfl | hb
            · exact ⟨ev.refTo, r, hr, rfl⟩
            · exact h.created base hb
          · exact fun a r' hr' hf => SortedVec.mem_put_id.2 (.inr (h.mem_created a r' hr' hf))
          · intro base hb
            rcases SortedVec.mem_put_id.1 hb with rfl | hb
            · exact hbases r hr hgood
            · exact h.subset hb
          · exact ⟨h.sorted.1, h.sorted.2.1, h.sorted.2.2.put _⟩
        refine ⟨hinv.addReference ev rfl (.inr ⟨ev.refTo, r, hr, rfl, rfl⟩)
          fun _ _ _ _ => SortedVec.mem_put_id.2 (.inl rfl), fun base => ?_⟩
        have hflags := hinv.view_getD r.allocationBase (newRegion r)
        have hview : State.view { s with created := SortedVec.put id r.allocationBase s.created }
            r.allocationBase = none := by
          unfold State.view
          rw [show s.regions.find r.allocationBase = none from hnone]
          rfl
        rw [hview, Option.getD_none] at hflags
        rw [view_addReference (show (newRegion r).allocationBase = r.allocationBase from rfl)]
        by_cases he : base = r.allocationBase
        · subst he
          rw [if_pos rfl, if_pos ⟨rfl, hgood⟩, hflags, hnone]
          rfl
        · rw [if_neg he, if_neg fun hc => he hc.1.symm]
          rfl

/-- One event, as each base address sees it. -/
theorem Inv.consider (h : input.Inv bases s) (hlen : bases.length < maxNewRegions) (ev : Event)
    (hbases : ∀ r, input.place ev = .fresh r → (r.committed && r.exec) = true →
      r.allocationBase ∈ bases) :
    input.Inv bases (input.consider s ev) ∧
      ∀ base, (input.consider s ev).view base = input.stepAt base (s.view base) ev := by
  unfold Input.consider Input.stepAt Input.place
  by_cases hskip : ev.refTo = 0 ∨ ev.kind = .data ∨ !input.source.isInRange ev.refFrom ∨
      input.source.isInRange ev.refTo
  · rw [if_pos hskip, if_pos hskip]
    exact ⟨h, fun _ => rfl⟩
  · rw [if_neg hskip, if_neg hskip]
    cases hown : findModule input.sorted ev.refTo with
    | some m =>
      obtain ⟨hm, -⟩ := input.findModule_eq_some.1 hown
      by_cases hzero : input.process.zeroFilled ev.refTo = true
      · simp only [hzero, if_true]
        cases m.floating <;> exact ⟨h, fun _ => rfl⟩
      · simp only [hzero, Bool.false_eq_true, if_false]
        cases hk : m.floating with
        | none => exact ⟨h, fun _ => rfl⟩
        | some k => exact h.consider_known ev hm hk
    | none =>
      by_cases hzero : input.process.zeroFilled ev.refTo = true
      · simp only [hzero, if_true]
        exact ⟨h, fun _ => trivial⟩
      · simp only [hzero, Bool.false_eq_true, if_false]
        rw [h.findNew_eq hown]
        have hplace : ∀ r, input.allocOf ev.refTo = some r → input.place ev = .fresh r := by
          intro r hr
          unfold Input.place
          rw [if_neg hskip, if_neg hzero, hown]
          simp only [hr]
        cases hr : input.allocOf ev.refTo with
        | none =>
          rw [Option.bind_none]
          simp only
          split
          · exact ⟨h, fun _ => rfl⟩
          · have hd := h.discover hlen ev (by simp [hr]) (by simp [hr])
            rw [hr] at hd
            exact hd
        | some r =>
          rw [Option.bind_some]
          cases hf : s.regions.find r.allocationBase with
          | some info =>
            obtain ⟨hkey, hinfo⟩ := h.region _ _ hf
            refine ⟨h.addReference ev hkey hinfo fun a r' hr' hb => ?_, fun base => ?_⟩
            · rw [← hb]
              refine h.mem_created a r' hr' ?_
              rw [hb, hf]
              rfl
            · simp only [Option.map_some]
              rw [view_addReference hkey]
              by_cases he : base = r.allocationBase
              · subst he
                rw [if_pos rfl, if_pos rfl, State.view, hf]
                rfl
              · rw [if_neg he, if_neg (Ne.symm he)]
          | none =>
            have hview : s.view r.allocationBase = none := by
              rw [State.view, hf]
              rfl
            rw [Option.map_none]
            simp only
            split
            · rename_i hrej
              obtain ⟨p, hp, hin⟩ := List.any_eq_true.1 hrej
              have hbad := h.rejected p hp ev.refTo (of_decide_eq_true hin) r hr
              refine ⟨h, fun base => ?_⟩
              by_cases he : r.allocationBase = base
              · subst he
                rw [if_pos rfl, hview]
                simp [hbad]
              · rw [if_neg he]
            · have hd := h.discover hlen ev
                (fun r' hr' hg => hbases r' (hplace r' hr') hg) (by
                  intro r' hr'
                  rw [hr, Option.some.injEq] at hr'
                  rw [← hr', hf])
              refine ⟨hd.1, fun base => ?_⟩
              rw [hd.2 base, hr]
              simp only
              by_cases he : r.allocationBase = base
              · subst he
                rw [if_pos rfl, hview]
                simp only [true_and]
              · rw [if_neg he, if_neg fun hc => he hc.1]

/-- A run of events, as each base address sees it. -/
theorem Inv.run (h : input.Inv bases s) (hlen : bases.length < maxNewRegions) {events : List Event}
    (hbases : ∀ ev ∈ events, ∀ r, input.place ev = .fresh r → (r.committed && r.exec) = true →
      r.allocationBase ∈ bases) :
    input.Inv bases (input.run s events) ∧
      ∀ base, (input.run s events).view base = events.foldl (input.stepAt base) (s.view base) := by
  induction events generalizing s with
  | nil => exact ⟨h, fun _ => rfl⟩
  | cons ev events ih =>
    obtain ⟨hinv, hview⟩ := h.consider hlen ev (hbases ev List.mem_cons_self)
    obtain ⟨hinv', hview'⟩ := ih hinv fun ev' hev => hbases ev' (List.mem_cons_of_mem _ hev)
    refine ⟨hinv', fun base => ?_⟩
    show (input.run (input.consider s ev) events).view base = _
    rw [hview', hview, List.foldl_cons]

theorem Inv.mem_changed (h : input.Inv bases s) {base : Address} :
    base ∈ s.changed ↔ ∃ t, s.view base = some t ∧ t.changed = true := by
  unfold State.view
  constructor
  · intro hb
    obtain ⟨info, hf⟩ := Option.isSome_iff_exists.1 (h.changed base hb)
    exact ⟨_, by rw [hf]; rfl, decide_eq_true hb⟩
  · rintro ⟨t, ht, hc⟩
    obtain ⟨info, -, rfl⟩ := Option.map_eq_some_iff.1 ht
    exact of_decide_eq_true hc

theorem Inv.mem_toAnalyze (h : input.Inv bases s) {base : Address} :
    base ∈ s.toAnalyze ↔ ∃ t, s.view base = some t ∧ t.newEntry = true := by
  unfold State.view
  constructor
  · intro hb
    obtain ⟨info, hf⟩ := Option.isSome_iff_exists.1 (h.toAnalyze base hb)
    exact ⟨_, by rw [hf]; rfl, decide_eq_true hb⟩
  · rintro ⟨t, ht, hc⟩
    obtain ⟨info, -, rfl⟩ := Option.map_eq_some_iff.1 ht
    exact of_decide_eq_true hc

theorem view_info (s : State) (base : Address) :
    (s.view base).map Tracked.info = s.regions.find base := by
  unfold State.view
  rw [Option.map_map]
  exact Option.map_id'

theorem Inv.mem_created_iff (h : input.Inv bases s) {base : Address}
    (hf : (s.regions.find base).isSome) :
    base ∈ s.created ↔ ∃ a r, input.allocOf a = some r ∧ r.allocationBase = base := by
  constructor
  · exact h.created base
  · rintro ⟨a, r, hr, rfl⟩
    exact h.mem_created a r hr hf

/-- What the pass returns is what the base addresses see. -/
theorem discovery_ext {s' : State} {bases' : List Address} (h : input.Inv bases s)
    (h' : input.Inv bases' s') (hv : ∀ base, s.view base = s'.view base) :
    input.discovery s = input.discovery s' := by
  have hchanged : s.changed = s'.changed :=
    h.sorted.1.ext_mem h'.sorted.1 fun base => by rw [h.mem_changed, h'.mem_changed, hv]
  have htoAnalyze : s.toAnalyze = s'.toAnalyze :=
    h.sorted.2.1.ext_mem h'.sorted.2.1 fun base => by rw [h.mem_toAnalyze, h'.mem_toAnalyze, hv]
  have hfind : ∀ base, s.regions.find base = s'.regions.find base := fun base => by
    rw [← view_info, ← view_info, hv]
  unfold discovery
  rw [hchanged, htoAnalyze]
  congr 1
  refine List.filterMap_congr fun base _ => ?_
  rw [hfind]
  cases hf : s'.regions.find base with
  | none => rfl
  | some info =>
    have hcreated : base ∈ s.created ↔ base ∈ s'.created := by
      rw [h.mem_created_iff (by rw [hfind, hf]; rfl), h'.mem_created_iff (by rw [hf]; rfl)]
    simp only [Option.map_some, fingerprint, hcreated]

end Input

end Diana.Orthia.Collect
