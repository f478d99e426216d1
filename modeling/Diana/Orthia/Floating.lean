import Diana.Orthia.Basic
import Diana.Lib.SortedVec
import Mathlib.Data.Fin.Basic
import Mathlib.Order.Fin.Basic
import Mathlib.Algebra.GroupWithZero.Nat

/-!
# Floating regions

Floating code is executable memory of a process that no loaded module owns. A region is an
allocation of such memory with the entry points found in it; an entry has the instructions that lead
to it, the kind of each reference, and the import slots and export entries that lead to it.
The entries, the referrers of an entry and the slots of an entry are sorted vectors, and the kinds
are a vector in step with the referrers.
-/

namespace Diana.Orthia

open Diana.Lib

/-- `Address_type` -/
abbrev Address := Fin (2 ^ 64)

scoped instance neZero_address : NeZero (2 ^ 64) := ⟨by decide⟩

/-- `ReferenceKind` -/
inductive ReferenceKind where
  | unknown
  | code
  | address
  | data
  deriving DecidableEq, Repr

/-- `PointerSlotInfo::kind_import` and `kind_export` -/
inductive SlotKind where
  | kindImport
  | kindExport
  deriving DecidableEq, Repr

structure PointerSlotInfo where
  slot : Address
  value : Address
  kind : SlotKind
  name : List Byte
  deriving DecidableEq, Repr

structure FloatingEntryInfo where
  address : Address
  referrers : List Address
  referrerKinds : List ReferenceKind
  slots : List PointerSlotInfo
  deriving DecidableEq, Repr

/-- `protect` and `type` are flags and enumerators of `oui::MemoryRegionInfo`. -/
structure FloatingRegionInfo where
  allocationBase : Address := 0
  allocationSize : Address := 0
  protect : Int := 0
  type : Int := 0
  mappedName : List Byte := []
  header : List Byte := []
  bytesHash : Address := 0
  hashedSize : Address := 0
  codeStart : Address := 0
  codeLast : Address := 0
  entries : List FloatingEntryInfo := []
  snapshotFile : List Byte := []
  snapshotSize : Address := 0
  snapshotMissing : Address := 0
  sha256 : List Byte := []
  deriving DecidableEq, Repr

namespace FloatingEntryInfo

def new (address : Address) : FloatingEntryInfo :=
  { address, referrers := [], referrerKinds := [], slots := [] }

/-- `kinds.resize(referrers.size(), reference_unknown)` -/
def resizedKinds (e : FloatingEntryInfo) : List ReferenceKind :=
  e.referrerKinds.take e.referrers.length ++
    List.replicate (e.referrers.length - e.referrerKinds.length) .unknown

/-- What `AddReference` does to the entry, and what it returns. -/
def addReferrer (e : FloatingEntryInfo) (referrer : Address) (kind : ReferenceKind) :
    FloatingEntryInfo × Bool :=
  let kinds := e.resizedKinds
  let index := SortedVec.lowerBound id referrer e.referrers
  if e.referrers[index]? = some referrer then
    -- nothing changes, unless the kind gets known
    if kinds[index]? = some .unknown ∧ kind ≠ .unknown then
      ({ e with referrerKinds := kinds.set index kind }, true)
    else ({ e with referrerKinds := kinds }, false)
  else
    ({ e with
      referrers := e.referrers.insertIdx index referrer
      referrerKinds := kinds.insertIdx index kind }, true)

/-- What `AddSlot` does to the entry, and what it returns. -/
def addSlot (e : FloatingEntryInfo) (slot : PointerSlotInfo) : FloatingEntryInfo × Bool :=
  match SortedVec.find PointerSlotInfo.slot slot.slot e.slots with
  | some s =>
    if s.kind = slot.kind ∧ s.name = slot.name then (e, false)
    else
      let s := { s with kind := slot.kind, name := slot.name }
      ({ e with slots := SortedVec.put PointerSlotInfo.slot s e.slots }, true)
  | none =>
    let stored := { slot with value := e.address }
    ({ e with slots := SortedVec.put PointerSlotInfo.slot stored e.slots }, true)

end FloatingEntryInfo

/-- A region after `AddReference` or `AddSlot`, what the call returned and `*pNewEntry`. -/
structure Added where
  region : FloatingRegionInfo
  changed : Bool
  newEntry : Bool

namespace FloatingRegionInfo

def findEntry (r : FloatingRegionInfo) (address : Address) : Option FloatingEntryInfo :=
  SortedVec.find FloatingEntryInfo.address address r.entries

def hasEntry (r : FloatingRegionInfo) (address : Address) : Bool := (r.findEntry address).isSome

/-- The entry at the address, a new one where there is none, after `f`. -/
def updateEntry (r : FloatingRegionInfo) (address : Address)
    (f : FloatingEntryInfo → FloatingEntryInfo × Bool) : Added :=
  let (e, changed) := f ((r.findEntry address).getD (.new address))
  { region := { r with entries := SortedVec.put FloatingEntryInfo.address e r.entries }
    changed
    newEntry := !r.hasEntry address }

def addReference (r : FloatingRegionInfo) (entry referrer : Address) (kind : ReferenceKind) :
    Added :=
  r.updateEntry entry fun e => e.addReferrer referrer kind

def addSlot (r : FloatingRegionInfo) (entry : Address) (slot : PointerSlotInfo) : Added :=
  r.updateEntry entry fun e => e.addSlot slot

end FloatingRegionInfo

/-! ## Well-formed regions -/

/-- Referrers and slots are sorted and unique, with one kind for each referrer. -/
structure FloatingEntryInfo.WellFormed (e : FloatingEntryInfo) : Prop where
  referrers : e.referrers.Pairwise (· < ·)
  kinds : e.referrerKinds.length = e.referrers.length
  slots : e.slots.Pairwise fun a b => a.slot < b.slot
  /-- A stored slot holds the address of its entry. -/
  values : ∀ s ∈ e.slots, s.value = e.address

structure FloatingRegionInfo.WellFormed (r : FloatingRegionInfo) : Prop where
  entries : r.entries.Pairwise fun a b => a.address < b.address
  entry : ∀ e ∈ r.entries, e.WellFormed

namespace FloatingEntryInfo

variable {e : FloatingEntryInfo} {referrer : Address} {kind : ReferenceKind}
  {slot : PointerSlotInfo}

theorem wellFormed_new (a : Address) : (new a).WellFormed where
  referrers := .nil
  kinds := rfl
  slots := .nil
  values := nofun

/-- The referrers with their kinds. -/
def refs (e : FloatingEntryInfo) : List (Address × ReferenceKind) := e.referrers.zip e.referrerKinds

def withRefs (e : FloatingEntryInfo) (refs : List (Address × ReferenceKind)) : FloatingEntryInfo :=
  { e with referrers := refs.map Prod.fst, referrerKinds := refs.map Prod.snd }

theorem map_fst_refs (h : e.referrerKinds.length = e.referrers.length) :
    e.refs.map Prod.fst = e.referrers := List.map_fst_zip (Nat.le_of_eq h.symm)

theorem map_snd_refs (h : e.referrerKinds.length = e.referrers.length) :
    e.refs.map Prod.snd = e.referrerKinds := List.map_snd_zip (Nat.le_of_eq h)

theorem withRefs_refs (h : e.referrerKinds.length = e.referrers.length) :
    e.withRefs e.refs = e := by
  unfold withRefs
  rw [map_fst_refs h, map_snd_refs h]

@[simp] theorem refs_withRefs (refs : List (Address × ReferenceKind)) :
    (e.withRefs refs).refs = refs := by
  unfold withRefs FloatingEntryInfo.refs
  exact (List.zip_of_prod rfl rfl).symm

theorem resizedKinds_eq (h : e.referrerKinds.length = e.referrers.length) :
    e.resizedKinds = e.referrerKinds := by
  unfold resizedKinds
  rw [h, Nat.sub_self, ← h, List.take_length, List.replicate_zero, List.append_nil]

/-- `AddReference` on the referrers with their kinds: a new pair is put in its place, and a known
kind takes the place of an unknown one. -/
theorem addReferrer_eq (h : e.referrerKinds.length = e.referrers.length) :
    e.addReferrer referrer kind =
      match SortedVec.find Prod.fst referrer e.refs with
      | none => (e.withRefs (SortedVec.put Prod.fst (referrer, kind) e.refs), true)
      | some p =>
        if p.2 = .unknown ∧ kind ≠ .unknown then
          (e.withRefs (SortedVec.put Prod.fst (referrer, kind) e.refs), true)
        else (e, false) := by
  have hf := SortedVec.find_pair referrer e.refs
  rw [map_fst_refs h, map_snd_refs h] at hf
  unfold addReferrer
  simp only [resizedKinds_eq h]
  by_cases hr : e.referrers[SortedVec.lowerBound id referrer e.referrers]? = some referrer
  · rw [if_pos hr] at hf
    have hlt := (List.getElem?_eq_some_iff.1 hr).1
    rw [← h] at hlt
    rw [List.getElem?_eq_getElem hlt, Option.map_some] at hf
    have hp := SortedVec.put_pair_of_find (c := kind) (Option.isSome_iff_exists.2 ⟨_, hf⟩)
    rw [map_fst_refs h, map_snd_refs h] at hp
    rw [if_pos hr, hf, List.getElem?_eq_getElem hlt]
    simp only [Option.some.injEq, withRefs, hp]
  · rw [if_neg hr] at hf
    have hp := SortedVec.put_pair_of_find_none (c := kind) hf
    rw [map_fst_refs h, map_snd_refs h] at hp
    rw [if_neg hr, hf]
    simp only [withRefs, hp]

namespace WellFormed

theorem sorted_refs (h : e.WellFormed) : SortedVec.Sorted Prod.fst e.refs := by
  have := h.referrers
  rwa [← map_fst_refs h.kinds, List.pairwise_map] at this

theorem withRefs (h : e.WellFormed) {refs : List (Address × ReferenceKind)}
    (hs : SortedVec.Sorted Prod.fst refs) : (e.withRefs refs).WellFormed where
  referrers := List.pairwise_map.2 hs
  kinds := by
    show (refs.map Prod.snd).length = (refs.map Prod.fst).length
    rw [List.length_map, List.length_map]
  slots := h.slots
  values := h.values

theorem withSlots (h : e.WellFormed) {slots : List PointerSlotInfo}
    (hs : SortedVec.Sorted PointerSlotInfo.slot slots) (hv : ∀ s ∈ slots, s.value = e.address) :
    { e with slots }.WellFormed where
  referrers := h.referrers
  kinds := h.kinds
  slots := hs
  values := hv

end WellFormed

/-- `AddSlot` puts the slot with the address of the entry as its value. -/
theorem WellFormed.addSlot_eq (h : e.WellFormed) (s : PointerSlotInfo) :
    (e.addSlot s).1 =
      { e with
        slots := SortedVec.put PointerSlotInfo.slot { s with value := e.address } e.slots } := by
  unfold addSlot
  split
  · rename_i t hf
    obtain ⟨hm, hs⟩ := SortedVec.mem_of_find hf
    have ht : { t with kind := s.kind, name := s.name } = { s with value := e.address } := by
      rw [← hs, ← h.values t hm]
    split
    · rename_i hk
      have hput : SortedVec.put PointerSlotInfo.slot { s with value := e.address } e.slots =
          e.slots := by
        refine (SortedVec.put_eq_self_iff h.slots).2 (hf.trans (congrArg some ?_))
        rw [← ht, ← hk.1, ← hk.2]
      rw [hput]
    · rw [ht]
  · rfl

/-- What a call does to an entry: it stays well-formed at its address, and the call returns whether
it changed. -/
structure Kept (e : FloatingEntryInfo) (r : FloatingEntryInfo × Bool) : Prop where
  wellFormed : r.1.WellFormed
  address : r.1.address = e.address
  changed : r.2 = true ↔ r.1 ≠ e

theorem kept_self (h : e.WellFormed) : Kept e (e, false) where
  wellFormed := h
  address := rfl
  changed := by simp

theorem kept_addReferrer (h : e.WellFormed) (referrer : Address) (kind : ReferenceKind) :
    Kept e (e.addReferrer referrer kind) := by
  have hput : ∀ (hne : SortedVec.find Prod.fst referrer e.refs ≠ some (referrer, kind)),
      Kept e (e.withRefs (SortedVec.put Prod.fst (referrer, kind) e.refs), true) := by
    refine fun hne => ⟨h.withRefs (h.sorted_refs.put _), rfl, fun _ he => hne ?_, fun _ => rfl⟩
    have hrefs := congrArg FloatingEntryInfo.refs he
    rw [refs_withRefs] at hrefs
    exact (SortedVec.put_eq_self_iff (b := (referrer, kind)) h.sorted_refs).1 hrefs
  rw [addReferrer_eq h.kinds]
  split
  · rename_i hf
    exact hput (by rw [hf]; exact nofun)
  · rename_i p hf
    split
    · rename_i hk
      refine hput ?_
      rw [hf]
      rintro ⟨⟩
      exact hk.2 hk.1
    · exact kept_self h

theorem kept_addSlot (h : e.WellFormed) : Kept e (e.addSlot slot) := by
  have hput : ∀ s : PointerSlotInfo, s.value = e.address →
      SortedVec.find PointerSlotInfo.slot s.slot e.slots ≠ some s →
      Kept e ({ e with slots := SortedVec.put PointerSlotInfo.slot s e.slots }, true) := by
    refine fun s hv hne => ⟨h.withSlots (SortedVec.Sorted.put h.slots s) fun t ht => ?_, rfl,
      fun _ he => hne ?_, fun _ => rfl⟩
    · rcases SortedVec.mem_put ht with rfl | ht
      · exact hv
      · exact h.values t ht
    · exact (SortedVec.put_eq_self_iff h.slots).1 (congrArg FloatingEntryInfo.slots he)
  unfold addSlot
  split
  · rename_i s hf
    obtain ⟨hm, hs⟩ := SortedVec.mem_of_find hf
    split
    · exact kept_self h
    · rename_i hne
      refine hput _ (h.values s hm) ?_
      show SortedVec.find PointerSlotInfo.slot s.slot e.slots ≠ _
      rw [hs, hf]
      intro he
      rw [Option.some.injEq] at he
      exact hne ⟨(congrArg PointerSlotInfo.kind he :), (congrArg PointerSlotInfo.name he :)⟩
  · rename_i hf
    refine hput _ rfl ?_
    show SortedVec.find PointerSlotInfo.slot slot.slot e.slots ≠ _
    rw [hf]
    exact nofun

end FloatingEntryInfo

namespace FloatingRegionInfo

variable {r : FloatingRegionInfo} {a : Address} {f : FloatingEntryInfo → FloatingEntryInfo × Bool}

theorem mem_of_findEntry {e : FloatingEntryInfo} (h : r.findEntry a = some e) :
    e ∈ r.entries ∧ e.address = a := SortedVec.mem_of_find h

theorem WellFormed.findEntry_getD (h : r.WellFormed) :
    ((r.findEntry a).getD (.new a)).WellFormed ∧ ((r.findEntry a).getD (.new a)).address = a := by
  cases hf : r.findEntry a with
  | none => exact ⟨FloatingEntryInfo.wellFormed_new a, rfl⟩
  | some e =>
    obtain ⟨hm, ha⟩ := mem_of_findEntry hf
    exact ⟨h.entry e hm, ha⟩

/-- A call on an entry keeps the region well-formed and returns whether it changed. -/
theorem updateEntry_spec (h : r.WellFormed)
    (hf : ∀ e : FloatingEntryInfo, e.WellFormed → FloatingEntryInfo.Kept e (f e))
    (hnew : (f (.new a)).2 = true) :
    (r.updateEntry a f).region.WellFormed ∧
      ((r.updateEntry a f).changed = true ↔ (r.updateEntry a f).region ≠ r) := by
  obtain ⟨hw, ha⟩ := h.findEntry_getD (a := a)
  have hk := hf _ hw
  refine ⟨⟨SortedVec.Sorted.put h.entries _, fun e he => ?_⟩, ?_⟩
  · rcases SortedVec.mem_put he with rfl | he
    · exact hk.wellFormed
    · exact h.entry e he
  · have hsame : (r.updateEntry a f).region = r ↔
        r.findEntry a = some (f ((r.findEntry a).getD (.new a))).1 := by
      have hput := SortedVec.put_eq_self_iff (b := (f ((r.findEntry a).getD (.new a))).1) h.entries
      rw [hk.address, ha] at hput
      refine Iff.trans ⟨fun e => congrArg entries e, fun e => ?_⟩ hput
      show { r with entries := (r.updateEntry a f).region.entries } = r
      rw [e]
    rw [ne_eq, hsame]
    show (f ((r.findEntry a).getD (.new a))).2 = true ↔ _
    cases hfe : r.findEntry a with
    | none =>
      rw [Option.getD_none, hnew]
      simp
    | some e =>
      rw [hfe] at hk
      rw [hk.changed, Option.getD_some, Option.some.injEq, ne_eq, eq_comm]

/-- `AddReference` or `AddSlot` with its arguments. -/
inductive Call where
  | reference (entry referrer : Address) (kind : ReferenceKind)
  | slot (entry : Address) (info : PointerSlotInfo)
  deriving DecidableEq, Repr

def Call.run (r : FloatingRegionInfo) : Call → Added
  | .reference entry referrer kind => r.addReference entry referrer kind
  | .slot entry info => r.addSlot entry info

/-- The region after some calls. -/
def build (r : FloatingRegionInfo) (calls : List Call) : FloatingRegionInfo :=
  calls.foldl (fun r c => (c.run r).region) r

theorem run_spec (h : r.WellFormed) (c : Call) :
    (c.run r).region.WellFormed ∧ ((c.run r).changed = true ↔ (c.run r).region ≠ r) := by
  cases c with
  | reference entry referrer kind =>
    exact updateEntry_spec (f := fun e => e.addReferrer referrer kind) h
      (fun e he => FloatingEntryInfo.kept_addReferrer he _ _)
      (by simp [FloatingEntryInfo.addReferrer,
        FloatingEntryInfo.new])
  | slot entry info =>
    exact updateEntry_spec (f := fun e => e.addSlot info) h
      (fun e he => FloatingEntryInfo.kept_addSlot he) (by simp [FloatingEntryInfo.addSlot,
        FloatingEntryInfo.new])

theorem WellFormed.build (h : r.WellFormed) (calls : List Call) : (r.build calls).WellFormed := by
  induction calls generalizing r with
  | nil => exact h
  | cons c calls ih => exact ih (run_spec h c).1

theorem wellFormed_of_entries_nil (h : r.entries = []) : r.WellFormed where
  entries := h ▸ .nil
  entry := by
    rw [h]
    exact nofun

end FloatingRegionInfo

end Diana.Orthia
