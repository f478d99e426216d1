import Diana.Orthia.FloatingCollect
import Diana.Orthia.FloatingReferences
import Diana.Lib.Loop
import Mathlib.Data.List.Dedup
import Mathlib.Data.List.Induction

/-!
# The order of the references

What is expected of `CollectFloatingRegions`, and the inputs on which it holds.

* `Correct`: every entry that is added is in executable memory of no module, and the result is the
  same for every order of the references;
* `Consistent`: what the references and slots have to be;
* `Consistent.final_perm`, `Consistent.isFloating`: what one base address sees then.

A target in a known region, or in a region that the pass has made, is taken without a
look at its own memory.
-/

namespace Diana.Orthia

open Diana.Lib

namespace Collect

/-- Usable memory: committed and executable. -/
def MemoryRegionInfo.usable (r : MemoryRegionInfo) : Bool := r.committed && r.exec

namespace Input

variable (input : Input)

/-- The bases of the allocations that regions are made of. -/
def newBases (events : List Event) : List Address :=
  (events.filterMap fun ev =>
    match input.place ev with
    | .fresh r => if r.usable then some r.allocationBase else none
    | _ => none).dedup

/-- Committed executable memory that no loaded module owns. -/
def IsFloating (a : Address) : Prop :=
  (∃ r, input.process.query a = some r ∧ r.usable) ∧
    ∀ m ∈ input.modules.list, m.isInRange a → m.floating.isSome

/-- The entries that the pass adds are floating code, and the result is the same for every order of
the references. -/
def Correct (refs : List ModuleReference) (slots : List PointerSlotInfo) : Prop :=
  ∀ refs', refs'.Perm refs →
    (∀ info ∈ (input.collect refs' slots).changed, ∀ e ∈ info.entries,
      (∀ m ∈ input.modules.list, ∀ k, m.floating = some k →
        k.allocationBase = info.allocationBase → ¬ k.hasEntry e.address) →
      input.IsFloating e.address) ∧
    input.collect refs' slots = input.collect refs slots

/-- The references and slots that the pass handles well. -/
structure Consistent (refs : List ModuleReference) (slots : List PointerSlotInfo) : Prop where
  /-- A new target in a known region is executable. -/
  known : ∀ ev ∈ events refs slots, ∀ k, input.place ev = .known k → ¬ k.hasEntry ev.refTo →
    ∃ r, input.process.query ev.refTo = some r ∧ r.usable
  /-- The references into one allocation lead to executable memory of one kind, or none does. -/
  alike : ∀ x ∈ refs, ∀ y ∈ refs, ∀ r r', input.place x.event = .fresh r →
    input.place y.event = .fresh r' → r.allocationBase = r'.allocationBase → r.usable →
      r'.usable ∧ newRegion r = newRegion r'
  /-- A slot that leads to other memory comes before every executable target of the allocation. -/
  slotFirst : ∀ pre s post, slots = pre ++ s :: post → ∀ r', input.place (slotEvent s) = .fresh r' →
    r'.usable = false → ∀ ev ∈ events refs pre, ∀ r, input.place ev = .fresh r →
      r.allocationBase = r'.allocationBase → r.usable = false
  /-- A reference that is new, or has no kind yet, is not given two kinds. -/
  oneKind : ∀ x ∈ refs, ∀ y ∈ refs, x.refFrom = y.refFrom → x.refTo = y.refTo →
    ((∃ k, input.place x.event = .known k ∧
        ∀ o, k.kindAt x.refTo x.refFrom = some o → o = .unknown) ∨
      (∃ r, input.place x.event = .fresh r ∧ r.usable)) →
    x.kind ≠ .unknown → y.kind ≠ .unknown → y.kind ≠ .data → x.kind = y.kind

variable {input}

theorem place_known {ev : Event} {k : FloatingRegionInfo} (h : input.place ev = .known k) :
    ∃ m ∈ input.modules.list, m.floating = some k ∧ m.isInRange ev.refTo := by
  unfold place at h
  split at h
  · cases h
  · split at h
    · cases h
    · split at h
      · rename_i m hm
        split at h
        · cases h
        · rename_i k' hk
          cases h
          exact ⟨m, (input.findModule_eq_some.1 hm).1, hk, (input.findModule_eq_some.1 hm).2⟩
      · split at h <;> cases h

theorem place_fresh {ev : Event} {r : MemoryRegionInfo} (h : input.place ev = .fresh r) :
    input.allocOf ev.refTo = some r ∧ ∀ m ∈ input.modules.list, ¬ m.isInRange ev.refTo := by
  unfold place at h
  split at h
  · cases h
  · split at h
    · cases h
    · split at h
      · split at h <;> cases h
      · rename_i hn
        split at h
        · cases h
        · rename_i r' hr
          cases h
          refine ⟨hr, fun m hm hin => ?_⟩
          rw [input.findModule_eq_some.2 ⟨hm, hin⟩] at hn
          cases hn

theorem place_congr {x y : Event} (hf : x.refFrom = y.refFrom) (ht : x.refTo = y.refTo)
    (hx : x.kind ≠ .data) (hy : y.kind ≠ .data) : input.place x = input.place y := by
  unfold place
  simp only [hf, ht, hx, hy]

theorem kind_of_place (ev : Event) (h : input.place ev ≠ .skip) : ev.kind ≠ .data := by
  intro hk
  refine h ?_
  unfold place
  rw [if_pos (.inr (.inl hk))]

/-- A known region is that of one module. -/
theorem floating_unique {m m' : ModuleInfo} (hm : m ∈ input.modules.list)
    (hm' : m' ∈ input.modules.list) {k k' : FloatingRegionInfo} (hk : m.floating = some k)
    (hk' : m'.floating = some k') (hb : k.allocationBase = k'.allocationBase) : k = k' := by
  have h1 := (input.modules.floating m hm k hk).2.1
  have h2 := (input.modules.floating m' hm' k' hk').2.1
  have hadd : m.address = m'.address := by rw [← h1, ← h2, hb]
  have hmm : m = m' := by
    rcases rel_of_pairwise input.modules.apart hm hm' with h | h | h
    · exact h
    · have := input.modules.le m hm
      have := input.modules.le m' hm'
      rcases h with h | h
      · exact absurd h (by rw [← hadd]; exact not_lt.2 ‹_›)
      · exact absurd h (by rw [hadd]; exact not_lt.2 ‹_›)
    · have := input.modules.le m hm
      have := input.modules.le m' hm'
      rcases h with h | h
      · exact absurd h (by rw [hadd]; exact not_lt.2 ‹_›)
      · exact absurd h (by rw [← hadd]; exact not_lt.2 ‹_›)
  subst hmm
  rw [hk, Option.some.injEq] at hk'
  exact hk'

/-- The base of a known region is not that of a fresh allocation. -/
theorem known_ne_fresh {m : ModuleInfo} (hm : m ∈ input.modules.list) {k : FloatingRegionInfo}
    (hk : m.floating = some k) {a : Address} {r : MemoryRegionInfo}
    (hr : input.allocOf a = some r) : r.allocationBase ≠ k.allocationBase := by
  intro hb
  have h1 := (input.modules.floating m hm k hk).2.1
  refine allocOf_disjoint hr hm (b := m.address)
    (decide_eq_true ⟨le_refl _, input.modules.le m hm⟩) ⟨by rw [← h1, hb], ?_⟩
  rw [← h1, ← hb]
  exact Nat.lt_add_of_pos_right (Fin.pos_of_ne_zero (allocOf_eq_some.1 hr).2.1)

end Input

/-! ## What one event does to a region -/

theorem kindOf_addSlot {e : FloatingEntryInfo} (slot : PointerSlotInfo) (x : Address) :
    (e.addSlot slot).1.kindOf x = e.kindOf x := by
  unfold FloatingEntryInfo.addSlot
  split
  · split <;> rfl
  · rfl

section Run

variable {ev : Event} {info : FloatingRegionInfo}

theorem run_eq (ev : Event) (info : FloatingRegionInfo) :
    ∃ entries, (ev.call.run info).region = { info with entries } := by
  unfold Event.call
  cases ev.slot with
  | none => exact ⟨_, rfl⟩
  | some slot => exact ⟨_, rfl⟩

theorem run_of_slot_none (h : ev.slot = none) :
    ev.call.run info = info.addReference ev.refTo ev.refFrom ev.kind := by
  unfold Event.call
  rw [h]
  rfl

theorem run_of_slot_some {slot : PointerSlotInfo} (h : ev.slot = some slot) :
    ev.call.run info = info.addSlot ev.refTo slot := by
  unfold Event.call
  rw [h]
  rfl

/-- An event leaves the other entries, and the kinds of the entry are those of a reference, if it is
one. -/
theorem findEntry_run (h : info.WellFormed) (ev : Event) :
    ∃ e, (∀ a, (ev.call.run info).region.findEntry a =
        if a = ev.refTo then some e else info.findEntry a) ∧
      ∀ x o, info.kindAt ev.refTo x = some o → o ≠ .unknown → e.kindOf x = some o := by
  have he := h.findEntry_getD (a := ev.refTo)
  cases hs : ev.slot with
  | none =>
    refine ⟨(((info.findEntry ev.refTo).getD (.new ev.refTo)).addReferrer ev.refFrom ev.kind).1,
      fun a => ?_, fun x o hk ho => ?_⟩
    · rw [run_of_slot_none hs]
      exact FloatingRegionInfo.findEntry_updateEntry h.address_addReferrer
    · rw [he.1.kindOf_addReferrer, FloatingRegionInfo.kindOf_getD, FloatingRegionInfo.kindOf_getD]
      split
      · rename_i hx
        rw [← hx, hk]
        show some (o.or ev.kind) = _
        rw [ReferenceKind.or, if_neg ho]
      · exact hk
  | some slot =>
    refine ⟨(((info.findEntry ev.refTo).getD (.new ev.refTo)).addSlot slot).1,
      fun a => ?_, fun x o hk ho => ?_⟩
    · rw [run_of_slot_some hs]
      exact FloatingRegionInfo.findEntry_updateEntry (f := fun e => e.addSlot slot)
        ((FloatingEntryInfo.kept_addSlot he.1).address.trans he.2)
    · rw [kindOf_addSlot, FloatingRegionInfo.kindOf_getD]
      exact hk

theorem hasEntry_run (h : info.WellFormed) (ev : Event) (a : Address) :
    (ev.call.run info).region.hasEntry a = true ↔ a = ev.refTo ∨ info.hasEntry a = true := by
  obtain ⟨e, he, -⟩ := findEntry_run h ev
  unfold FloatingRegionInfo.hasEntry
  rw [he]
  by_cases ha : a = ev.refTo <;> simp [ha]

/-- A kind that is known stays. -/
theorem kindAt_run (h : info.WellFormed) {a x : Address} {o : ReferenceKind}
    (hk : info.kindAt a x = some o) (ho : o ≠ .unknown) :
    (ev.call.run info).region.kindAt a x = some o := by
  obtain ⟨e, he, hkind⟩ := findEntry_run h ev
  rw [FloatingRegionInfo.kindAt, he]
  split
  · rename_i ha
    exact hkind x o (ha ▸ hk) ho
  · exact hk

end Run

namespace Input

variable {input : Input}

/-- What is known of a region during the pass. -/
structure Seen (input : Input) (base : Address) (t : Tracked) : Prop where
  wellFormed : t.info.WellFormed
  /-- it keeps the kinds that the known region has -/
  keeps : ∀ m ∈ input.modules.list, ∀ k, m.floating = some k → k.allocationBase = base →
    ∀ a x o, k.kindAt a x = some o → o ≠ .unknown → t.info.kindAt a x = some o
  unchanged : t.changed = false →
    t.info.entries = [] ∨ ∃ m ∈ input.modules.list, m.floating = some t.info
  allocationBase : t.info.allocationBase = base

theorem Seen.add {base : Address} {t : Tracked} (h : input.Seen base t) (ev : Event) :
    input.Seen base (t.add ev) where
  wellFormed := (FloatingRegionInfo.run_spec h.wellFormed ev.call).1
  keeps m hm k hk hb a x o ho hne := kindAt_run h.wellFormed (h.keeps m hm k hk hb a x o ho hne) hne
  unchanged hc := by
    obtain ⟨h1, h2⟩ : t.changed = false ∧ (ev.call.run t.info).changed = false :=
      Bool.or_eq_false_iff.1 hc
    have hsame : (ev.call.run t.info).region = t.info := by
      by_contra hne
      rw [(FloatingRegionInfo.run_spec h.wellFormed ev.call).2.2 hne] at h2
      cases h2
    show (ev.call.run t.info).region.entries = [] ∨ _
    rw [Tracked.add, hsame]
    exact h.unchanged h1
  allocationBase := (allocationBase_run ev t.info).1.trans h.allocationBase

theorem seen_known {m : ModuleInfo} (hm : m ∈ input.modules.list) {k : FloatingRegionInfo}
    (hk : m.floating = some k) : input.Seen k.allocationBase { info := k } where
  wellFormed := (input.modules.floating m hm k hk).1
  keeps m' hm' k' hk' hb a x o ho _ := by
    rw [floating_unique hm' hm hk' hk hb] at ho
    exact ho
  unchanged _ := .inr ⟨m, hm, hk⟩
  allocationBase := rfl

theorem seen_newRegion {a : Address} {r : MemoryRegionInfo} (hr : input.allocOf a = some r) :
    input.Seen r.allocationBase { info := newRegion r } where
  wellFormed := FloatingRegionInfo.wellFormed_of_entries_nil rfl
  keeps _ hm _ hk hb := absurd hb.symm (known_ne_fresh hm hk hr)
  unchanged _ := .inl rfl
  allocationBase := rfl

/-- What every step of the pass keeps. -/
def AllSeen (input : Input) (base : Address) (o : Option Tracked) : Prop :=
  ∀ t, o = some t → input.Seen base t

theorem AllSeen.stepAt {base : Address} {o : Option Tracked} (h : input.AllSeen base o)
    (ev : Event) : input.AllSeen base (input.stepAt base o ev) := by
  intro t ht
  unfold Input.stepAt at ht
  split at ht
  · exact h t ht
  · rename_i k hp
    obtain ⟨m, hm, hk, -⟩ := place_known hp
    split at ht
    · rename_i hb
      subst hb
      obtain rfl := Option.some.inj ht
      refine Seen.add ?_ ev
      cases o with
      | none => exact seen_known hm hk
      | some t => exact h t rfl
    · exact h t ht
  · rename_i r hp
    split at ht
    · rename_i hb
      subst hb
      cases o with
      | some t' =>
        obtain rfl := Option.some.inj ht
        exact (h t' rfl).add ev
      | none =>
        simp only at ht
        split at ht
        · obtain rfl := Option.some.inj ht
          exact (seen_newRegion (place_fresh hp).1).add ev
        · cases ht
    · exact h t ht

theorem AllSeen.foldl {base : Address} (events : List Event) :
    ∀ {o : Option Tracked}, input.AllSeen base o →
      input.AllSeen base (events.foldl (input.stepAt base) o) := by
  induction events with
  | nil => exact fun h => h
  | cons ev events ih => exact fun h => ih (h.stepAt ev)

/-! ## The order does not matter -/

/-- Two references to a region, in either order. -/
theorem Seen.add_comm {base : Address} {t : Tracked} (h : input.Seen base t)
    {x y : ModuleReference}
    (hk : x.refTo = y.refTo → x.refFrom = y.refFrom →
      (∃ o, t.info.kindAt x.refTo x.refFrom = some o ∧ o ≠ .unknown) ∨ x.kind = .unknown ∨
        y.kind = .unknown ∨ x.kind = y.kind) :
    (t.add x.event).add y.event = (t.add y.event).add x.event := by
  have hc := h.wellFormed.addReference_comm x.refTo x.refFrom x.kind y.refTo y.refFrom y.kind hk
  have hrun : ∀ (z : ModuleReference) (info : FloatingRegionInfo),
      z.event.call.run info = info.addReference z.refTo z.refFrom z.kind := fun _ _ => rfl
  unfold Tracked.add
  simp only [hrun, hc.1, Bool.or_assoc, hc.2.1, hc.2.2]

variable {refs : List ModuleReference} {slots : List PointerSlotInfo}

/-- An event is about one base address only. -/
theorem stepAt_cases (input : Input) (base : Address) (ev : Event) :
    (∀ o, input.stepAt base o ev = o) ∨
      (∃ k, input.place ev = .known k ∧ k.allocationBase = base) ∨
      (∃ r, input.place ev = .fresh r ∧ r.allocationBase = base) := by
  unfold stepAt
  cases hp : input.place ev with
  | skip => exact .inl fun _ => rfl
  | known k =>
    by_cases hb : k.allocationBase = base
    · exact .inr (.inl ⟨k, rfl, hb⟩)
    · exact .inl fun _ => if_neg hb
  | fresh r =>
    by_cases hb : r.allocationBase = base
    · exact .inr (.inr ⟨r, rfl, hb⟩)
    · exact .inl fun _ => if_neg hb

theorem stepAt_known {ev : Event} {k : FloatingRegionInfo} (hp : input.place ev = .known k)
    (o : Option Tracked) :
    input.stepAt k.allocationBase o ev = some ((o.getD { info := k }).add ev) := by
  rw [stepAt, hp]
  exact if_pos rfl

theorem stepAt_usable {ev : Event} {r : MemoryRegionInfo} (hp : input.place ev = .fresh r)
    (hu : r.usable = true) (o : Option Tracked) :
    input.stepAt r.allocationBase o ev = some ((o.getD { info := newRegion r }).add ev) := by
  rw [stepAt, hp]
  simp only [if_true]
  cases o with
  | some t => rfl
  | none => exact if_pos hu

theorem stepAt_not_usable {ev : Event} {r : MemoryRegionInfo} (hp : input.place ev = .fresh r)
    (hu : r.usable = false) (o : Option Tracked) :
    input.stepAt r.allocationBase o ev = o.map fun t => t.add ev := by
  rw [stepAt, hp]
  simp only [if_true]
  cases o with
  | some t => rfl
  | none =>
    exact if_neg (by rw [show (r.committed && r.exec) = false from hu]; exact Bool.false_ne_true)

/-- What holds at a base address while the references are gone through: a region is there only when
all the references into the allocation are executable. -/
structure RefsSeen (input : Input) (refs : List ModuleReference) (base : Address)
    (o : Option Tracked) : Prop where
  seen : input.AllSeen base o
  usable : ∀ x ∈ refs, ∀ r, input.place x.event = .fresh r → r.allocationBase = base →
    r.usable = false → o = none

theorem known_fresh_absurd {ev ev' : Event} {k : FloatingRegionInfo} {r : MemoryRegionInfo}
    (hk : input.place ev = .known k) (hr : input.place ev' = .fresh r)
    (hb : r.allocationBase = k.allocationBase) : False := by
  obtain ⟨m, hm, hmk, -⟩ := place_known hk
  exact known_ne_fresh hm hmk (place_fresh hr).1 hb

theorem Consistent.refsSeen_stepAt (h : input.Consistent refs slots) {base : Address}
    {o : Option Tracked} (ho : input.RefsSeen refs base o) {y : ModuleReference} (hy : y ∈ refs) :
    input.RefsSeen refs base (input.stepAt base o y.event) where
  seen := ho.seen.stepAt _
  usable x hx r hp hb hu := by
    have hnone := ho.usable x hx r hp hb hu
    rcases stepAt_cases input base y.event with hy' | ⟨k, hk, rfl⟩ | ⟨r', hr', rfl⟩
    · rw [hy', hnone]
    · exact (known_fresh_absurd hk hp hb).elim
    · cases hu' : r'.usable with
      | true =>
        have := (h.alike y hy x hx r' r hr' hp hb.symm hu').1
        rw [hu] at this
        cases this
      | false => rw [stepAt_not_usable hr' hu', hnone]; rfl

theorem Consistent.stepAt_comm (h : input.Consistent refs slots) {base : Address}
    {o : Option Tracked} (ho : input.RefsSeen refs base o) {x y : ModuleReference} (hx : x ∈ refs)
    (hy : y ∈ refs) :
    input.stepAt base (input.stepAt base o x.event) y.event =
      input.stepAt base (input.stepAt base o y.event) x.event := by
  rcases stepAt_cases input base x.event with hx' | ⟨k, hk, rfl⟩ | ⟨r, hr, rfl⟩
  · rw [hx', hx']
  · rcases stepAt_cases input k.allocationBase y.event with
      hy' | ⟨k', hk', hb⟩ | ⟨r', hr', hb⟩
    · rw [hy', hy']
    · obtain ⟨m, hm, hmk, -⟩ := place_known hk
      obtain ⟨m', hm', hmk', -⟩ := place_known hk'
      obtain rfl := floating_unique hm' hm hmk' hmk hb
      have hseen : input.Seen k'.allocationBase (o.getD { info := k' }) := by
        cases o with
        | none => exact seen_known hm hmk
        | some t => exact ho.seen t rfl
      simp only [stepAt_known hk, stepAt_known hk', Option.getD_some]
      refine congrArg some (hseen.add_comm fun ht hf => ?_)
      by_cases hknown : ∃ o, k'.kindAt x.refTo x.refFrom = some o ∧ o ≠ .unknown
      · obtain ⟨o', ho', hne⟩ := hknown
        exact .inl ⟨o', hseen.keeps m hm k' hmk rfl _ _ _ ho' hne, hne⟩
      · refine .inr ?_
        by_contra hn
        simp only [not_or] at hn
        refine hn.2.2 (h.oneKind x hx y hy hf ht (.inl ⟨k', hk, fun o' ho' => ?_⟩) hn.1 hn.2.1
          (kind_of_place y.event (by rw [hk']; exact nofun)))
        by_contra hne
        exact hknown ⟨o', ho', hne⟩
    · exact (known_fresh_absurd hk hr' hb).elim
  · rcases stepAt_cases input r.allocationBase y.event with
      hy' | ⟨k', hk', hb⟩ | ⟨r', hr', hb⟩
    · rw [hy', hy']
    · exact (known_fresh_absurd hk' hr hb.symm).elim
    · cases hu : r.usable with
      | true =>
        obtain ⟨hu', hnew⟩ := h.alike x hx y hy r r' hr hr' hb.symm hu
        have hseen : input.Seen r.allocationBase (o.getD { info := newRegion r }) := by
          cases o with
          | none => exact seen_newRegion (place_fresh hr).1
          | some t => exact ho.seen t rfl
        have hstep : ∀ o, input.stepAt r.allocationBase o y.event =
            some ((o.getD { info := newRegion r }).add y.event) := by
          intro o
          rw [← hb, stepAt_usable hr' hu', hnew]
        simp only [stepAt_usable hr hu, hstep, Option.getD_some]
        refine congrArg some (hseen.add_comm fun ht hf => .inr ?_)
        by_contra hn
        simp only [not_or] at hn
        exact hn.2.2 (h.oneKind x hx y hy hf ht (.inr ⟨r, hr, hu⟩) hn.1 hn.2.1
          (kind_of_place y.event (by rw [hr']; exact nofun)))
      | false =>
        have hxy := h.refsSeen_stepAt (h.refsSeen_stepAt ho hx) hy
        have hyx := h.refsSeen_stepAt (h.refsSeen_stepAt ho hy) hx
        rw [hxy.usable x hx r hr rfl hu, hyx.usable x hx r hr rfl hu]

/-- What a base address sees in the end. -/
def final (input : Input) (refs : List ModuleReference) (slots : List PointerSlotInfo)
    (base : Address) : Option Tracked :=
  (events refs slots).foldl (input.stepAt base) none

theorem allSeen_none (base : Address) : input.AllSeen base none := fun _ h => by cases h

theorem allSeen_final (base : Address) : input.AllSeen base (input.final refs slots base) :=
  (allSeen_none base).foldl _

theorem Consistent.final_perm (h : input.Consistent refs slots) {refs' : List ModuleReference}
    (hp : refs'.Perm refs) (base : Address) :
    input.final refs' slots base = input.final refs slots base := by
  have hfold : refs.foldl (fun o x => input.stepAt base o x.event) none =
      refs'.foldl (fun o x => input.stepAt base o x.event) none :=
    foldl_perm hp.symm (P := input.RefsSeen refs base) (fun _ ho _ hx => h.refsSeen_stepAt ho hx)
      (fun _ ho _ hx _ hy => h.stepAt_comm ho hx hy) ⟨allSeen_none base, fun _ _ _ _ _ _ => rfl⟩
  unfold final events
  simp only [List.foldl_append, List.foldl_map, hfold]

theorem Consistent.perm (h : input.Consistent refs slots) {refs' : List ModuleReference}
    (hp : refs'.Perm refs) : input.Consistent refs' slots := by
  have hev : ∀ {slots : List PointerSlotInfo} {ev}, ev ∈ events refs' slots →
      ev ∈ events refs slots := by
    intro slots ev hev
    rcases List.mem_append.1 hev with hev | hev
    · exact List.mem_append_left _ ((hp.map _).mem_iff.1 hev)
    · exact List.mem_append_right _ hev
  exact
    { known := fun ev he => h.known ev (hev he)
      alike := fun x hx y hy => h.alike x (hp.mem_iff.1 hx) y (hp.mem_iff.1 hy)
      slotFirst := fun pre s post hs r' hp' hu ev he =>
      h.slotFirst pre s post hs r' hp' hu ev (hev he)
      oneKind := fun x hx y hy => h.oneKind x (hp.mem_iff.1 hx) y (hp.mem_iff.1 hy) }

/-! ## The entries are executable -/

/-- A region in an allocation is there because of an executable target. -/
theorem exists_usable {base a : Address} {r : MemoryRegionInfo} (hr : input.allocOf a = some r)
    (hb : r.allocationBase = base) (pre : List Event) :
    ∀ t, pre.foldl (input.stepAt base) none = some t →
      ∃ ev ∈ pre, ∃ r', input.place ev = .fresh r' ∧ r'.allocationBase = base ∧
      r'.usable = true := by
  induction pre using List.reverseRecOn with
  | nil => exact fun t h => by cases h
  | append_singleton pre ev ih =>
    intro t ht
    have hold : (∃ t, pre.foldl (input.stepAt base) none = some t) →
        ∃ ev' ∈ pre ++ [ev], ∃ r', input.place ev' = .fresh r' ∧ r'.allocationBase = base ∧
          r'.usable = true := by
      rintro ⟨t, ht⟩
      obtain ⟨ev', hm, h⟩ := ih t ht
      exact ⟨ev', List.mem_append_left _ hm, h⟩
    rw [List.foldl_append, List.foldl_cons, List.foldl_nil] at ht
    rcases stepAt_cases input base ev with hx | ⟨k, hk, hkb⟩ | ⟨r', hr', rfl⟩
    · rw [hx] at ht
      exact hold ⟨t, ht⟩
    · obtain ⟨m, hm, hmk, -⟩ := place_known hk
      exact absurd (hb.trans hkb.symm) (known_ne_fresh hm hmk hr)
    · cases hu : r'.usable with
      | true => exact ⟨ev, List.mem_append_right _ List.mem_cons_self, r', hr', rfl, hu⟩
      | false =>
        rw [stepAt_not_usable hr' hu] at ht
        obtain ⟨t', ht', -⟩ := Option.map_eq_some_iff.1 ht
        exact hold ⟨t', ht'⟩

/-- The known region at the base address has the entry. -/
def KnownEntry (input : Input) (base a : Address) : Prop :=
  ∃ m ∈ input.modules.list, ∃ k, m.floating = some k ∧ k.allocationBase = base ∧ k.hasEntry a = true

theorem isFloating_of_known {ev : Event} {k : FloatingRegionInfo}
    (hp : input.place ev = .known k) {r : MemoryRegionInfo}
    (hq : input.process.query ev.refTo = some r) (hu : r.usable = true) :
    input.IsFloating ev.refTo := by
  obtain ⟨m, hm, hk, hin⟩ := place_known hp
  refine ⟨⟨r, hq, hu⟩, fun m' hm' hin' => ?_⟩
  have h1 := input.findModule_eq_some.2 ⟨hm, hin⟩
  have h2 := input.findModule_eq_some.2 ⟨hm', hin'⟩
  rw [h1, Option.some.injEq] at h2
  rw [← h2, hk]
  rfl

theorem isFloating_of_fresh {ev : Event} {r : MemoryRegionInfo} (hp : input.place ev = .fresh r)
    (hu : r.usable = true) : input.IsFloating ev.refTo := by
  obtain ⟨hr, hout⟩ := place_fresh hp
  exact ⟨⟨r, (allocOf_eq_some.1 hr).1, hu⟩, fun m hm hin => absurd hin (hout m hm)⟩

/-- A target in other memory is not preceded by an executable one of its allocation. -/
theorem Consistent.not_usable_before (h : input.Consistent refs slots) {pre post : List Event}
    {ev : Event} (hsplit : events refs slots = pre ++ ev :: post) {r' : MemoryRegionInfo}
    (hp : input.place ev = .fresh r') (hu : r'.usable = false) {g : Event} (hg : g ∈ pre)
    {r : MemoryRegionInfo} (hr : input.place g = .fresh r)
    (hb : r.allocationBase = r'.allocationBase) : r.usable = false := by
  have hslot : ∀ rest, slots.map slotEvent = rest ++ ev :: post →
      pre = refs.map ModuleReference.event ++ rest → r.usable = false := by
    intro rest hs hpre
    obtain ⟨preS, postS, rfl, hpreS, hpost⟩ := List.map_eq_append_iff.1 hs
    obtain ⟨s, post', rfl, rfl, -⟩ := List.map_eq_cons_iff.1 hpost
    refine h.slotFirst preS s post' rfl r' hp hu g ?_ r hr hb
    rw [events, hpreS, ← hpre]
    exact hg
  rcases List.append_eq_append_iff.1 hsplit with ⟨rest, hpre, hs⟩ | ⟨rest, hrefs, hs⟩
  · exact hslot rest hs hpre
  · cases rest with
    | nil => exact hslot [] hs.symm (by rw [List.append_nil] at hrefs; rw [hrefs, List.append_nil])
    | cons ev' rest =>
      obtain ⟨rfl, -⟩ := List.cons.inj hs
      have hmem : ∀ e ∈ pre ++ ev :: rest, ∃ x ∈ refs, ModuleReference.event x = e := fun e he =>
        List.mem_map.1 (hrefs ▸ he)
      obtain ⟨x, hx, rfl⟩ := hmem g (List.mem_append_left _ hg)
      obtain ⟨y, hy, rfl⟩ := hmem ev (List.mem_append_right _ List.mem_cons_self)
      by_contra hne
      have := (h.alike x hx y hy r r' hr hp hb (by simpa using hne)).1
      rw [hu] at this
      cases this

/-- The entries that the events before any point have added are floating code. -/
theorem Consistent.isFloating (h : input.Consistent refs slots) (base : Address)
    (pre : List Event) :
    ∀ post, events refs slots = pre ++ post → ∀ t, pre.foldl (input.stepAt base) none = some t →
      ∀ a, t.info.hasEntry a = true → input.KnownEntry base a ∨ input.IsFloating a := by
  induction pre using List.reverseRecOn with
  | nil => exact fun _ _ t ht => by cases ht
  | append_singleton pre ev ih =>
    intro post hsplit t ht a ha
    rw [List.append_assoc, List.singleton_append] at hsplit
    have ih := ih (ev :: post) hsplit
    have hseen : input.AllSeen base (pre.foldl (input.stepAt base) none) :=
      (allSeen_none base).foldl _
    have hused := fun a r (hr : input.allocOf a = some r) hb =>
        exists_usable hr (hb : r.allocationBase = base) pre
    have hmem : ev ∈ events refs slots := by
      rw [hsplit]
      exact List.mem_append_right _ List.mem_cons_self
    rw [List.foldl_append, List.foldl_cons, List.foldl_nil] at ht
    generalize pre.foldl (input.stepAt base) none = o at ih hseen ht hused
    rcases stepAt_cases input base ev with hx | ⟨k, hk, rfl⟩ | ⟨r, hr, rfl⟩
    · rw [hx] at ht
      exact ih t ht a ha
    · obtain ⟨m, hm, hmk, -⟩ := place_known hk
      rw [stepAt_known hk] at ht
      obtain rfl := Option.some.inj ht
      have hs : input.Seen k.allocationBase (o.getD { info := k }) := by
        cases o with
        | none => exact seen_known hm hmk
        | some t => exact hseen t rfl
      rcases (hasEntry_run hs.wellFormed ev a).1 ha with rfl | ha
      · cases hke : k.hasEntry ev.refTo with
        | true => exact .inl ⟨m, hm, k, hmk, rfl, hke⟩
        | false =>
          obtain ⟨r, hq, hu⟩ := h.known ev hmem k hk (by simp [hke])
          exact .inr (isFloating_of_known hk hq hu)
      · cases o with
        | none => exact .inl ⟨m, hm, k, hmk, rfl, ha⟩
        | some t => exact ih t rfl a ha
    · cases hu : r.usable with
      | true =>
        rw [stepAt_usable hr hu] at ht
        obtain rfl := Option.some.inj ht
        have hs : input.Seen r.allocationBase (o.getD { info := newRegion r }) := by
          cases o with
          | none => exact seen_newRegion (place_fresh hr).1
          | some t => exact hseen t rfl
        rcases (hasEntry_run hs.wellFormed ev a).1 ha with rfl | ha
        · exact .inr (isFloating_of_fresh hr hu)
        · cases o with
          | none => cases ha
          | some t => exact ih t rfl a ha
      | false =>
        rw [stepAt_not_usable hr hu] at ht
        obtain ⟨t', rfl, -⟩ := Option.map_eq_some_iff.1 ht
        obtain ⟨g, hg, r', hr', hb, hu'⟩ := hused _ r (place_fresh hr).1 rfl t' rfl
        rw [h.not_usable_before hsplit hr hu hg hr' hb] at hu'
        cases hu'

end Input

end Collect

end Diana.Orthia
