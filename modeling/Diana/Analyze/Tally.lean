import Diana.Analyze.Coverage
import Mathlib.Algebra.BigOperators.Group.Finset.Basic
import Mathlib.Algebra.Order.BigOperators.Group.Finset

/-!
# The count of valid instructions

`m_actualSize` is the number of registered instructions that are not invalid. It goes up when
an instruction is allocated, in any function, and down when a route is rolled back. The two
are not always at the same time: `SaveDataAccess` on ARM makes an instruction invalid whose
route is still pending, and leaves the count to the rollback of that route. So between the
turns the count also has these.

* `Tally`: the count and what it rests on, for the registered instructions and the pending routes;
* `Tally.update`: it is kept by a change at one offset;
* `tally_act`, `tally_construct`, `tally_rollback`: it is kept by the operations of a turn.
-/

namespace Diana.Analyze

open Diana.Lib

/-! ## The tally -/

/-- A slot that the count has: a valid instruction, or an invalid one whose own route will be rolled
back. -/
def counted (routes : List RouteInfo) (a : Nat) : Option Instruction → Bool
  | some i => !i.flags.invalid || (i.flags.isLoading && routes.any fun r => r.startOffset = a)
  | none => false

/-- What holds of a registered instruction. `decoded` are the offsets that were decoded; `phantoms`
is whether instructions may stay loading when no route leads to them any more. -/
structure SlotOk (decoded : Nat → Prop) (phantoms : Prop) (routes : List RouteInfo) (a : Nat)
    (i : Instruction) : Prop where
  /-- a root route starts at a root -/
  roots : ∀ r ∈ routes, r.startOffset = a → r.questionable = false → i.flags.isLoading = true →
    i.flags.root = true ∧ i.flags.invalid = false
  settled : i.flags.isLoading = true → i.flags.invalid = false →
    (∃ r ∈ routes, r.startOffset = a) ∨ i.flags.root = true ∧ phantoms
  decoded : i.flags.isLoading = false → i.flags.invalid = false → decoded a

/-- The count of the owner, with the routes that are pending. -/
structure Tally (size : Nat) (decoded : Nat → Prop) (phantoms : Prop) (o : Owner)
    (routes : List RouteInfo) : Prop where
  maxSize : o.maxSize = size
  slots : ∀ a i, o.presenceVec a = some i → a < size ∧ SlotOk decoded phantoms routes a i
  nodup : (routes.map RouteInfo.startOffset).Nodup
  present : ∀ r ∈ routes, (o.presenceVec r.startOffset).isSome = true ∧ r.instructions = []
  count : o.actualSize =
    ∑ a ∈ Finset.range size, (counted routes a (o.presenceVec a)).toNat

variable {size : Nat} {decoded : Nat → Prop} {phantoms : Prop} {o o' : Owner}
  {routes routes' : List RouteInfo}

/-- Routes that do not start at an offset say nothing about its slot. -/
theorem counted_congr {a : Nat} (h : ∀ r, r.startOffset = a → (r ∈ routes' ↔ r ∈ routes))
    (i : Option Instruction) : counted routes' a i = counted routes a i := by
  have hany : (routes'.any fun r => r.startOffset = a) = routes.any fun r => r.startOffset = a := by
    rw [Bool.eq_iff_iff]
    simp only [List.any_eq_true, decide_eq_true_iff]
    exact exists_congr fun r => and_congr_left fun hr => h r hr
  cases i with
  | none => rfl
  | some i => simp only [counted, hany]

theorem SlotOk.congr {a : Nat} {i : Instruction} (hi : SlotOk decoded phantoms routes a i)
    (h : ∀ r, r.startOffset = a → (r ∈ routes' ↔ r ∈ routes)) :
    SlotOk decoded phantoms routes' a i where
  roots r hr ha := hi.roots r ((h r ha).1 hr) ha
  settled hl hv := by
    rcases hi.settled hl hv with ⟨r, hr, ha⟩ | hp
    · exact .inl ⟨r, (h r ha).2 hr, ha⟩
    · exact .inr hp
  decoded := hi.decoded

/-- A change at one offset, of its slot and of the routes that start there. -/
theorem Tally.update (h : Tally size decoded phantoms o routes) {a : Nat} (ha : a < size)
    (hm : o'.maxSize = o.maxSize) (hvec : ∀ b, b ≠ a → o'.presenceVec b = o.presenceVec b)
    (hr : ∀ r, r.startOffset ≠ a → (r ∈ routes' ↔ r ∈ routes))
    (hn : (routes'.map RouteInfo.startOffset).Nodup)
    (hp : ∀ r ∈ routes', r.startOffset = a → (o'.presenceVec a).isSome = true ∧ r.instructions = [])
    (hslot : ∀ i, o'.presenceVec a = some i → SlotOk decoded phantoms routes' a i)
    (hcount : o'.actualSize + (counted routes a (o.presenceVec a)).toNat =
      o.actualSize + (counted routes' a (o'.presenceVec a)).toNat) :
    Tally size decoded phantoms o' routes' where
  maxSize := hm.trans h.maxSize
  slots b i hb := by
    by_cases hba : b = a
    · subst hba
      exact ⟨ha, hslot i hb⟩
    · rw [hvec b hba] at hb
      exact ⟨(h.slots b i hb).1, (h.slots b i hb).2.congr fun r hrb => hr r (hrb ▸ hba)⟩
  nodup := hn
  present r hr' := by
    by_cases hra : r.startOffset = a
    · rw [hra]
      exact hp r hr' hra
    · rw [hvec _ hra]
      exact h.present r ((hr r hra).1 hr')
  count := by
    have hmem : a ∈ Finset.range size := Finset.mem_range.2 ha
    have hold := h.count
    rw [← Finset.add_sum_erase _ _ hmem] at hold ⊢
    have hrest : ∑ b ∈ (Finset.range size).erase a, (counted routes' b (o'.presenceVec b)).toNat =
        ∑ b ∈ (Finset.range size).erase a, (counted routes b (o.presenceVec b)).toNat := by
      refine Finset.sum_congr rfl fun b hb => ?_
      have hba := Finset.ne_of_mem_erase hb
      rw [hvec b hba, counted_congr fun r hrb => hr r (hrb ▸ hba)]
    omega

/-- The tally only depends on the presence vector and the count. -/
theorem Tally.congr (h : Tally size decoded phantoms o routes)
    (hp : o'.presenceVec = o.presenceVec) (hm : o'.maxSize = o.maxSize)
    (ha : o'.actualSize = o.actualSize) : Tally size decoded phantoms o' routes where
  maxSize := hm.trans h.maxSize
  slots := hp ▸ h.slots
  nodup := h.nodup
  present := hp ▸ h.present
  count := by rw [ha, hp, h.count]

theorem Tally.one_le (h : Tally size decoded phantoms o routes) {a : Nat} (ha : a < size)
    (hc : counted routes a (o.presenceVec a) = true) : 1 ≤ o.actualSize := by
  rw [h.count]
  calc 1 = (counted routes a (o.presenceVec a)).toNat := by rw [hc]; rfl
    _ ≤ _ := Finset.single_le_sum
      (f := fun b => (counted routes b (o.presenceVec b)).toNat) (fun _ _ => Nat.zero_le _)
      (Finset.mem_range.2 ha)

/-! ## Changes at one offset -/

/-- A write to the flags of an instruction. -/
theorem Tally.modify (h : Tally size decoded phantoms o routes) {a : Nat}
    {f : InstrFlags → InstrFlags}
    (hf : ∀ i, o.presenceVec a = some i →
      SlotOk decoded phantoms routes a { i with flags := f i.flags } ∧
        counted routes a (some { i with flags := f i.flags }) = counted routes a (some i)) :
    Tally size decoded phantoms (o.modify a f) routes := by
  cases hi : o.presenceVec a with
  | none =>
    refine h.congr (funext fun b => ?_) rfl rfl
    by_cases hb : b = a
    · subst hb
      rw [Owner.modify_same, hi]
      rfl
    · exact Owner.modify_other hb
  | some i =>
    have hnew : (o.modify a f).presenceVec a = some { i with flags := f i.flags } := by
      rw [Owner.modify_same, hi]
      rfl
    refine h.update (h.slots a i hi).1 rfl (fun b hb => Owner.modify_other hb) (fun _ _ => Iff.rfl)
      h.nodup (fun r hr ha => ⟨by rw [hnew]; rfl, (h.present r hr).2⟩) (fun j hj => ?_) ?_
    · rw [hnew] at hj
      cases hj
      exact (hf i hi).1
    · rw [hi, hnew, (hf i hi).2]
      rfl

/-- `RouteMarker` takes an instruction out of the count. -/
theorem Tally.routeMarker (h : Tally size decoded phantoms o routes) {a : Nat} {i : Instruction}
    (hi : o.presenceVec a = some i) (hc : counted routes a (some i) = true)
    (hr : ∀ r, r.startOffset ≠ a → (r ∈ routes' ↔ r ∈ routes))
    (hn : (routes'.map RouteInfo.startOffset).Nodup) (hsub : ∀ r ∈ routes', r ∈ routes)
    (ha : i.flags.isLoading = true → ∀ r ∈ routes', r.startOffset ≠ a) :
    Tally size decoded phantoms (o.routeMarker a) routes' := by
  have hlt := (h.slots a i hi).1
  have hone := h.one_le hlt (by rw [hi]; exact hc)
  have hnew : (o.routeMarker a).presenceVec a =
      some { i with flags := { i.flags with invalid := true } } := by
    rw [Owner.routeMarker_presenceVec, Owner.modify_same, hi]
    rfl
  refine h.update hlt rfl (fun b hb => ?_) hr hn (fun r hr' _ => ⟨by rw [hnew]; rfl, ?_⟩)
    (fun j hj => ?_) ?_
  · rw [Owner.routeMarker_presenceVec, Owner.modify_other hb]
  · exact (h.present r (hsub r hr')).2
  · rw [hnew] at hj
    cases hj
    exact ⟨fun r hr' hra _ hl => absurd hra (ha hl r hr'), fun _ hv => Bool.noConfusion hv,
      fun _ hv => Bool.noConfusion hv⟩
  · have hafter : counted routes' a ((o.routeMarker a).presenceVec a) = false := by
      rw [hnew]
      simp only [counted, Bool.not_true, Bool.false_or, Bool.and_eq_false_iff]
      by_cases hl : i.flags.isLoading = true
      · exact .inr (List.any_eq_false.2 fun r hr' => by simpa using ha hl r hr')
      · exact .inl (Bool.eq_false_iff.2 hl)
    have hsize : (o.routeMarker a).actualSize = o.actualSize - 1 := rfl
    rw [hi, hc, hafter, hsize]
    simp only [Bool.toNat_true, Bool.toNat_false]
    omega

/-- A constructed instruction that is rolled back. -/
theorem Tally.routeMarker_constructed (h : Tally size decoded phantoms o routes) {a : Nat}
    {i : Instruction} (hi : o.presenceVec a = some i) (hl : i.flags.isLoading = false)
    (hv : i.flags.invalid = false) : Tally size decoded phantoms (o.routeMarker a) routes := by
  refine h.routeMarker hi (by simp [counted, hv]) (fun _ _ => Iff.rfl) h.nodup (fun _ hr => hr) ?_
  intro hl'
  rw [hl] at hl'
  cases hl'

/-- The first instruction of a route that failed on it. -/
theorem Tally.routeMarker_start {r : RouteInfo} (h : Tally size decoded phantoms o (r :: routes))
    {i : Instruction} (hi : o.presenceVec r.startOffset = some i) (hl : i.flags.isLoading = true) :
    Tally size decoded phantoms (o.routeMarker r.startOffset) routes := by
  obtain ⟨hr, hn⟩ := List.nodup_cons.1 h.nodup
  refine h.routeMarker hi (by simp [counted, hl]) (fun q hq => ?_) hn
    (fun q hq => List.mem_cons_of_mem _ hq) (fun _ q hq he => ?_)
  · constructor
    · exact List.mem_cons_of_mem _
    · intro hm
      rcases List.mem_cons.1 hm with rfl | hm
      · exact absurd rfl hq
      · exact hm
  · exact hr (List.mem_map.2 ⟨q, hq, he⟩)

/-- A route that is over, without a rollback. -/
theorem Tally.drop {r : RouteInfo} (h : Tally size decoded phantoms o (r :: routes))
    (hi : ∀ i, o.presenceVec r.startOffset = some i → i.flags.isLoading = true →
      i.flags.invalid = false ∧ i.flags.root = true ∧ phantoms) :
    Tally size decoded phantoms o routes := by
  obtain ⟨hr, hn⟩ := List.nodup_cons.1 h.nodup
  obtain ⟨i, hp⟩ := Option.isSome_iff_exists.1 (h.present r List.mem_cons_self).1
  have hout : ∀ q ∈ routes, q.startOffset ≠ r.startOffset :=
    fun q hq he => hr (List.mem_map.2 ⟨q, hq, he⟩)
  have hslot := (h.slots _ i hp).2
  refine h.update (h.slots _ i hp).1 rfl (fun _ _ => rfl) (fun q hq => ?_) hn
    (fun q hq he => absurd he (hout q hq)) (fun j hj => ?_) ?_
  · constructor
    · exact List.mem_cons_of_mem _
    · intro hm
      rcases List.mem_cons.1 hm with rfl | hm
      · exact absurd rfl hq
      · exact hm
  · rw [hp] at hj
    cases hj
    exact ⟨fun q hq he => absurd he (hout q hq), fun hl _ => .inr (hi i hp hl).2, hslot.decoded⟩
  · rw [hp]
    have hany : (routes.any fun q => q.startOffset = r.startOffset) = false :=
      List.any_eq_false.2 fun q hq => by simpa using hout q hq
    simp only [counted, hany, List.any_cons, decide_true, Bool.and_true,
      Bool.and_false, Bool.or_false]
    cases hl : i.flags.isLoading with
    | false => simp
    | true => simp [(hi i hp hl).1]

/-! ## The operations -/

/-- A new instruction, with the route that starts at it if there is one. -/
theorem Tally.allocate (h : Tally size decoded phantoms o routes) {a : Nat} (ha : a < size)
    (hnone : o.presenceVec a = none) {i : Instruction}
    (hm : o'.maxSize = o.maxSize) (hvec : ∀ b, b ≠ a → o'.presenceVec b = o.presenceVec b)
    (hnew : o'.presenceVec a = some i) (hr : ∀ r, r.startOffset ≠ a → (r ∈ routes' ↔ r ∈ routes))
    (hn : (routes'.map RouteInfo.startOffset).Nodup)
    (hp : ∀ r ∈ routes', r.startOffset = a → r.instructions = [])
    (hslot : SlotOk decoded phantoms routes' a i)
    (hcount : o'.actualSize = o.actualSize + (counted routes' a (some i)).toNat) :
    Tally size decoded phantoms o' routes' := by
  refine h.update ha hm hvec hr hn (fun r hr ha => ⟨by rw [hnew]; rfl, hp r hr ha⟩)
    (fun j hj => ?_) ?_
  · rw [hnew] at hj
    cases hj
    exact hslot
  · rw [hnone, hnew, hcount]
    rfl

/-- No route starts at an offset that is not registered. -/
theorem Tally.not_start (h : Tally size decoded phantoms o routes) {a : Nat}
    (hnone : o.presenceVec a = none) : ∀ r ∈ routes, r.startOffset ≠ a := by
  rintro r hr rfl
  have := (h.present r hr).1
  rw [hnone] at this
  cases this

section Operations

variable {cfg : Config} {s t : Session} {source : Nat}

/-- `DI_INSTRUCTION_ROOT` changes nothing of the count. -/
theorem Tally.setRoot (h : Tally size decoded phantoms o routes) (a : Nat) :
    Tally size decoded phantoms (o.modify a fun f => { f with root := true }) routes := by
  refine h.modify fun i hi => ⟨?_, rfl⟩
  have hs := (h.slots a i hi).2
  refine ⟨fun r hr ha hq hl => ⟨rfl, (hs.roots r hr ha hq hl).2⟩, fun hl hv => ?_, hs.decoded⟩
  rcases hs.settled hl hv with hr | hp
  · exact .inl hr
  · exact .inr ⟨rfl, hp.2⟩

/-- An invalid instruction whose route is pending stays in the count. -/
theorem Tally.dropPending (h : Tally size decoded phantoms o routes) (a : Nat) :
    Tally size decoded phantoms
      (o.modify a fun f => if f.isLoading && !f.root then { f with invalid := true } else f)
      routes := by
  refine h.modify fun i hi => ?_
  have hi := (h.slots a i hi).2
  split
  case isTrue hf =>
    obtain ⟨hl, hr⟩ : i.flags.isLoading = true ∧ i.flags.root = false := by simpa using hf
    refine ⟨⟨fun r hr' ha hq _ => ?_, fun _ hv => Bool.noConfusion hv,
      fun _ hv => Bool.noConfusion hv⟩, ?_⟩
    · rw [(hi.roots r hr' ha hq hl).1] at hr
      cases hr
    · cases hv : i.flags.invalid with
      | true => simp [counted, hv, hl]
      | false =>
        rcases hi.settled hl hv with ⟨r, hr', ha⟩ | ⟨hroot, -⟩
        · simp only [counted, hv, hl, Bool.not_false, Bool.true_or, Bool.not_true, Bool.false_or,
            Bool.true_and]
          exact List.any_eq_true.2 ⟨r, hr', by simpa using ha⟩
        · rw [hroot] at hr
          cases hr
  case isFalse => exact ⟨hi, rfl⟩

theorem tally_saveNewRoute {a : Nat} {aligned questionable addressTaken : Bool}
    (hmax : cfg.maxOffset ≤ size) (hs : Tally size decoded phantoms s.owner s.stack)
    (h : saveNewRoute cfg s source a aligned questionable addressTaken = .ok t) :
    Tally size decoded phantoms t.owner t.stack := by
  obtain rfl | rfl | ⟨i, -, rfl⟩ | ⟨hlt, hnone, rfl⟩ := saveNewRoute_cases h
  · exact hs
  · exact hs.congr rfl rfl rfl
  · -- registered before: no new route
    refine Tally.congr ?_ (Owner.createXRef_presenceVec ..) rfl rfl
    split
    · exact hs
    · exact hs.setRoot a
  · refine hs.allocate (a := a) (i := ⟨a, { isLoading := true, root := !questionable }⟩)
      (Nat.lt_of_lt_of_le hlt hmax) hnone ?_ ?_ ?_ ?_ ?_ ?_ ?_ ?_
    · cases questionable <;> rfl
    · intro b hb
      cases questionable <;> simp [Owner.refer, Owner.modify, hb]
    · cases questionable <;> simp [Owner.refer, Owner.modify]
    · intro r hr
      rw [List.mem_cons]
      constructor
      · rintro (rfl | hm)
        · exact absurd rfl hr
        · exact hm
      · exact .inr
    · rw [List.map_cons, List.nodup_cons]
      refine ⟨fun hm => ?_, hs.nodup⟩
      obtain ⟨r, hr, he⟩ := List.mem_map.1 hm
      exact hs.not_start hnone r hr he
    · intro r hr he
      rcases List.mem_cons.1 hr with rfl | hr
      · rfl
      · exact absurd he (hs.not_start hnone r hr)
    · refine ⟨fun r hr he hq _ => ?_, fun _ _ => .inl ⟨_, List.mem_cons_self, rfl⟩,
        fun hl => Bool.noConfusion hl⟩
      rcases List.mem_cons.1 hr with rfl | hr
      · exact ⟨by simpa using hq, rfl⟩
      · exact absurd he (hs.not_start hnone r hr)
    · cases questionable <;> rfl

/-- Each operation of an instruction's analysis keeps the tally. -/
theorem tally_act {x : Action} (hmax : cfg.maxOffset ≤ size)
    (hs : Tally size decoded phantoms s.owner s.stack) (h : act cfg source s x = .ok t) :
    Tally size decoded phantoms t.owner t.stack := by
  cases x with
  | note n =>
    cases h
    refine hs.modify fun i hi => ?_
    have hi := (hs.slots source i hi).2
    cases n <;> exact ⟨⟨hi.roots, hi.settled, hi.decoded⟩, rfl⟩
  | saveNewRoute a b c d => exact tally_saveNewRoute hmax hs h
  | saveDataXRef a b =>
    cases h
    exact hs.congr rfl rfl rfl
  | saveNewExternalRoute a b c =>
    cases h
    refine hs.congr (Owner.saveNewExternalRoute_presenceVec ..) ?_ ?_
    · unfold Owner.saveNewExternalRoute
      split
      · rfl
      · split <;> rfl
    · unfold Owner.saveNewExternalRoute
      split
      · rfl
      · split <;> rfl
  | dropPending a =>
    simp only [act] at h
    split at h
    · cases h
      exact hs.dropPending a
    · cases h
      exact hs
  | markData a b c =>
    simp only [act] at h
    split at h
    · next hcond =>
      obtain ⟨o, hq, hrest⟩ := bind_eq_ok.mp h
      have hnone : s.owner.presenceVec a = none := Option.isNone_iff_eq_none.1 hcond.2
      rcases Owner.queryOrAllocate_cases hq with ⟨i, hi, -⟩ | ⟨-, rfl⟩
      · rw [hnone] at hi
        cases hi
      · cases hrest
        refine hs.allocate (a := a)
          (i := ⟨a, { invalid := true, data := true, dataBytes := b, dataHalfwords := c }⟩)
          (by omega) hnone rfl (fun x hx => by simp [hx]) (by simp) (fun _ _ => Iff.rfl) hs.nodup
          (fun r hr _ => (hs.present r hr).2) ?_ rfl
        exact ⟨fun _ _ _ _ hl => Bool.noConfusion hl, fun hl => Bool.noConfusion hl,
          fun _ hv => Bool.noConfusion hv⟩
    · cases h
      exact hs

theorem tally_foldlM {l : List Action} (hmax : cfg.maxOffset ≤ size)
    (hs : Tally size decoded phantoms s.owner s.stack) (h : l.foldlM (act cfg source) s = .ok t) :
    Tally size decoded phantoms t.owner t.stack := by
  induction l generalizing s with
  | nil =>
    cases h
    exact hs
  | cons x l ih =>
    rw [List.foldlM_cons] at h
    obtain ⟨u, hu, hrest⟩ := bind_eq_ok.mp h
    exact ih (tally_act hmax hs hu) hrest

end Operations

/-! ## Construction and rollback -/

section Routes

variable {cfg : Config} {s t : Session}

/-- The instructions that are not loading stay, valid or not. -/
def Stays (o o' : Owner) : Prop :=
  ∀ a i, o.presenceVec a = some i → i.flags.isLoading = false →
    ∃ i', o'.presenceVec a = some i' ∧ i'.flags.isLoading = false ∧
      i'.flags.invalid = i.flags.invalid

theorem Stays.refl (o : Owner) : Stays o o := fun _ i hi hl => ⟨i, hi, hl, rfl⟩

theorem Stays.trans {o₁ o₂ o₃ : Owner} (h₁ : Stays o₁ o₂) (h₂ : Stays o₂ o₃) : Stays o₁ o₃ := by
  intro a i hi hl
  obtain ⟨j, hj, hlj, hvj⟩ := h₁ a i hi hl
  obtain ⟨k, hk, hlk, hvk⟩ := h₂ a j hj hlj
  exact ⟨k, hk, hlk, hvk.trans hvj⟩

theorem Stays.of_presenceVec (h : o'.presenceVec = o.presenceVec) : Stays o o' :=
  fun _ i hi hl => ⟨i, by rw [h, hi], hl, rfl⟩

theorem stays_modify {b : Nat} {f : InstrFlags → InstrFlags}
    (hf : ∀ g, g.isLoading = false → (f g).isLoading = false ∧ (f g).invalid = g.invalid) :
    Stays o (o.modify b f) := by
  intro a i hi hl
  by_cases hab : a = b
  · subst hab
    exact ⟨_, by rw [Owner.modify_same, hi]; rfl, hf _ hl⟩
  · exact ⟨i, by rw [Owner.modify_other hab, hi], hl, rfl⟩

theorem stays_allocate {b : Nat} {f : InstrFlags} (hnone : o.presenceVec b = none) :
    Stays o (o.allocateInstruction b f) := by
  intro a i hi hl
  have hne : a ≠ b := by
    rintro rfl
    rw [hnone] at hi
    cases hi
  exact ⟨i, by simpa [hne] using hi, hl, rfl⟩

theorem stays_queryOrAllocate {b : Nat} {f : InstrFlags}
    (h : o.queryOrAllocateInstruction b f = .ok o') : Stays o o' := by
  rcases Owner.queryOrAllocate_cases h with ⟨i, hi, rfl⟩ | ⟨hnone, rfl⟩
  · exact Stays.refl _
  · exact stays_allocate hnone

theorem stays_saveNewRoute {source a : Nat} {aligned questionable addressTaken : Bool}
    (h : saveNewRoute cfg s source a aligned questionable addressTaken = .ok t) :
    Stays s.owner t.owner := by
  have hrefer : ∀ o : Owner, Stays o (o.refer source a questionable addressTaken) := by
    intro o
    have hroot : Stays o (if questionable = true then o
        else o.modify a fun f => { f with root := true }) := by
      split
      · exact Stays.refl o
      · exact stays_modify fun _ hg => ⟨hg, rfl⟩
    exact hroot.trans (Stays.of_presenceVec rfl)
  obtain rfl | rfl | ⟨i, -, rfl⟩ | ⟨-, hnone, rfl⟩ := saveNewRoute_cases h
  · exact Stays.refl _
  · exact Stays.of_presenceVec rfl
  · exact hrefer _
  · exact (stays_allocate hnone).trans (hrefer _)

theorem stays_dropPending (a : Nat) :
    Stays o
      (o.modify a fun f => if f.isLoading && !f.root then { f with invalid := true } else f) := by
  refine stays_modify fun g hg => ?_
  rw [if_neg (by simp [hg])]
  exact ⟨hg, rfl⟩

theorem stays_act {source : Nat} {x : Action} (h : act cfg source s x = .ok t) :
    Stays s.owner t.owner := by
  cases x with
  | note n =>
    cases h
    exact stays_modify fun g hg => by cases n <;> exact ⟨hg, rfl⟩
  | saveNewRoute a b c d => exact stays_saveNewRoute h
  | saveDataXRef a b =>
    cases h
    exact Stays.of_presenceVec rfl
  | saveNewExternalRoute a b c =>
    cases h
    exact Stays.of_presenceVec (Owner.saveNewExternalRoute_presenceVec ..)
  | dropPending a =>
    simp only [act] at h
    split at h
    · cases h
      exact stays_dropPending a
    · cases h
      exact Stays.refl _
  | markData a b c =>
    simp only [act] at h
    split at h
    · obtain ⟨o, hq, hrest⟩ := bind_eq_ok.mp h
      cases hrest
      exact (stays_queryOrAllocate hq).trans (Stays.of_presenceVec rfl)
    · cases h
      exact Stays.refl _

theorem stays_foldlM {source : Nat} {l : List Action} (h : l.foldlM (act cfg source) s = .ok t) :
    Stays s.owner t.owner :=
  foldlM_rel (R := fun s t : Session => Stays s.owner t.owner) (fun s => Stays.refl s.owner)
    Stays.trans (fun _ _ _ => stays_act) l h

/-- Constructing an instruction that was loading, or was not there. -/
theorem tally_construct (hs : Tally size decoded phantoms s.owner routes) {a : Nat} {w : WordFlags}
    (ha : a < size) (hd : decoded a)
    (hslot : ∀ i, s.owner.presenceVec a = some i → i.flags.invalid = false)
    (hr : ∀ r, r.startOffset ≠ a → (r ∈ routes' ↔ r ∈ routes))
    (hn : (routes'.map RouteInfo.startOffset).Nodup) (hsub : ∀ r ∈ routes', r ∈ routes)
    (h : constructInstruction s a w = .ok t) : Tally size decoded phantoms t.owner routes' := by
  obtain ⟨⟨i, hi, hl, hv⟩, hother, -, -⟩ := constructInstruction_exact h
  obtain ⟨o, hq, hrest⟩ := bind_eq_ok.mp h
  have hsize : t.owner.maxSize = s.owner.maxSize ∧
      t.owner.actualSize + (counted routes a (s.owner.presenceVec a)).toNat =
        s.owner.actualSize + 1 := by
    rcases Owner.queryOrAllocate_cases hq with ⟨j, hj, rfl⟩ | ⟨hnone, rfl⟩
    · cases hrest
      refine ⟨rfl, ?_⟩
      rw [hj, show counted routes a (some j) = true by simp [counted, hslot j hj]]
      rfl
    · cases hrest
      exact ⟨rfl, by rw [hnone]; rfl⟩
  refine hs.update ha hsize.1 hother hr hn (fun r hr' _ => ⟨by rw [hi]; rfl, ?_⟩)
    (fun j hj => ?_) ?_
  · exact (hs.present r (hsub r hr')).2
  · rw [hi] at hj
    cases hj
    refine ⟨fun _ _ _ _ hl' => ?_, fun hl' => ?_, fun _ _ => hd⟩
    · rw [hl] at hl'
      cases hl'
    · rw [hl] at hl'
      cases hl'
  · rw [hi, show counted routes' a (some i) = true by simp [counted, hv]]
    exact hsize.2

theorem tally_keepers (hs : Tally size decoded phantoms o routes) (l : List Nat) :
    Tally size decoded phantoms (l.foldl Owner.addressTakenRouteKeeper o) routes := by
  induction l generalizing o with
  | nil => exact hs
  | cons a l ih =>
    refine ih (hs.congr (addressTakenRouteKeeper_presenceVec o a) ?_ ?_)
    · exact (addressTakenRouteKeeper_sizes o a).1
    · exact Owner.addressTakenRouteKeeper_of (f := Owner.actualSize) (fun _ _ _ => rfl) o a

/-- The instructions of a list are constructed and valid. -/
def Live (o : Owner) (l : List Nat) : Prop :=
  ∀ a ∈ l, ∃ i, o.presenceVec a = some i ∧ i.flags.isLoading = false ∧ i.flags.invalid = false

theorem Live.stays {l : List Nat} (h : Live o l) (hst : Stays o o') : Live o' l := by
  intro a ha
  obtain ⟨i, hi, hl, hv⟩ := h a ha
  obtain ⟨j, hj, hlj, hvj⟩ := hst a i hi hl
  exact ⟨j, hj, hlj, hvj.trans hv⟩

theorem tally_markers {l : List Nat} (hs : Tally size decoded phantoms o routes) (hn : l.Nodup)
    (hlive : Live o l) : Tally size decoded phantoms (l.foldl Owner.routeMarker o) routes := by
  induction l generalizing o with
  | nil => exact hs
  | cons a l ih =>
    obtain ⟨ha, hn⟩ := List.nodup_cons.1 hn
    obtain ⟨i, hi, hl, hv⟩ := hlive a List.mem_cons_self
    refine ih (hs.routeMarker_constructed hi hl hv) hn fun b hb => ?_
    have hba : b ≠ a := by
      rintro rfl
      exact ha hb
    rw [Owner.routeMarker_presenceVec, Owner.modify_other hba]
    exact hlive b (List.mem_cons_of_mem _ hb)

/-- A rollback of a route that has constructed its first instruction. -/
theorem tally_rollback (hs : Tally size decoded phantoms s.owner routes)
    (hn : s.curRoute.instructions.Nodup) (hlive : Live s.owner s.curRoute.instructions)
    (hstart : ∀ i, s.owner.presenceVec s.curRoute.startOffset = some i →
      i.flags.isLoading = false) :
    Tally size decoded phantoms (rollbackCurrentRoute s).owner routes := by
  have hoff : rollbackOffsets s = s.curRoute.instructions := by
    unfold rollbackOffsets
    rw [if_neg, List.append_nil]
    intro hany
    obtain ⟨i, hi, hl⟩ := (Option.any_eq_true _ _).1 hany
    rw [hstart i hi] at hl
    cases hl
  refine tally_keepers ?_ _
  rw [hoff]
  exact tally_markers hs hn hlive

/-- A rollback of a route that was just taken from the stack. -/
theorem tally_rollback_start
    (hs : Tally size decoded phantoms s.owner (s.curRoute :: routes)) :
    Tally size decoded phantoms (rollbackCurrentRoute s).owner routes := by
  have hnil := (hs.present _ List.mem_cons_self).2
  obtain ⟨i, hi⟩ := Option.isSome_iff_exists.1 (hs.present _ List.mem_cons_self).1
  cases hl : i.flags.isLoading with
  | true =>
    have hoff : rollbackOffsets s = [s.curRoute.startOffset] := by
      unfold rollbackOffsets
      rw [hnil, Owner.getInstruction, hi, Option.any_some, if_pos hl]
      rfl
    refine tally_keepers ?_ _
    rw [hoff]
    exact hs.routeMarker_start hi hl
  | false =>
    have hload : ∀ j, s.owner.presenceVec s.curRoute.startOffset = some j →
        j.flags.isLoading = false := by
      intro j hj
      rw [hi] at hj
      cases hj
      exact hl
    refine tally_rollback (hs.drop fun j hj hlj => ?_) ?_ ?_ hload
    · rw [hload j hj] at hlj
      cases hlj
    · rw [hnil]
      exact List.nodup_nil
    · rw [hnil]
      exact fun _ ha => absurd ha List.not_mem_nil

end Routes

end Diana.Analyze
