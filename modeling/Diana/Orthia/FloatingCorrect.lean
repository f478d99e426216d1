import Diana.Orthia.FloatingOrder

/-!
# When the discovery is correct

`correct_iff`: the pass does what is expected of it exactly on the consistent inputs. What an event
adds stays to the end, so a bad target that comes after a good one of its allocation shows in the
result; and the first reference to a new region decides its fields and its kinds.
-/

namespace Diana.Orthia.Collect

open Diana.Lib

namespace Input

variable {input : Input} {refs : List ModuleReference} {slots : List PointerSlotInfo}

/-! ## What is returned -/

theorem fingerprint_eq (input : Input) (s : State) (base : Address) (info : FloatingRegionInfo) :
    ∃ header bytesHash hashedSize,
      input.fingerprint s base info = { info with header, bytesHash, hashedSize } := by
  unfold fingerprint
  split
  · exact ⟨_, _, _, rfl⟩
  · exact ⟨info.header, info.bytesHash, info.hashedSize, rfl⟩

theorem mem_newBases {ev : Event} {events : List Event} (hev : ev ∈ events) {r : MemoryRegionInfo}
    (hp : input.place ev = .fresh r) (hu : r.usable = true) :
    r.allocationBase ∈ input.newBases events := by
  refine List.mem_dedup.2 (List.mem_filterMap.2 ⟨ev, hev, ?_⟩)
  simp [hp, hu]

/-- The state that a pass ends in. -/
theorem run_spec (hcap : (input.newBases (events refs slots)).length < maxNewRegions)
    {refs' : List ModuleReference} (hp : refs'.Perm refs) :
    input.Inv (input.newBases (events refs slots)) (input.run {} (events refs' slots)) ∧
      ∀ base, (input.run {} (events refs' slots)).view base = input.final refs' slots base := by
  refine (input.inv_empty _).run hcap fun ev hev r hr hu => mem_newBases ?_ hr hu
  rcases List.mem_append.1 hev with hev | hev
  · exact List.mem_append_left _ ((hp.map _).mem_iff.1 hev)
  · exact List.mem_append_right _ hev

/-- The regions that are returned are those that changed, as they are in the end. -/
theorem mem_collect (hsize : input.source.size ≠ 0)
    (hcap : (input.newBases (events refs slots)).length < maxNewRegions)
    {refs' : List ModuleReference} (hp : refs'.Perm refs) {info : FloatingRegionInfo} :
    info ∈ (input.collect refs' slots).changed ↔
      ∃ base t, input.final refs' slots base = some t ∧ t.changed = true ∧
        info = input.fingerprint (input.run {} (events refs' slots)) base t.info := by
  obtain ⟨hinv, hview⟩ := run_spec hcap hp
  rw [collect, if_neg hsize]
  show info ∈ List.filterMap _ (input.run {} (events refs' slots)).changed ↔ _
  rw [List.mem_filterMap]
  constructor
  · rintro ⟨base, hb, hm⟩
    obtain ⟨t, ht, hc⟩ := hinv.mem_changed.1 hb
    rw [← view_info, ht] at hm
    exact ⟨base, t, by rw [← hview, ht], hc, (Option.some.inj hm).symm⟩
  · rintro ⟨base, t, ht, hc, rfl⟩
    rw [← hview] at ht
    refine ⟨base, hinv.mem_changed.2 ⟨t, ht, hc⟩, ?_⟩
    rw [← view_info, ht]
    rfl

theorem Consistent.correct (h : input.Consistent refs slots)
    (hcap : (input.newBases (events refs slots)).length < maxNewRegions) :
    input.Correct refs slots := by
  intro refs' hp
  by_cases hsize : input.source.size = 0
  · simp only [collect, if_pos hsize]
    exact ⟨nofun, trivial⟩
  · refine ⟨fun info hinfo e he hnew => ?_, ?_⟩
    · obtain ⟨base, t, ht, -, rfl⟩ := (mem_collect hsize hcap hp).1 hinfo
      obtain ⟨header, hash, size, hfp⟩ := fingerprint_eq input
        (input.run {} (events refs' slots)) base t.info
      rw [hfp] at he hnew
      have hseen := allSeen_final base t ht
      have hentry : t.info.hasEntry e.address = true := by
        have := SortedVec.find_of_mem hseen.wellFormed.entries he
        rw [FloatingRegionInfo.hasEntry, FloatingRegionInfo.findEntry, this]
        rfl
      rcases (h.perm hp).isFloating base (events refs' slots) [] (List.append_nil _).symm t ht _
        hentry with ⟨m, hm, k, hk, hb, hke⟩ | hfl
      · exact absurd hke (hnew m hm k hk (hb.trans hseen.allocationBase.symm))
      · exact hfl
    · obtain ⟨hinv', hview'⟩ := run_spec hcap hp
      obtain ⟨hinv, hview⟩ := run_spec hcap (List.Perm.refl refs)
      rw [collect, collect, if_neg hsize, if_neg hsize]
      exact discovery_ext hinv' hinv fun base => by rw [hview', hview, h.final_perm hp]

/-! ## The inputs that are not handled well -/

/-- What no event takes away. -/
structure Grows (t t' : Tracked) : Prop where
  entries : ∀ a, t.info.hasEntry a = true → t'.info.hasEntry a = true
  kinds : ∀ a x o, t.info.kindAt a x = some o → o ≠ .unknown → t'.info.kindAt a x = some o
  rest : { t'.info with entries := [] } = { t.info with entries := [] }

theorem Grows.refl (t : Tracked) : Grows t t where
  entries _ h := h
  kinds _ _ _ h _ := h
  rest := rfl

theorem Grows.trans {t t' t'' : Tracked} (h : Grows t t') (h' : Grows t' t'') : Grows t t'' where
  entries a ha := h'.entries a (h.entries a ha)
  kinds a x o ho hne := h'.kinds a x o (h.kinds a x o ho hne) hne
  rest := h'.rest.trans h.rest

theorem Seen.grows_add {base : Address} {t : Tracked} (h : input.Seen base t) (ev : Event) :
    Grows t (t.add ev) where
  entries a ha := (hasEntry_run h.wellFormed ev a).2 (.inr ha)
  kinds a x o ho hne := kindAt_run h.wellFormed ho hne
  rest := by
    obtain ⟨entries, he⟩ := run_eq ev t.info
    show { (ev.call.run t.info).region with entries := [] } = _
    rw [he]

theorem grows_stepAt {base : Address} {t : Tracked} (h : input.Seen base t) (ev : Event) :
    ∃ t', input.stepAt base (some t) ev = some t' ∧ Grows t t' := by
  rcases stepAt_cases input base ev with hx | ⟨k, hk, rfl⟩ | ⟨r, hr, rfl⟩
  · exact ⟨t, hx _, Grows.refl t⟩
  · exact ⟨_, stepAt_known hk _, h.grows_add ev⟩
  · cases hu : r.usable with
    | true => exact ⟨_, stepAt_usable hr hu _, h.grows_add ev⟩
    | false => exact ⟨_, stepAt_not_usable hr hu _, h.grows_add ev⟩

theorem grows_foldl {base : Address} (events : List Event) :
    ∀ {t : Tracked}, input.Seen base t →
      ∃ t', events.foldl (input.stepAt base) (some t) = some t' ∧ Grows t t' := by
  induction events with
  | nil => exact fun {t} _ => ⟨t, rfl, Grows.refl t⟩
  | cons ev events ih =>
    intro t h
    obtain ⟨t', ht', hg⟩ := grows_stepAt h ev
    obtain ⟨t'', ht'', hg'⟩ :=
      ih (AllSeen.stepAt (o := some t) (fun _ he => by cases he; exact h) ev
      t' ht')
    exact ⟨t'', by rw [List.foldl_cons, ht', ht''], hg.trans hg'⟩

/-- The region that an event adds to, when it does. -/
def target (input : Input) (base : Address) (o : Option Tracked) (ev : Event) : Option Tracked :=
  match input.place ev with
  | .skip => none
  | .known k => if k.allocationBase = base then some (o.getD { info := k }) else none
  | .fresh r =>
    if r.allocationBase = base then if r.usable then some (o.getD { info := newRegion r }) else o
    else none

/-- An event that adds to a region: the region is there in the end, with all that the event gave. -/
theorem final_of_target {base : Address} (pre post : List Event) {ev : Event} {t : Tracked}
    (ht : input.target base (pre.foldl (input.stepAt base) none) ev = some t) :
    input.Seen base t ∧
      ∃ t', (pre ++ ev :: post).foldl (input.stepAt base) none = some t' ∧ Grows (t.add ev) t' ∧
        input.Seen base t' := by
  have hseen : input.AllSeen base (pre.foldl (input.stepAt base) none) :=
    (allSeen_none base).foldl _
  have hend : input.AllSeen base ((pre ++ ev :: post).foldl (input.stepAt base) none) :=
    (allSeen_none base).foldl _
  rw [List.foldl_append, List.foldl_cons] at hend ⊢
  generalize pre.foldl (input.stepAt base) none = o at ht hseen hend ⊢
  have hstep : input.Seen base t ∧ input.stepAt base o ev = some (t.add ev) := by
    unfold target at ht
    cases hp : input.place ev with
    | skip =>
      rw [hp] at ht
      cases ht
    | known k =>
      simp only [hp] at ht
      split at ht
      · rename_i hb
        subst hb
        obtain ⟨m, hm, hmk, -⟩ := place_known hp
        obtain rfl := Option.some.inj ht
        refine ⟨?_, stepAt_known hp o⟩
        cases o with
        | none => exact seen_known hm hmk
        | some t => exact hseen t rfl
      · cases ht
    | fresh r =>
      simp only [hp] at ht
      split at ht
      · rename_i hb
        subst hb
        split at ht
        · rename_i hu
          obtain rfl := Option.some.inj ht
          refine ⟨?_, stepAt_usable hp hu o⟩
          cases o with
          | none => exact seen_newRegion (place_fresh hp).1
          | some t => exact hseen t rfl
        · rename_i hu
          refine ⟨hseen t ht, ?_⟩
          rw [stepAt_not_usable hp (by simpa using hu), ht]
          rfl
      · cases ht
  obtain ⟨ht, hstep⟩ := hstep
  rw [hstep] at hend ⊢
  obtain ⟨t', ht', hg⟩ := grows_foldl post (ht.add ev)
  exact ⟨ht, t', ht', hg, hend t' ht'⟩

theorem Seen.changed {base : Address} {t : Tracked} (h : input.Seen base t) {a : Address}
    (ha : t.info.hasEntry a = true) (hn : ¬ input.KnownEntry base a) : t.changed = true := by
  by_contra hc
  rcases h.unchanged (by simpa using hc) with he | ⟨m, hm, hk⟩
  · rw [FloatingRegionInfo.hasEntry, FloatingRegionInfo.findEntry, he] at ha
    cases ha
  · exact hn ⟨m, hm, t.info, hk, h.allocationBase, ha⟩

/-- The base of an allocation is not that of a known region. -/
theorem not_knownEntry {ev : Event} {r : MemoryRegionInfo} (hp : input.place ev = .fresh r)
    (a : Address) : ¬ input.KnownEntry r.allocationBase a := by
  rintro ⟨m, hm, k, hk, hb, -⟩
  exact known_ne_fresh hm hk (place_fresh hp).1 hb.symm

/-- One order of the references: `x` first. -/
theorem final_first (refs : List ModuleReference) (slots : List PointerSlotInfo)
    {x : ModuleReference} {base : Address} {t : Tracked}
    (ht : input.target base none x.event = some t) :
    input.Seen base t ∧ ∃ t', input.final (x :: refs.erase x) slots base = some t' ∧
      Grows (t.add x.event) t' ∧ input.Seen base t' :=
  final_of_target [] _ ht

section Correct

variable (hsize : input.source.size ≠ 0)
  (hcap : (input.newBases (events refs slots)).length < maxNewRegions)
include hsize hcap

theorem Correct.isFloating (h : input.Correct refs slots) {refs' : List ModuleReference}
    (hp : refs'.Perm refs) {base a : Address} {t : Tracked}
    (ht : input.final refs' slots base = some t) (ha : t.info.hasEntry a = true)
    (hn : ¬ input.KnownEntry base a) : input.IsFloating a := by
  have hseen := allSeen_final base t ht
  obtain ⟨e, he⟩ := Option.isSome_iff_exists.1 ha
  obtain ⟨hmem, rfl⟩ := FloatingRegionInfo.mem_of_findEntry he
  obtain ⟨header, hash, size, hfp⟩ := fingerprint_eq input
    (input.run {} (events refs' slots)) base t.info
  refine (h refs' hp).1 _ ((mem_collect hsize hcap hp).2 ⟨base, t, ht, hseen.changed ha hn, rfl⟩) e
    ?_ fun m hm k hk hb hke => hn ⟨m, hm, k, hk, ?_, hke⟩
  · rw [hfp]
    exact hmem
  · rw [hfp] at hb
    exact hb.trans hseen.allocationBase

/-- Two orders give the same region, but for its fingerprint. -/
theorem Correct.same (h : input.Correct refs slots) {refs₁ refs₂ : List ModuleReference}
    (hp₁ : refs₁.Perm refs) (hp₂ : refs₂.Perm refs) {base : Address} {t₁ : Tracked}
    (ht₁ : input.final refs₁ slots base = some t₁) (hc : t₁.changed = true) :
    ∃ t₂, input.final refs₂ slots base = some t₂ ∧ t₂.info.entries = t₁.info.entries ∧
      t₂.info.protect = t₁.info.protect ∧ t₂.info.type = t₁.info.type ∧
      t₂.info.mappedName = t₁.info.mappedName := by
  have hmem := (mem_collect hsize hcap hp₁).2 ⟨base, t₁, ht₁, hc, rfl⟩
  rw [(h refs₁ hp₁).2, ← (h refs₂ hp₂).2] at hmem
  obtain ⟨base', t₂, ht₂, -, he⟩ := (mem_collect hsize hcap hp₂).1 hmem
  obtain ⟨_, _, _, hfp₁⟩ := fingerprint_eq input (input.run {} (events refs₁ slots)) base
    t₁.info
  obtain ⟨_, _, _, hfp₂⟩ := fingerprint_eq input (input.run {} (events refs₂ slots)) base'
    t₂.info
  rw [hfp₁, hfp₂] at he
  have hbase : base' = base := by
    rw [← (allSeen_final base' t₂ ht₂).allocationBase, ← (allSeen_final base t₁ ht₁).allocationBase]
    exact (congrArg FloatingRegionInfo.allocationBase he :).symm
  subst hbase
  exact ⟨t₂, ht₂, (congrArg FloatingRegionInfo.entries he :).symm,
    (congrArg FloatingRegionInfo.protect he :).symm, (congrArg FloatingRegionInfo.type he :).symm,
    (congrArg FloatingRegionInfo.mappedName he :).symm⟩

theorem Correct.known (h : input.Correct refs slots) {ev : Event} (hev : ev ∈ events refs slots)
    {k : FloatingRegionInfo} (hp : input.place ev = .known k) (hne : ¬ k.hasEntry ev.refTo = true) :
    ∃ r, input.process.query ev.refTo = some r ∧ r.usable = true := by
  obtain ⟨pre, post, hsplit⟩ := List.append_of_mem hev
  have htarget : input.target k.allocationBase (pre.foldl (input.stepAt k.allocationBase) none) ev =
      some ((pre.foldl (input.stepAt k.allocationBase) none).getD { info := k }) := by
    rw [target, hp]
    exact if_pos rfl
  obtain ⟨hs, t', ht', hg, -⟩ := final_of_target pre post htarget
  rw [← hsplit] at ht'
  obtain ⟨m, hm, hmk, -⟩ := place_known hp
  refine (h.isFloating hsize hcap (List.Perm.refl refs) ht'
    (hg.entries _ ((hasEntry_run hs.wellFormed _ _).2 (.inl rfl))) ?_).1
  rintro ⟨m', hm', k', hk', hb, hke⟩
  exact hne (floating_unique hm' hm hk' hmk hb ▸ hke)

theorem Correct.usable (h : input.Correct refs slots) {refs' : List ModuleReference}
    (hp : refs'.Perm refs) {pre post : List Event} {g ev : Event}
    (hsplit : events refs' slots = pre ++ ev :: post) (hg : g ∈ pre) {r r' : MemoryRegionInfo}
    (hr : input.place g = .fresh r) (hr' : input.place ev = .fresh r')
    (hb : r.allocationBase = r'.allocationBase) (hu : r.usable = true) : r'.usable = true := by
  obtain ⟨pre', post', rfl⟩ := List.append_of_mem hg
  have hfirst : input.target r'.allocationBase
    (pre'.foldl (input.stepAt r'.allocationBase) none) g =
      some ((pre'.foldl (input.stepAt r'.allocationBase) none).getD { info := newRegion r }) := by
    rw [target, hr]
    simp only [hb, if_true, hu]
  obtain ⟨-, t, ht, -, hs⟩ := final_of_target pre' post' hfirst
  have htarget : ∃ t, input.target r'.allocationBase
      ((pre' ++ g :: post').foldl (input.stepAt r'.allocationBase) none) ev = some t := by
    rw [ht, target, hr']
    simp only [if_true]
    cases r'.usable <;> exact ⟨_, rfl⟩
  obtain ⟨t₁, ht₁⟩ := htarget
  obtain ⟨hs₁, t₂, ht₂, hg₂, -⟩ := final_of_target _ post ht₁
  rw [← hsplit] at ht₂
  obtain ⟨⟨r₂, hq, hu₂⟩, -⟩ := h.isFloating hsize hcap hp ht₂
    (hg₂.entries _ ((hasEntry_run hs₁.wellFormed _ _).2 (.inl rfl))) (not_knownEntry hr' _)
  rw [(allocOf_eq_some.1 (place_fresh hr').1).1, Option.some.injEq] at hq
  rw [hq]
  exact hu₂

theorem Correct.alike (h : input.Correct refs slots) {x y : ModuleReference} (hx : x ∈ refs)
    (hy : y ∈ refs) {r r' : MemoryRegionInfo} (hr : input.place x.event = .fresh r)
    (hr' : input.place y.event = .fresh r') (hb : r.allocationBase = r'.allocationBase)
    (hu : r.usable = true) : r'.usable = true ∧ newRegion r = newRegion r' := by
  by_cases hxy : x = y
  · subst hxy
    rw [hr] at hr'
    cases hr'
    exact ⟨hu, rfl⟩
  · have hperm : ∀ {z : ModuleReference}, z ∈ refs → (z :: refs.erase z).Perm refs :=
      fun hz => (List.perm_cons_erase hz).symm
    have hu' : r'.usable = true := by
      have hmem : y ∈ refs.erase x := (List.mem_erase_of_ne (Ne.symm hxy)).2 hy
      obtain ⟨pre, post, hsplit⟩ := List.append_of_mem hmem
      have hevents : events (x :: refs.erase x) slots =
          (x.event :: pre.map ModuleReference.event) ++
            y.event :: (post.map ModuleReference.event ++ slots.map slotEvent) := by
        rw [events, hsplit]
        simp
      exact h.usable hsize hcap (hperm hx) hevents List.mem_cons_self hr hr' hb hu
    refine ⟨hu', ?_⟩
    have htarget : ∀ {z : ModuleReference} {q : MemoryRegionInfo},
        input.place z.event = .fresh q → q.usable = true →
        input.target q.allocationBase none z.event = some { info := newRegion q } := by
      intro z q hq hqu
      rw [target, hq]
      simp only [if_true, hqu]
      rfl
    obtain ⟨hs, t, ht, hg, hst⟩ := final_first refs slots (htarget hr hu)
    obtain ⟨hs', t', ht', hg', -⟩ := final_first refs slots (htarget hr' hu')
    have hc : t.changed = true := hst.changed
      (hg.entries _ ((hasEntry_run hs.wellFormed _ _).2 (.inl rfl))) (not_knownEntry hr _)
    obtain ⟨t₂, ht₂, -, hprot, htype, hname⟩ := h.same hsize hcap (hperm hx) (hperm hy) ht hc
    rw [hb, ht', Option.some.injEq] at ht₂
    subst ht₂
    have hrest := ((hs.grows_add x.event).trans hg).rest
    have hrest' := ((hs'.grows_add y.event).trans hg').rest
    have hsz := allocOf_size (place_fresh hr).1 (place_fresh hr').1 hb.symm
    have hp : r.protect = r'.protect :=
      (congrArg FloatingRegionInfo.protect hrest :).symm.trans
        (hprot.symm.trans (congrArg FloatingRegionInfo.protect hrest' :))
    have ht : r.type = r'.type :=
      (congrArg FloatingRegionInfo.type hrest :).symm.trans
        (htype.symm.trans (congrArg FloatingRegionInfo.type hrest' :))
    have hn : r.mappedName = r'.mappedName :=
      (congrArg FloatingRegionInfo.mappedName hrest :).symm.trans
        (hname.symm.trans (congrArg FloatingRegionInfo.mappedName hrest' :))
    unfold newRegion
    rw [hb, hsz, hp, ht, hn]

theorem Correct.oneKind (h : input.Correct refs slots) {x y : ModuleReference} (hx : x ∈ refs)
    (hy : y ∈ refs) (hf : x.refFrom = y.refFrom) (ht : x.refTo = y.refTo)
    (hnew : (∃ k, input.place x.event = .known k ∧
        ∀ o, k.kindAt x.refTo x.refFrom = some o → o = .unknown) ∨
      (∃ r, input.place x.event = .fresh r ∧ r.usable = true))
    (hkx : x.kind ≠ .unknown) (hky : y.kind ≠ .unknown) (hyd : y.kind ≠ .data) :
    x.kind = y.kind := by
  have hperm : ∀ {z : ModuleReference}, z ∈ refs → (z :: refs.erase z).Perm refs :=
    fun hz => (List.perm_cons_erase hz).symm
  -- both references lead to one region, which has no kind for them yet
  obtain ⟨base, t₀, hkind, htx, hty, hk⟩ : ∃ base t₀,
      (∀ o, t₀.info.kindAt x.refTo x.refFrom = some o → o = .unknown) ∧
      input.target base none x.event = some t₀ ∧ input.target base none y.event = some t₀ ∧
      ∀ m ∈ input.modules.list, ∀ k, m.floating = some k → k.allocationBase = base →
      t₀.info = k := by
    have hplace : input.place x.event ≠ .skip → input.place y.event = input.place x.event :=
      fun hne =>
        (place_congr (x := x.event) (y := y.event) hf ht (kind_of_place x.event hne) hyd).symm
    rcases hnew with ⟨k, hk, hkind⟩ | ⟨r, hr, hu⟩
    · obtain ⟨m, hm, hmk, -⟩ := place_known hk
      refine ⟨k.allocationBase, { info := k }, hkind, ?_, ?_, fun m' hm' k' hk' hb =>
        (floating_unique hm' hm hk' hmk hb).symm⟩
      · rw [target, hk]
        exact if_pos rfl
      · rw [target, hplace (by rw [hk]; exact nofun), hk]
        exact if_pos rfl
    · refine ⟨r.allocationBase, { info := newRegion r }, nofun, ?_, ?_, fun m hm k hk hb =>
        absurd hb.symm (known_ne_fresh hm hk (place_fresh hr).1)⟩
      · rw [target, hr]
        simp only [if_true, hu]
        rfl
      · rw [target, hplace (by rw [hr]; exact nofun), hr]
        simp only [if_true, hu]
        rfl
  have hmerge : ∀ k : ReferenceKind,
      FloatingEntryInfo.mergeKind (t₀.info.kindAt x.refTo x.refFrom) k = k := by
    intro k
    cases ho : t₀.info.kindAt x.refTo x.refFrom with
    | none => rfl
    | some o =>
      rw [hkind o ho]
      rfl
  obtain ⟨hs, t, hft, hg, hst⟩ := final_first refs slots htx
  obtain ⟨-, t', hft', hg', -⟩ := final_first refs slots hty
  have hx' : (t₀.add x.event).info.kindAt x.refTo x.refFrom = some x.kind := by
    show (t₀.info.addReference x.refTo x.refFrom x.kind).region.kindAt _ _ = _
    rw [hs.wellFormed.kindAt_addReference, if_pos ⟨rfl, rfl⟩, hmerge]
  have hy' : (t₀.add y.event).info.kindAt x.refTo x.refFrom = some y.kind := by
    show (t₀.info.addReference y.refTo y.refFrom y.kind).region.kindAt _ _ = _
    rw [← hf, ← ht, hs.wellFormed.kindAt_addReference, if_pos ⟨rfl, rfl⟩, hmerge]
  have hkt := hg.kinds _ _ _ hx' hkx
  have hkt' := hg'.kinds _ _ _ hy' hky
  have hc : t.changed = true := by
    by_contra hc
    rcases hst.unchanged (by simpa using hc) with he | ⟨m, hm, hmk⟩
    · rw [FloatingRegionInfo.kindAt, FloatingRegionInfo.findEntry, he] at hkt
      cases hkt
    · rw [← hk m hm t.info hmk hst.allocationBase] at hkt
      exact hkx (hkind _ hkt)
  obtain ⟨t₂, ht₂, hentries, -⟩ := h.same hsize hcap (hperm hx) (hperm hy) hft hc
  rw [hft', Option.some.injEq] at ht₂
  subst ht₂
  have hsame : t'.info.kindAt x.refTo x.refFrom = t.info.kindAt x.refTo x.refFrom := by
    unfold FloatingRegionInfo.kindAt FloatingRegionInfo.findEntry
    rw [hentries]
  rw [hkt, hkt', Option.some.injEq] at hsame
  exact hsame.symm

theorem Correct.consistent (h : input.Correct refs slots) : input.Consistent refs slots where
  known _ hev _ hp hne := h.known hsize hcap hev hp hne
  alike _ hx _ hy _ _ hr hr' hb hu := h.alike hsize hcap hx hy hr hr' hb hu
  slotFirst pre s post hslots r' hp hu ev hev r hr hb := by
    have hevents : events refs slots =
        events refs pre ++ slotEvent s :: post.map slotEvent := by
      rw [hslots, events, events]
      simp
    by_contra hne
    have := h.usable hsize hcap (List.Perm.refl refs) hevents hev hr hp hb (by simpa using hne)
    rw [hu] at this
    cases this
  oneKind _ hx _ hy hf ht hnew hkx hky hyd := h.oneKind hsize hcap hx hy hf ht hnew hkx hky hyd

end Correct

/-- The pass adds floating code only and does not depend on the order of the references, exactly on
the consistent inputs. -/
theorem correct_iff (input : Input) (refs : List ModuleReference) (slots : List PointerSlotInfo)
    (hcap : (input.newBases (events refs slots)).length < maxNewRegions) :
    input.Correct refs slots ↔ input.source.size = 0 ∨ input.Consistent refs slots := by
  constructor
  · intro h
    by_cases hsize : input.source.size = 0
    · exact .inl hsize
    · exact .inr (h.consistent hsize hcap)
  · rintro (hsize | h)
    · intro refs' _
      simp only [collect, if_pos hsize]
      exact ⟨nofun, trivial⟩
    · exact h.correct hcap

/-! ## Two pages of one allocation -/

theorem length_newBases_le (events : List Event) :
    (input.newBases events).length ≤ events.length :=
  (List.dedup_sublist _).length_le.trans (List.length_filterMap_le _ _)

theorem place_of_query {ev : Event} (hto : ev.refTo ≠ 0) (hkind : ev.kind ≠ .data)
    (hin : input.source.isInRange ev.refFrom = true)
    (hout : input.source.isInRange ev.refTo = false)
    (hzero : input.process.zeroFilled ev.refTo = false)
    (hmod : ∀ m ∈ input.modules.list, m.isInRange ev.refTo = false) {r : MemoryRegionInfo}
    (hq : input.process.query ev.refTo = some r) (hs : r.allocationSize ≠ 0)
    (hov : ∀ m ∈ input.modules.list, r.allocationBase + r.allocationSize - 1 < m.address) :
    input.place ev = .fresh r := by
  have hnone : findModule input.sorted ev.refTo = none := by
    cases hf : findModule input.sorted ev.refTo with
    | none => rfl
    | some m =>
      obtain ⟨hm, hr⟩ := input.findModule_eq_some.1 hf
      rw [hmod m hm] at hr
      cases hr
  have halloc : input.allocOf ev.refTo = some r := by
    refine allocOf_eq_some.2 ⟨hq, hs, ?_⟩
    rw [overlapsModule, List.any_eq_false]
    intro m hm ho
    exact absurd (of_decide_eq_true ho).1 (not_le.2 (hov m (input.mem_sorted.1 hm)))
  unfold place
  rw [if_neg (by simp [hto, hkind, hin, hout]), if_neg (by simp [hzero]), hnone]
  simp only [halloc]

end Input

/-- A page of code and a page of data, allocated as one. -/
def codePage : MemoryRegionInfo :=
  { allocationBase := 0x10000, allocationSize := 0x2000, regionBase := 0x10000, regionSize := 0x1000
    protect := 5, committed := true, type := 0, mappedName := [] }

def dataPage : MemoryRegionInfo :=
  { codePage with regionBase := 0x11000, protect := 3 }

def queryPages (a : Address) : Option MemoryRegionInfo :=
  if a.val / 0x1000 = 0x10 then some codePage
  else if a.val / 0x1000 = 0x11 then some dataPage else none

theorem queryPages_eq_some {a : Address} {r : MemoryRegionInfo} (h : queryPages a = some r) :
    r = codePage ∧ a.val / 0x1000 = 0x10 ∨ r = dataPage ∧ a.val / 0x1000 = 0x11 := by
  unfold queryPages at h
  split at h
  · rename_i ha
    cases h
    exact .inl ⟨rfl, ha⟩
  · split at h
    · rename_i ha
      cases h
      exact .inr ⟨rfl, ha⟩
    · cases h

theorem queryPages_of_lt {a : Address} (h : (0x10000 : Nat) ≤ a.val) (h' : a.val < 0x12000) :
    ∃ r, queryPages a = some r ∧ r.allocationBase = 0x10000 ∧ r.allocationSize = 0x2000 := by
  unfold queryPages
  by_cases ha : a.val / 0x1000 = 0x10
  · rw [if_pos ha]
    exact ⟨codePage, rfl, rfl, rfl⟩
  · rw [if_neg ha, if_pos (by omega)]
    exact ⟨dataPage, rfl, rfl, rfl⟩

def twoPages : ProcessMemory where
  query := queryPages
  zeroFilled _ := false
  fingerprint _ _ := ([], 0, 0)
  page h := by
    unfold queryPages
    rw [h]
  same_region := by
    intro a b r hq hb
    rcases queryPages_eq_some hq with ⟨rfl, -⟩ | ⟨rfl, -⟩
    · have hr := (sub_lt_iff (show codePage.regionBase.val + codePage.regionSize.val ≤ 2 ^ 64 by
        decide)).1 hb
      have h1 : 0x10000 ≤ b.val := Fin.le_def.1 hr.1
      have h2 : b.val < 0x10000 + 0x1000 := hr.2
      exact if_pos (by omega)
    · have hr := (sub_lt_iff (show dataPage.regionBase.val + dataPage.regionSize.val ≤ 2 ^ 64 by
        decide)).1 hb
      have h1 : 0x11000 ≤ b.val := Fin.le_def.1 hr.1
      have h2 : b.val < 0x11000 + 0x1000 := hr.2
      unfold queryPages
      rw [if_neg (by omega), if_pos (by omega)]
  mem_allocation := by
    intro a r hq _
    have ha : r.allocationBase = 0x10000 ∧ r.allocationSize = 0x2000 ∧
        0x10000 ≤ a.val ∧ a.val < 0x12000 := by
      rcases queryPages_eq_some hq with ⟨rfl, ha⟩ | ⟨rfl, ha⟩
      · exact ⟨rfl, rfl, by omega, by omega⟩
      · exact ⟨rfl, rfl, by omega, by omega⟩
    rw [ha.1, ha.2.1, sub_lt_iff (by decide)]
    exact ⟨Fin.le_def.2 ha.2.2.1, ha.2.2.2⟩
  allocation_le := by
    intro a r hq
    rcases queryPages_eq_some hq with ⟨rfl, -⟩ | ⟨rfl, -⟩ <;> decide
  same_allocation := by
    intro a b r hq hb
    have hr : r.allocationBase = 0x10000 ∧ r.allocationSize = 0x2000 := by
      rcases queryPages_eq_some hq with ⟨rfl, -⟩ | ⟨rfl, -⟩ <;> exact ⟨rfl, rfl⟩
    rw [hr.1, hr.2, sub_lt_iff (by decide)] at hb
    rw [hr.1, hr.2]
    exact queryPages_of_lt (Fin.le_def.1 hb.1) hb.2

/-- One module that refers to both pages. -/
def twoPagesInput : Input where
  process := twoPages
  source := { address := 0x400000, lastValidAddress := 0x400fff, size := 0x1000, floating := none }
  modules :=
    { list :=
        [{ address := 0x400000, lastValidAddress := 0x400fff, size := 0x1000, floating := none }]
      le := by
        intro m hm
        rw [List.mem_singleton.1 hm]
        decide
      apart := List.pairwise_singleton _ _
      floating := by
        intro m hm k hk
        rw [List.mem_singleton.1 hm] at hk
        cases hk }

def codeRef : ModuleReference := { refFrom := 0x400010, refTo := 0x10000, kind := .code }

def dataRef : ModuleReference := { refFrom := 0x400020, refTo := 0x11000, kind := .address }

/-- An address that is taken in the page of code. -/
def innerRef : ModuleReference := { refFrom := 0x400020, refTo := 0x10040, kind := .address }

/-- A slot that leads there, too. -/
def codeSlot : PointerSlotInfo :=
  { slot := 0x400100, value := 0x10020, kind := .kindImport, name := [] }

theorem place_code {ev : Event} (hev : ev ∈ events [codeRef, innerRef] [codeSlot]) :
    twoPagesInput.place ev = .fresh codePage := by
  have hcases : ev = codeRef.event ∨ ev = innerRef.event ∨ ev = slotEvent codeSlot := by
    simpa [events] using hev
  rcases hcases with rfl | rfl | rfl <;>
    refine Input.place_of_query (by decide) (by decide) (by decide) (by decide) rfl ?_ rfl
    (by decide) ?_ <;> (intro m hm; rw [List.mem_singleton.1 hm]; decide)

theorem place_codeRef : twoPagesInput.place codeRef.event = .fresh codePage :=
  place_code List.mem_cons_self

theorem place_dataRef : twoPagesInput.place dataRef.event = .fresh dataPage := by
  refine Input.place_of_query (by decide) (by decide) (by decide) (by decide) rfl ?_ rfl
    (by decide) ?_
  · intro m hm
    rw [List.mem_singleton.1 hm]
    decide
  · intro m hm
    rw [List.mem_singleton.1 hm]
    decide

theorem consistent_code : twoPagesInput.Consistent [codeRef, innerRef] [codeSlot] where
  known ev hev k hp := by
    rw [place_code hev] at hp
    cases hp
  alike x hx y hy r r' hr hr' _ hu := by
    have hx' : x.event ∈ events [codeRef, innerRef] [codeSlot] :=
      List.mem_append_left _ (List.mem_map_of_mem hx)
    have hy' : y.event ∈ events [codeRef, innerRef] [codeSlot] :=
      List.mem_append_left _ (List.mem_map_of_mem hy)
    rw [place_code hx'] at hr
    rw [place_code hy'] at hr'
    cases hr
    cases hr'
    exact ⟨hu, rfl⟩
  slotFirst pre s post h r' hr' hu := by
    have hs : s ∈ [codeSlot] := h ▸ List.mem_append_right _ List.mem_cons_self
    rw [place_code (List.mem_append_right _ (List.mem_map_of_mem hs))] at hr'
    cases hr'
    exact absurd hu (by decide)
  oneKind x hx y hy hfrom _ _ _ _ _ := by
    rcases List.mem_pair.1 hx with rfl | rfl <;> rcases List.mem_pair.1 hy with rfl | rfl <;>
      first | rfl | exact absurd hfrom (by decide)

/-- A call, an address and a slot, all into the page of code. -/
theorem correct_codeRef :
    (twoPagesInput.newBases (events [codeRef, innerRef] [codeSlot])).length < maxNewRegions ∧
      twoPagesInput.Correct [codeRef, innerRef] [codeSlot] := by
  have hcap : (twoPagesInput.newBases (events [codeRef, innerRef] [codeSlot])).length <
      maxNewRegions :=
    lt_of_le_of_lt (Input.length_newBases_le _) (by decide)
  exact ⟨hcap, (twoPagesInput.correct_iff [codeRef, innerRef] [codeSlot] hcap).2
    (.inr consistent_code)⟩

/-- A call into the page of code and an address in the page of data: the order decides whether the
page of data gets an entry. -/
theorem not_correct_dataRef :
    (twoPagesInput.newBases (events [codeRef, dataRef] [])).length < maxNewRegions ∧
      ¬ twoPagesInput.Correct [codeRef, dataRef] [] := by
  have hcap : (twoPagesInput.newBases (events [codeRef, dataRef] [])).length < maxNewRegions :=
    lt_of_le_of_lt (Input.length_newBases_le _) (by decide)
  refine ⟨hcap, fun h => ?_⟩
  have hc := (h.consistent (by decide) hcap).alike codeRef List.mem_cons_self dataRef
    (List.mem_cons_of_mem _ List.mem_cons_self) codePage dataPage place_codeRef
    place_dataRef rfl rfl
  exact absurd hc.1 (by decide)

end Diana.Orthia.Collect
