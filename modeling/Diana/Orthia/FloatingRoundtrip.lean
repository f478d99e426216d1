import Diana.Orthia.FloatingFormat

/-!
# Floating regions survive the database

A region that calls of `AddReference` and `AddSlot` made is well-formed, and what is saved of it is
read back.
-/

namespace Diana.Orthia

open Diana.Lib

/-! ## Entries read back -/

theorem mapM_map_some {α β γ : Type} {f : α → β} {g : β → Option γ} {h : α → γ} {l : List α}
    (hl : ∀ x ∈ l, g (f x) = some (h x)) : (l.map f).mapM g = some (l.map h) := by
  induction l with
  | nil => rfl
  | cons x l ih =>
    rw [List.map_cons, List.mapM_cons, hl x List.mem_cons_self,
      ih fun y hy => hl y (List.mem_cons_of_mem _ hy)]
    rfl

theorem notMem_kindText {c : Byte} (hc : c ∉ ascii "/cad") (k : ReferenceKind) :
    c ∉ kindText k := by
  intro h
  refine hc ?_
  cases k with
  | unknown => cases h
  | code | address | data =>
    rcases List.mem_cons.1 h with rfl | h
    · exact List.mem_cons_self
    · rw [List.mem_singleton.1 h]
      decide

/-- The text of a referrer with its kind. -/
def pairText (p : Address × ReferenceKind) : List Byte := hexText p.1 ++ kindText p.2

theorem referrerTexts_eq {e : FloatingEntryInfo}
    (h : e.referrerKinds.length = e.referrers.length) :
    (e.referrers.zipIdx.map fun p => referrerText e p.1 p.2) = e.refs.map pairText := by
  refine List.ext_getElem (by simp [FloatingEntryInfo.refs, h]) fun i h1 h2 => ?_
  have hi : i < e.referrerKinds.length := by
    rw [List.length_map, List.length_zipIdx] at h1
    omega
  simp [FloatingEntryInfo.refs, referrerText, pairText, hi]

theorem pairText_ne_nil (p : Address × ReferenceKind) : pairText p ≠ [] := by
  have := toHex_ne_nil p.1.val
  simp [pairText, hexText, this]

theorem notMem_pairText {c : Byte} (hd : digitValue c = none) (hc : c ∉ ascii "/cad")
    (p : Address × ReferenceKind) : c ∉ pairText p :=
  fun h => (List.mem_append.1 h).elim (notMem_hexText hd _) (notMem_kindText hc _)

theorem parseReferrer_pairText (p : Address × ReferenceKind) :
    parseReferrer (pairText p) = some p := by
  obtain ⟨a, k⟩ := p
  have ha := notMem_hexText (c := 47) rfl a
  unfold parseReferrer pairText
  cases k with
  | unknown =>
    show (do
      let referrer ← parseHex (cutAt 47 (hexText a ++ [])).1
      some (referrer, ((cutAt 47 (hexText a ++ [])).2.map parseKind).getD .unknown)) = _
    rw [List.append_nil, cutAt_of_notMem ha, parseHex_hexText]
    rfl
  | code | address | data =>
    rw [show kindText _ = 47 :: [_] from rfl, cutAt_append ha]
    simp only [parseHex_hexText]
    rfl

theorem referrerLe_of_sorted {refs : List (Address × ReferenceKind)}
    (h : SortedVec.Sorted Prod.fst refs) : refs.mergeSort referrerLe = refs :=
  List.mergeSort_of_pairwise (h.imp fun hab => decide_eq_true (.inl hab))

theorem parseEntry_entryText {e : FloatingEntryInfo} (h : e.WellFormed) :
    parseEntry (entryText e) = some { e with slots := [] } := by
  have hcut : cutAt 58 (entryText e) = (hexText e.address, some ([44].intercalate
      (e.refs.map pairText))) := by
    rw [entryText, cutAt_append (notMem_hexText rfl _), referrerTexts_eq h.kinds]
  have hsplit : split 44 ([44].intercalate (e.refs.map pairText)) = e.refs.map pairText := by
    refine split_intercalate ?_ ?_
    · simp only [List.forall_mem_map]
      exact fun p _ => notMem_pairText rfl (by decide) p
    · simp only [List.forall_mem_map]
      exact fun p _ => pairText_ne_nil p
  have hmap : (e.refs.map pairText).mapM parseReferrer = some e.refs := by
    rw [mapM_map_some (h := id) fun p _ => parseReferrer_pairText p, List.map_id]
  unfold parseEntry
  simp only [hcut, parseHex_hexText, Option.getD_some, hsplit, hmap]
  show some _ = _
  rw [referrerLe_of_sorted h.sorted_refs, FloatingEntryInfo.map_fst_refs h.kinds,
    FloatingEntryInfo.map_snd_refs h.kinds]

theorem mem_entryText {e : FloatingEntryInfo} (h : e.WellFormed) {c : Byte} (hc : c ∈ entryText e) :
    (digitValue c).isSome ∨ c = 58 ∨ c = 44 ∨ c ∈ ascii "/cad" := by
  by_contra hn
  simp only [not_or, Option.not_isSome_iff_eq_none] at hn
  obtain ⟨hd, h58, h44, hk⟩ := hn
  rw [entryText, referrerTexts_eq h.kinds] at hc
  rcases List.mem_append.1 hc with hc | hc
  · exact notMem_hexText hd _ hc
  · rcases List.mem_cons.1 hc with hc | hc
    · exact h58 hc
    · rcases mem_intercalate hc with hc | ⟨i, hi, hc⟩
      · exact h44 hc
      · obtain ⟨p, -, rfl⟩ := List.mem_map.1 hi
        exact notMem_pairText hd hk p hc

theorem entryText_ne_nil (e : FloatingEntryInfo) : entryText e ≠ [] := by simp [entryText]

theorem entriesText_eq (r : FloatingRegionInfo) :
    entriesText r = [59].intercalate (r.entries.map entryText) :=
  foldl_appendItem (by
    simp only [List.forall_mem_map]
    exact fun e _ => entryText_ne_nil e)

theorem parseEntries_entriesText {r : FloatingRegionInfo} (h : r.WellFormed) :
    parseEntries (entriesText r) = some (r.entries.map fun e => { e with slots := [] }) := by
  have hsplit : split 59 (entriesText r) = r.entries.map entryText := by
    rw [entriesText_eq]
    refine split_intercalate ?_ ?_
    · simp only [List.forall_mem_map]
      intro e he hc
      rcases mem_entryText (h.entry e he) hc with hc | hc | hc | hc <;> revert hc <;> decide
    · simp only [List.forall_mem_map]
      exact fun e _ => entryText_ne_nil e
  have hmap : (r.entries.map entryText).mapM parseEntry =
      some (r.entries.map fun e => { e with slots := [] }) :=
    mapM_map_some fun e he => parseEntry_entryText (h.entry e he)
  unfold parseEntries
  rw [hsplit, hmap]
  show some _ = _
  refine congrArg some (List.mergeSort_of_pairwise (List.pairwise_map.2 ?_))
  exact h.entries.imp fun hab => decide_eq_true (le_of_lt hab)

/-! ## Slots read back -/

theorem slotText_ne_nil (s : PointerSlotInfo) : slotText s ≠ [] := List.cons_ne_nil _ _

theorem notMem_slotText {c : Byte} (hd : digitValue c = none) (hs : isSeparator c) (h37 : c ≠ 37)
    (h61 : c ≠ 61) (s : PointerSlotInfo) : c ∉ slotText s := by
  intro h
  rcases List.mem_cons.1 h with h | h
  · split at h <;> rw [h] at hs <;> revert hs <;> decide
  · rcases List.mem_append.1 h with h | h
    · exact notMem_hexText hd _ h
    · rcases List.mem_cons.1 h with h | h
      · exact h61 h
      · exact notMem_escapeName hs h37 _ h

theorem parseSlot_slotText (s : PointerSlotInfo) :
    parseSlot (slotText s) = some { s with value := 0 } := by
  obtain ⟨slot, value, kind, name⟩ := s
  have hcut : ∀ k : Byte, k ≠ 61 → cutAt 61 (k :: (hexText slot ++ 61 :: escapeName name)) =
      (k :: hexText slot, some (escapeName name)) := by
    intro k hk
    rw [← List.cons_append]
    refine cutAt_append ?_ _
    intro h
    rcases List.mem_cons.1 h with h | h
    · exact hk h.symm
    · exact notMem_hexText rfl _ h
  have hread : ∀ k : Byte, k = 105 ∨ k = 101 →
      parseSlot (k :: (hexText slot ++ 61 :: escapeName name)) =
        some { slot, value := 0, kind := if k = 101 then .kindExport else .kindImport, name } := by
    intro k hk
    have hok : ¬ ((k :: (hexText slot ++ 61 :: escapeName name)).length < 2 ∨
        k ≠ 105 ∧ k ≠ 101) := by
      rintro (h | h)
      · simp only [List.length_cons, List.length_append] at h
        omega
      · exact hk.elim h.1 h.2
    unfold parseSlot
    rw [hcut k (by rcases hk with rfl | rfl <;> decide)]
    show (if _ then none else _) = _
    rw [if_neg hok, List.tail_cons, parseHex_hexText, unescapeName_escapeName]
    rfl
  cases kind with
  | kindImport => exact hread 105 (.inl rfl)
  | kindExport => exact hread 101 (.inr rfl)

/-- The slots of an entry are added one after the other, each after the ones before it. -/
theorem foldlM_slotText {e : FloatingEntryInfo} {pre post : List FloatingEntryInfo}
    (todo : List PointerSlotInfo) :
    ∀ {r : FloatingRegionInfo} {done : List PointerSlotInfo},
      r.entries = pre ++ { e with slots := done } :: post →
      SortedVec.Sorted FloatingEntryInfo.address r.entries →
      { e with slots := done ++ todo }.WellFormed →
      (todo.map slotText).foldlM
          (fun r text => do return (r.addSlot e.address (← parseSlot text)).region) r =
        some { r with entries := pre ++ { e with slots := done ++ todo } :: post } := by
  induction todo with
  | nil =>
    intro r done he hs hw
    rw [List.map_nil, List.foldlM_nil, List.append_nil, ← he]
    rfl
  | cons s todo ih =>
    intro r done he hs hw
    have hdone : { e with slots := done }.WellFormed :=
      hw.withSlots (hw.slots.sublist (List.sublist_append_left _ _)) fun t ht =>
        hw.values t (List.mem_append_left _ ht)
    have hval : s.value = e.address := hw.values s (List.mem_append_right _ List.mem_cons_self)
    have hlt : ∀ t ∈ done, t.slot < s.slot := fun t ht =>
      (List.pairwise_append.1 hw.slots).2.2 t ht s List.mem_cons_self
    have hmem : { e with slots := done } ∈ r.entries := by
      rw [he]
      exact List.mem_append_right _ List.mem_cons_self
    have hfind : r.findEntry e.address = some { e with slots := done } :=
      SortedVec.find_of_mem hs hmem
    have hput : SortedVec.put FloatingEntryInfo.address { e with slots := done ++ [s] } r.entries =
        pre ++ { e with slots := done ++ [s] } :: post := by
      rw [he] at hs ⊢
      exact SortedVec.put_middle hs rfl
    have hadd : ({ e with slots := done }.addSlot { s with value := 0 }).1 =
        { e with slots := done ++ [s] } := by
      rw [hdone.addSlot_eq]
      show { e with slots := SortedVec.put _ { s with value := e.address } done } = _
      rw [← hval, SortedVec.put_append_of_lt hlt]
    have hregion : (r.addSlot e.address { s with value := 0 }).region =
        { r with entries := pre ++ { e with slots := done ++ [s] } :: post } := by
      unfold FloatingRegionInfo.addSlot FloatingRegionInfo.updateEntry
      rw [hfind, Option.getD_some]
      show { r with
        entries := SortedVec.put FloatingEntryInfo.address (_ : FloatingEntryInfo × _).1 _ } = _
      rw [hadd, hput]
    have happ : done ++ s :: todo = done ++ [s] ++ todo := by simp
    rw [happ] at hw ⊢
    rw [List.map_cons, List.foldlM_cons, parseSlot_slotText]
    show List.foldlM _ (r.addSlot e.address { s with value := 0 }).region _ = _
    rw [hregion]
    exact ih rfl (hput ▸ hs.put _) hw

theorem parseEntrySlots_text {e : FloatingEntryInfo} (h : e.WellFormed) {r : FloatingRegionInfo}
    {pre post : List FloatingEntryInfo} (he : r.entries = pre ++ { e with slots := [] } :: post)
    (hs : SortedVec.Sorted FloatingEntryInfo.address r.entries) :
    parseEntrySlots r (entrySlotsText e) = some { r with entries := pre ++ e :: post } := by
  have hsplit : split 44 ([44].intercalate (e.slots.map slotText)) = e.slots.map slotText := by
    refine split_intercalate ?_ ?_
    · simp only [List.forall_mem_map]
      exact fun s _ => notMem_slotText rfl rfl (by decide) (by decide) s
    · simp only [List.forall_mem_map]
      exact fun s _ => slotText_ne_nil s
  unfold parseEntrySlots entrySlotsText
  rw [cutAt_append (notMem_hexText rfl _)]
  simp only [parseHex_hexText, hsplit, Option.bind_eq_bind, Option.bind_some]
  exact foldlM_slotText e.slots he hs h

/-- The entries that have slots get them back, one entry after the other. -/
theorem foldlM_parseEntrySlots (todo : List FloatingEntryInfo) :
    ∀ (pre : List FloatingEntryInfo) {r : FloatingRegionInfo},
      r.entries = pre ++ todo.map (fun e => { e with slots := [] }) →
      SortedVec.Sorted FloatingEntryInfo.address r.entries →
      (∀ e ∈ todo, e.WellFormed) →
      ((todo.filter fun e => e.slots ≠ []).map entrySlotsText).foldlM parseEntrySlots r =
        some { r with entries := pre ++ todo } := by
  induction todo with
  | nil =>
    intro pre r he hs hw
    rw [List.filter_nil, List.map_nil, List.foldlM_nil, show pre ++ [] = r.entries from he.symm]
    rfl
  | cons e todo ih =>
    intro pre r he hs hw
    have hw' : ∀ e ∈ todo, e.WellFormed := fun e he => hw e (List.mem_cons_of_mem _ he)
    have happ : pre ++ e :: todo = pre ++ [e] ++ todo := by simp
    by_cases hn : e.slots = []
    · have hclear : { e with slots := [] } = e := by
        rw [← hn]
      rw [List.filter_cons_of_neg (by simp [hn]), happ]
      refine ih _ ?_ hs hw'
      rw [he, List.map_cons, hclear]
      simp
    · rw [List.filter_cons_of_pos (by simp [hn]), List.map_cons, List.foldlM_cons,
        parseEntrySlots_text (hw e List.mem_cons_self) he hs, happ]
      refine ih _ (r := { r with entries := pre ++ e :: todo.map fun e => { e with slots := [] } })
        (by simp) ?_ hw'
      have hput : SortedVec.put FloatingEntryInfo.address e r.entries =
          pre ++ e :: todo.map fun e => { e with slots := [] } := by
        rw [he, List.map_cons] at hs ⊢
        exact SortedVec.put_middle hs rfl
      exact hput ▸ hs.put e

theorem entrySlotsText_ne_nil (e : FloatingEntryInfo) : entrySlotsText e ≠ [] := by
  simp [entrySlotsText]

theorem slotsText_eq (r : FloatingRegionInfo) :
    slotsText r =
      [59].intercalate ((r.entries.filter fun e => e.slots ≠ []).map entrySlotsText) :=
  foldl_appendItem (by
    simp only [List.forall_mem_map]
    exact fun e _ => entrySlotsText_ne_nil e)

theorem notMem_entrySlotsText {c : Byte} (hd : digitValue c = none) (hs : isSeparator c)
    (h37 : c ≠ 37) (h61 : c ≠ 61) (h58 : c ≠ 58) (h44 : c ≠ 44) (e : FloatingEntryInfo) :
    c ∉ entrySlotsText e := by
  intro h
  rcases List.mem_append.1 h with h | h
  · exact notMem_hexText hd _ h
  · rcases List.mem_cons.1 h with h | h
    · exact h58 h
    · rcases mem_intercalate h with h | ⟨i, hi, h⟩
      · exact h44 h
      · obtain ⟨s, -, rfl⟩ := List.mem_map.1 hi
        exact notMem_slotText hd hs h37 h61 s h

theorem parseSlots_slotsText {r : FloatingRegionInfo} (h : r.WellFormed) :
    parseSlots { r with entries := r.entries.map fun e => { e with slots := [] } } (slotsText r) =
      some r := by
  have hsplit : split 59 (slotsText r) =
      (r.entries.filter fun e => e.slots ≠ []).map entrySlotsText := by
    rw [slotsText_eq]
    refine split_intercalate ?_ ?_
    · simp only [List.forall_mem_map]
      exact fun e _ => notMem_entrySlotsText rfl rfl (by decide) (by decide) (by decide)
        (by decide) e
    · simp only [List.forall_mem_map]
      exact fun e _ => entrySlotsText_ne_nil e
  unfold parseSlots
  rw [hsplit]
  exact foldlM_parseEntrySlots r.entries []
    (r := { r with entries := r.entries.map fun e => { e with slots := [] } }) rfl
    (List.pairwise_map.2 h.entries) h.entry

/-! ## Regions read back -/

/-- A region whose other fields can be saved: it is not empty, its strings are C strings, and
without a snapshot file it has nothing about one. -/
structure FloatingRegionInfo.Savable (r : FloatingRegionInfo) : Prop where
  size : r.allocationSize ≠ 0
  protect : 0 ≤ r.protect ∧ r.protect < 2 ^ 31
  type : 0 ≤ r.type ∧ r.type < 2 ^ 31
  mappedName : 0 ∉ r.mappedName
  header : 0 ∉ r.header
  snapshotFile : 0 ∉ r.snapshotFile
  sha256 : 0 ∉ r.sha256
  snapshot : r.snapshotFile = [] → r.snapshotSize = 0 ∧ r.snapshotMissing = 0 ∧ r.sha256 = []

/-- A text without a zero byte is the C string of it. -/
theorem takeWhile_of_zero_notMem {text : List Byte} (h : 0 ∉ text) :
    text.takeWhile (· ≠ 0) = text :=
  List.takeWhile_eq_self_iff.2 fun b hb => decide_eq_true fun (e : b = 0) => h (e ▸ hb)

theorem lookup_addMetadata {value : List Byte} (h : 0 ∉ value) (field g : Field)
    (l : List (Field × List Byte)) :
    (addMetadata field value l).lookup g =
      (l.lookup g).or (if g = field then some value else none) := by
  unfold addMetadata
  rw [takeWhile_of_zero_notMem h, List.lookup_append, List.lookup_cons, List.lookup_nil]
  by_cases hg : g = field
  · simp [hg]
  · simp [hg, beq_eq_false_iff_ne.2 hg]

theorem zero_notMem_intText (n : Int) : 0 ∉ intText n :=
  fun h => digit_ne (isSome_of_mem_toHex h) rfl rfl

theorem zero_notMem_entriesText {r : FloatingRegionInfo} (h : r.WellFormed) :
    0 ∉ entriesText r := by
  intro hm
  rw [entriesText_eq] at hm
  rcases mem_intercalate hm with hm | ⟨i, hi, hm⟩
  · cases hm
  · obtain ⟨e, he, rfl⟩ := List.mem_map.1 hi
    rcases mem_entryText (h.entry e he) hm with hm | hm | hm | hm <;> revert hm <;> decide

theorem zero_notMem_slotsText (r : FloatingRegionInfo) : 0 ∉ slotsText r := by
  intro hm
  rw [slotsText_eq] at hm
  rcases mem_intercalate hm with hm | ⟨i, hi, hm⟩
  · cases hm
  · obtain ⟨e, -, rfl⟩ := List.mem_map.1 hi
    exact notMem_entrySlotsText rfl rfl (by decide) (by decide) (by decide) (by decide) e hm

/-- The attribute of a region that has the name. -/
def fieldText (r : FloatingRegionInfo) : Field → Option (List Byte)
  | .base => some (hexText r.allocationBase)
  | .size => some (hexText r.allocationSize)
  | .protect => some (intText r.protect)
  | .type => some (intText r.type)
  | .mapped => some r.mappedName
  | .header => some r.header
  | .hash => some (hexText r.bytesHash)
  | .hashed => some (hexText r.hashedSize)
  | .codeStart => some (hexText r.codeStart)
  | .codeLast => some (hexText r.codeLast)
  | .entries => some (entriesText r)
  | .slots => if slotsText r = [] then none else some (slotsText r)
  | .snapshot => if r.snapshotFile = [] then none else some r.snapshotFile
  | .snapshotSize => if r.snapshotFile = [] then none else some (hexText r.snapshotSize)
  | .snapshotMissing => if r.snapshotFile = [] then none else some (hexText r.snapshotMissing)
  | .sha256 => if r.snapshotFile = [] then none else some r.sha256

/-- What the queries find among the attributes of a region that can be saved. -/
theorem lookup_regionMetadata {r : FloatingRegionInfo} (h : r.WellFormed) (hs : r.Savable)
    (field : Field) : (regionMetadata r).lookup field = fieldText r field := by
  have hhex : ∀ a : Address, 0 ∉ hexText a := notMem_hexText rfl
  have hslots : ∀ l,
      (if slotsText r = [] then l else addMetadata .slots (slotsText r) l).lookup field =
      (l.lookup field).or (if slotsText r = [] then none
        else if field = .slots then some (slotsText r) else none) := by
    intro l
    split
    · rw [Option.or_none]
    · exact lookup_addMetadata (zero_notMem_slotsText r) _ _ _
  unfold regionMetadata fieldText
  by_cases hsnap : r.snapshotFile = []
  · simp only [hsnap, if_true, hslots, lookup_addMetadata (hhex _),
      lookup_addMetadata (zero_notMem_intText _), lookup_addMetadata hs.mappedName,
      lookup_addMetadata hs.header, lookup_addMetadata (zero_notMem_entriesText h), List.lookup_nil]
    cases field <;> simp
  · simp only [hsnap, if_false, hslots, lookup_addMetadata (hhex _),
      lookup_addMetadata (zero_notMem_intText _), lookup_addMetadata hs.mappedName,
      lookup_addMetadata hs.header, lookup_addMetadata (zero_notMem_entriesText h),
      lookup_addMetadata hs.snapshotFile, lookup_addMetadata hs.sha256, List.lookup_nil]
    cases field <;> simp

theorem zero_notMem_regionMetadata {r : FloatingRegionInfo} :
    ∀ p ∈ regionMetadata r, 0 ∉ p.2 := by
  have hadd : ∀ {field : Field} {value : List Byte} {l : List (Field × List Byte)},
      (∀ p ∈ l, 0 ∉ p.2) → ∀ p ∈ addMetadata field value l, 0 ∉ p.2 := by
    intro field value l hl p hp
    rcases List.mem_append.1 hp with hp | hp
    · exact hl p hp
    · rw [List.mem_singleton.1 hp]
      intro h0
      have := List.mem_takeWhile_imp h0
      simp at this
  unfold regionMetadata
  simp only
  split
  · split
    all_goals
      repeat apply hadd
      exact nofun
  · split
    all_goals
      repeat apply hadd
      exact nofun

theorem clampInt_of_lt {n : Int} (h : 0 ≤ n ∧ n < 2 ^ 31) :
    scanHex (intText n) = some (false, n.toNat, []) ∧ clampInt false n.toNat = n := by
  have hn : (n % 2 ^ 64).toNat = n.toNat := by rw [Int.emod_eq_of_lt h.1 (by omega)]
  refine ⟨?_, ?_⟩
  · rw [intText, hn]
    exact scanHex_toHex (by omega)
  · unfold clampInt
    rw [if_neg Bool.false_ne_true]
    omega

theorem parseMetadata_format (X : RootXml) (r : FloatingRegionInfo) :
    parseMetadata X (formatFloatingRegion X r) = some (regionMetadata r) := by
  have hz := X.zero_notMem (regionMetadata r) zero_notMem_regionMetadata
  unfold parseMetadata formatFloatingRegion
  rw [if_neg (X.print_ne _), takeWhile_of_zero_notMem hz,
    X.parse_print _ zero_notMem_regionMetadata]

/-- What is saved is read back. -/
theorem parseFloatingRegion_format (X : RootXml) {r : FloatingRegionInfo} (h : r.WellFormed)
    (hs : r.Savable) : parseFloatingRegion X (formatFloatingRegion X r) = some r := by
  have hlook := lookup_regionMetadata h hs
  have hslots : queryText (regionMetadata r) .slots = slotsText r := by
    rw [queryText, hlook, fieldText]
    split
    · rename_i hn
      exact hn.symm
    · rfl
  have hsnap : (queryText (regionMetadata r) .snapshot = r.snapshotFile ∧
      queryText (regionMetadata r) .sha256 = r.sha256) ∧
      (queryHex (regionMetadata r) .snapshotSize).getD 0 = r.snapshotSize ∧
      (queryHex (regionMetadata r) .snapshotMissing).getD 0 = r.snapshotMissing := by
    simp only [queryText, queryHex, hlook, fieldText]
    by_cases hn : r.snapshotFile = []
    · obtain ⟨h1, h2, h3⟩ := hs.snapshot hn
      simp [hn, h1, h2, h3]
    · simp [hn]
  have hint : queryInt (regionMetadata r) .protect = r.protect ∧
      queryInt (regionMetadata r) .type = r.type := by
    simp only [queryInt, hlook, fieldText, Option.bind_some, (clampInt_of_lt hs.protect).1,
      (clampInt_of_lt hs.type).1]
    exact ⟨(clampInt_of_lt hs.protect).2, (clampInt_of_lt hs.type).2⟩
  have hhex : ∀ field {a}, fieldText r field = some (hexText a) →
      queryHex (regionMetadata r) field = some a := by
    intro field a hf
    rw [queryHex, hlook, hf, Option.bind_some, parseHex_hexText]
  have htext : ∀ field {text}, fieldText r field = some text →
      queryText (regionMetadata r) field = text := by
    intro field text hf
    rw [queryText, hlook, hf, Option.getD_some]
  unfold parseFloatingRegion
  rw [parseMetadata_format X r]
  simp only [Option.bind_eq_bind, Option.bind_some, hhex .base rfl,
    hhex .size rfl, hhex .hash rfl, hhex .hashed rfl,
    hhex .codeStart rfl, hhex .codeLast rfl, htext .mapped rfl,
    htext .header rfl, htext .entries rfl, hslots, hsnap, hint,
    parseEntries_entriesText h, Option.getD_some]
  rw [if_neg hs.size]
  exact parseSlots_slotsText h

/-! ## The text of the element

The element as the library prints it, `<root base="1000" size="2000" .../>`, as an instance of
`RootXml`.
-/

/-- The name of an attribute. -/
def Field.name : Field → List Byte
  | .base => ascii "base"
  | .size => ascii "size"
  | .protect => ascii "protect"
  | .type => ascii "type"
  | .mapped => ascii "mapped"
  | .header => ascii "header"
  | .hash => ascii "hash"
  | .hashed => ascii "hashed"
  | .codeStart => ascii "code_start"
  | .codeLast => ascii "code_last"
  | .entries => ascii "entries"
  | .slots => ascii "slots"
  | .snapshot => ascii "snapshot"
  | .snapshotSize => ascii "snapshot_size"
  | .snapshotMissing => ascii "snapshot_missing"
  | .sha256 => ascii "sha256"

def Field.all : List Field :=
  [.base, .size, .protect, .type, .mapped, .header, .hash, .hashed, .codeStart, .codeLast, .entries,
    .slots, .snapshot, .snapshotSize, .snapshotMissing, .sha256]

def Field.ofName (name : List Byte) : Option Field := Field.all.find? fun f => f.name = name

theorem Field.ofName_name (f : Field) : Field.ofName f.name = some f := by
  cases f <;> decide +kernel

theorem Field.notMem_name {c : Byte} (hc : c = 0 ∨ c = 61) (f : Field) : c ∉ f.name := by
  rcases hc with rfl | rfl <;> cases f <;> decide

/-- The characters that are printed as entities, with their names. -/
def entities : List (Byte × List Byte) :=
  [(34, ascii "&quot;"), (38, ascii "&amp;"), (39, ascii "&apos;"), (60, ascii "&lt;"),
    (62, ascii "&gt;")]

def printChar (b : Byte) : List Byte := (entities.lookup b).getD [b]

/-- The first character of a value, and the rest. -/
def readChar : List Byte → Option (Byte × List Byte)
  | [] => none
  | b :: rest =>
    if b = 38 then
      entities.findSome? fun p => (afterText p.2 (b :: rest)).map fun rest => (p.1, rest)
    else some (b, rest)

/-- A value up to its closing quote, and the rest. -/
def readValue : (fuel : Nat) → List Byte → Option (List Byte × List Byte)
  | 0, _ => none
  | fuel + 1, text =>
    if text.head? = some 34 then some ([], text.tail)
    else do
      let (b, rest) ← readChar text
      let (value, rest) ← readValue fuel rest
      some (b :: value, rest)

def printAttribute (p : Field × List Byte) : List Byte :=
  32 :: (p.1.name ++ 61 :: 34 :: (p.2.flatMap printChar ++ [34]))

/-- Some attributes and the end of the element. -/
def readAttributes : (fuel : Nat) → List Byte → Option (List (Field × List Byte))
  | 0, _ => none
  | fuel + 1, text =>
    if text = ascii "/>" then some []
    else do
      let text ← afterText [32] text
      let (name, text) := cutAt 61 text
      let field ← Field.ofName name
      let text ← afterText [34] (← text)
      let (value, text) ← readValue (text.length + 1) text
      let rest ← readAttributes fuel text
      some ((field, value) :: rest)

/-- A character is printed as an entity or as itself. -/
theorem printChar_cases (b : Byte) :
    (b = 34 ∨ b = 38 ∨ b = 39 ∨ b = 60 ∨ b = 62) ∨ (b ≠ 34 ∧ b ≠ 38) ∧ printChar b = [b] := by
  by_cases h : b ∈ entities.map Prod.fst
  · simp only [entities, List.map_cons, List.map_nil, List.mem_cons, List.not_mem_nil,
      or_false] at h
    exact .inl h
  · have hl : entities.lookup b = none := by
      rw [List.lookup_eq_none_iff]
      exact fun p hp => bne_iff_ne.2 fun (e : b = p.1) => h (e ▸ List.mem_map_of_mem hp)
    refine .inr ⟨⟨?_, ?_⟩, by rw [printChar, hl, Option.getD_none]⟩
    · rintro rfl
      exact h (by decide)
    · rintro rfl
      exact h (by decide)

theorem readChar_printChar (b : Byte) (rest : List Byte) :
    readChar (printChar b ++ rest) = some (b, rest) := by
  rcases printChar_cases b with (rfl | rfl | rfl | rfl | rfl) | ⟨hb, hp⟩
  iterate 5 rfl
  rw [hp, List.singleton_append, readChar, if_neg hb.2]

theorem head?_printChar (b : Byte) (rest : List Byte) : (printChar b ++ rest).head? ≠ some 34 := by
  rcases printChar_cases b with (rfl | rfl | rfl | rfl | rfl) | ⟨hb, hp⟩
  iterate 5 nofun
  rw [hp, List.singleton_append, List.head?_cons]
  exact fun e => hb.1 (Option.some.inj e)

theorem zero_notMem_printChar {b : Byte} (h : b ≠ 0) : 0 ∉ printChar b := by
  rcases printChar_cases b with (rfl | rfl | rfl | rfl | rfl) | ⟨hb, hp⟩
  iterate 5 decide
  rw [hp]
  exact fun h0 => h (List.mem_singleton.1 h0).symm

theorem readValue_print (value rest : List Byte) {fuel : Nat} (h : value.length < fuel) :
    readValue fuel (value.flatMap printChar ++ 34 :: rest) = some (value, rest) := by
  induction value generalizing fuel with
  | nil =>
    obtain ⟨fuel, rfl⟩ : ∃ f, fuel = f + 1 := ⟨fuel - 1, by omega⟩
    rfl
  | cons b value ih =>
    obtain ⟨fuel, rfl⟩ : ∃ f, fuel = f + 1 := ⟨fuel - 1, by omega⟩
    rw [List.length_cons] at h
    rw [List.flatMap_cons, List.append_assoc, readValue, if_neg (head?_printChar b _),
      readChar_printChar]
    show (readValue fuel _).bind _ = _
    rw [ih (by omega)]
    rfl

theorem length_le_print (value : List Byte) : value.length ≤ (value.flatMap printChar).length := by
  induction value with
  | nil => exact Nat.le_refl _
  | cons b value ih =>
    have hb : 0 < (printChar b).length := by
      have := readChar_printChar b []
      rw [List.length_pos_iff]
      intro hn
      rw [hn] at this
      cases this
    rw [List.flatMap_cons, List.length_append, List.length_cons]
    omega

theorem readAttributes_print (l : List (Field × List Byte)) {fuel : Nat} (h : l.length < fuel) :
    readAttributes fuel (l.flatMap printAttribute ++ ascii "/>") = some l := by
  induction l generalizing fuel with
  | nil =>
    obtain ⟨fuel, rfl⟩ : ∃ f, fuel = f + 1 := ⟨fuel - 1, by omega⟩
    rfl
  | cons p l ih =>
    obtain ⟨fuel, rfl⟩ : ∃ f, fuel = f + 1 := ⟨fuel - 1, by omega⟩
    obtain ⟨field, value⟩ := p
    rw [List.length_cons] at h
    have htext : (((field, value) :: l).flatMap printAttribute ++ ascii "/>") =
        [32] ++ (field.name ++ 61 :: ([34] ++ (value.flatMap printChar ++ 34 ::
          (l.flatMap printAttribute ++ ascii "/>")))) := by
      simp [printAttribute]
    have hne : [32] ++ (field.name ++ 61 :: ([34] ++ (value.flatMap printChar ++ 34 ::
        (l.flatMap printAttribute ++ ascii "/>")))) ≠ ascii "/>" := by
      intro he
      exact absurd (congrArg List.head? he) (show some (32 : Byte) ≠ some 47 by decide)
    have hfuel := length_le_print value
    rw [htext, readAttributes, if_neg hne, afterText_append]
    simp only [Option.bind_eq_bind, Option.bind_some, cutAt_append (Field.notMem_name (.inr rfl) _),
      Field.ofName_name, afterText_append]
    rw [readValue_print value _ (by rw [List.length_append]; omega)]
    simp only [Option.bind_some, ih (Nat.lt_of_succ_lt_succ h)]

theorem zero_notMem_printAttribute {p : Field × List Byte} (h : 0 ∉ p.2) :
    0 ∉ printAttribute p := by
  have hname := Field.notMem_name (c := 0) (.inl rfl) p.1
  have hvalue : 0 ∉ p.2.flatMap printChar := by
    intro h0
    obtain ⟨b, hb, h0⟩ := List.mem_flatMap.1 h0
    exact zero_notMem_printChar (fun e => h (e ▸ hb)) h0
  simp only [printAttribute, List.mem_cons, List.mem_append, hname, hvalue, false_or]
  decide

/-- The element as the library prints it. -/
def elementXml : RootXml where
  print l := ascii "<root" ++ (l.flatMap printAttribute ++ ascii "/>")
  parse text := (afterText (ascii "<root") text).bind fun text => readAttributes text.length text
  print_ne l := List.cons_ne_nil _ _
  zero_notMem := by
    intro l hl h
    rcases List.mem_append.1 h with h | h
    · revert h
      decide
    · rcases List.mem_append.1 h with h | h
      · obtain ⟨p, hp, h⟩ := List.mem_flatMap.1 h
        exact zero_notMem_printAttribute (hl p hp) h
      · revert h
        decide
  parse_print := by
    intro l hl
    rw [afterText_append, Option.bind_some]
    refine readAttributes_print l ?_
    have hlen : l.length ≤ (l.flatMap printAttribute).length := by
      induction l with
      | nil => exact Nat.le_refl _
      | cons p l ih =>
        have := ih fun q hq => hl q (List.mem_cons_of_mem _ hq)
        rw [List.flatMap_cons, List.length_append, List.length_cons, printAttribute,
          List.length_cons]
        omega
    have hend : (ascii "/>").length = 2 := rfl
    rw [List.length_append, hend]
    omega

/-! ## Regions made by calls -/

namespace FloatingRegionInfo

theorem Savable.withEntries {r : FloatingRegionInfo} (h : r.Savable)
    (entries : List FloatingEntryInfo) : { r with entries }.Savable :=
  { h with }

theorem build_eq (calls : List Call) (r : FloatingRegionInfo) :
    ∃ entries, r.build calls = { r with entries } := by
  induction calls generalizing r with
  | nil => exact ⟨r.entries, rfl⟩
  | cons c calls ih =>
    have hrun : ∃ entries, (c.run r).region = { r with entries } := by
      cases c with
      | reference entry referrer kind => exact ⟨_, rfl⟩
      | slot entry info => exact ⟨_, rfl⟩
    obtain ⟨entries, h1⟩ := hrun
    obtain ⟨entries', h2⟩ := ih (c.run r).region
    refine ⟨entries', ?_⟩
    show (c.run r).region.build calls = _
    rw [h2, h1]

/-- A region that calls made of one without entries is sorted, every further call returns whether it
changes the region, and the region is read back from its text. -/
theorem build_roundtrip (X : RootXml) (r : FloatingRegionInfo) (hempty : r.entries = [])
    (hs : r.Savable) (calls : List Call) :
    (r.build calls).WellFormed ∧
      (∀ c : Call, (c.run (r.build calls)).changed = true ↔
        (c.run (r.build calls)).region ≠ r.build calls) ∧
      parseFloatingRegion X (formatFloatingRegion X (r.build calls)) = some (r.build calls) := by
  have hw : (r.build calls).WellFormed := (wellFormed_of_entries_nil hempty).build calls
  have hsave : (r.build calls).Savable := by
    obtain ⟨entries, he⟩ := build_eq calls r
    rw [he]
    exact hs.withEntries entries
  exact ⟨hw, fun c => (run_spec hw c).2, parseFloatingRegion_format X hw hsave⟩

end FloatingRegionInfo

/-- One page with a hook that two instructions lead to, and an entry that only a slot leads to, with
separators, a percent sign and a control character in its name. -/
theorem build_roundtrip_page :
    let r : FloatingRegionInfo := { allocationBase := 0x1000, allocationSize := 0x1000 }
    let calls : List FloatingRegionInfo.Call :=
      [.reference 0x1010 0x401000 .unknown, .reference 0x1010 0x400000 .address,
        .reference 0x1010 0x401000 .code,
        .slot 0x1004 ⟨0x402000, 0, .kindImport, [65, 44, 58, 59, 61, 37, 10, 255]⟩]
    (r.build calls).WellFormed ∧
      (∀ c : FloatingRegionInfo.Call, (c.run (r.build calls)).changed = true ↔
        (c.run (r.build calls)).region ≠ r.build calls) ∧
      parseFloatingRegion elementXml (formatFloatingRegion elementXml (r.build calls)) =
        some (r.build calls) :=
  FloatingRegionInfo.build_roundtrip elementXml _ rfl
    { size := by decide
      protect := by decide
      type := by decide
      mappedName := List.not_mem_nil
      header := List.not_mem_nil
      snapshotFile := List.not_mem_nil
      sha256 := List.not_mem_nil
      snapshot := fun _ => ⟨rfl, rfl, rfl⟩ } _

end Diana.Orthia
