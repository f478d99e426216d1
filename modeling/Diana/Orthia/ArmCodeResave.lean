import Diana.Orthia.ArmCodeQuery

/-!
# The code map of a second analysis

`SaveWithDedup` stores the changes of a second analysis over those of the first. A change point of
the first one that the second does not have stays, and gives its kind to what lies behind it.

* `lookUp`: the kind that the stored changes give an address;
* `resave_iff`: it is that of the second analysis where no such change point comes last.
-/

namespace Diana.Orthia.ArmCode

open Diana.Lib Diana.Orthia.Saver

/-- A row of a code map that has an address. -/
def MetaRow.placed (r : MetaRow) :
    Bool := r.metaType = g_database_type_armCodeMap ∧ r.metaAddress.isSome

/-- The changes stored for a module, by their addresses. -/
def storedChanges (table : List MetaRow) (moduleAddress : Nat) : List ArmCodeChange :=
  ((table.filter MetaRow.placed).insertionSort fun r r' => r.address ≤ r'.address).filterMap
    (CodeMap.rowChange moduleAddress)

/-- What the stored code map says of an address: before the first change the architecture of the
module applies. -/
def lookUp (table : List MetaRow) (info : WorkAddressRangeInfo) (address : Nat) : ArmCodeKind :=
  kindAt (getArmCodeKind info.dianaArch) (storedChanges table info.address) address

section

variable {table : List MetaRow} {info : WorkAddressRangeInfo} {st : Nat → Option ArmCodeKind}

theorem governs_lookUp (hs : Stores table info.address st) (address : Nat) :
    Governs st (getArmCodeKind info.dianaArch) address (lookUp table info address) := by
  have : Std.Total fun r r' : MetaRow => r.address ≤ r'.address := ⟨fun r r' => Nat.le_total _ _⟩
  have : IsTrans MetaRow fun r r' => r.address ≤ r'.address := ⟨fun _ _ _ => Nat.le_trans⟩
  have hplaced : ∀ r : MetaRow, r.placed = true ↔
      r.metaType = g_database_type_armCodeMap ∧ ∃ v, r.metaAddress = some v ∧ True := by
    intro r
    unfold MetaRow.placed
    rw [decide_eq_true_iff, Option.isSome_iff_exists]
    simp only [and_true]
  obtain ⟨hasc, hmem⟩ := @rowChanges_spec table info st _ MetaRow.placed (fun _ => True) hs
    (List.perm_insertionSort _ _) (List.pairwise_insertionSort _ _) hplaced
  refine governs_valueAt_all hasc (fun y kind _ => ?_) (Nat.lt_succ_self address)
  exact ((hmem y kind).trans (and_iff_right trivial)).symm

end

namespace ArmAnalysis

variable {info : WorkAddressRangeInfo} (m : ArmAnalysis info)

/-- The module does not end at the top of the address space, and an analysis keeps eight bytes or
more for each of its. -/
def Fits (info : WorkAddressRangeInfo) : Prop :=
  info.address ≤ info.lastValidAddress ∧ info.lastValidAddress + 1 < 2 ^ 64 ∧
    info.lastValidAddress - info.address < 2 ^ 61

section

variable {m} (hfits : Fits info)

include hfits

theorem endsInside_offsets : ArmCode.EndsInside (2 ^ 64) m.entries := by
  refine endsInside_of_lt fun e he => ?_
  have := m.offset_lt he
  unfold Fits at hfits
  omega

theorem ascending_offsets : Ascending m.changes := by
  rw [changes_eq]
  exact ascending_codeMapLoop m.ascending_entries (endsInside_offsets hfits) (Nat.le_refl _)

theorem kindAt_offsets {e : ArmCodeChange} (he : e ∈ m.entries) :
    kindAt (getArmCodeKind info.dianaArch) m.changes e.offset = e.kind := by
  rw [changes_eq]
  exact kindAt_codeMapLoop m.ascending_entries (endsInside_offsets hfits) (Nat.le_refl _) he

theorem changes_lt {c : ArmCodeChange} (hc : c ∈ m.changes) :
    c.offset < info.lastValidAddress + 1 - info.address + 2 := by
  rw [changes_eq] at hc
  refine offset_lt_of_mem_codeMapLoop (fun e he => ?_) (endsInside_of_lt fun e he => ?_) ?_ hc
  · have := m.offset_lt he
    omega
  · have := m.offset_lt he
    omega
  · unfold Fits at hfits
    omega

/-- In the module, the address of a change tells its offset. -/
theorem add64_offset_iff {c : ArmCodeChange} (hc : c ∈ m.changes) {offset : Nat}
    (ho : info.address + offset ≤ info.lastValidAddress) :
    add64 info.address c.offset = info.address + offset ↔ c.offset = offset := by
  have := changes_lt hfits hc
  unfold Fits at hfits
  unfold add64
  omega

/-- Below the module there are only changes that wrapped around, of the kind of the module. -/
theorem kind_of_add64_lt {c : ArmCodeChange} (hc : c ∈ m.changes)
    (hlow : add64 info.address c.offset < info.address) :
    c.kind = getArmCodeKind info.dianaArch := by
  have hlt := changes_lt hfits hc
  rw [changes_eq] at hc
  rcases mem_codeMapLoop hc with he | hk
  · have := m.offset_le c he
    unfold Fits at hfits
    rw [add64_of_lt (by omega)] at hlow
    omega
  · exact hk

end

end ArmAnalysis

section

variable {info : WorkAddressRangeInfo} (m₁ m₂ : ArmAnalysis info)

/-- The kinds of a database that had no code map of the module, after both saves. -/
def resaved : Nat → Option ArmCodeKind :=
  storeChanges info.address (storeChanges info.address (fun _ => none) m₁.changes) m₂.changes

/-- A change point of the first analysis that the second does not have. -/
def Stale (c : ArmCodeChange) : Prop := c ∈ m₁.changes ∧ ∀ d ∈ m₂.changes, d.offset ≠ c.offset

/-- The change point is the last one up to the offset. -/
def ComesLast (c : ArmCodeChange) (offset : Nat) : Prop :=
  c.offset ≤ offset ∧ ∀ d, d ∈ m₁.changes ∨ d ∈ m₂.changes →
    ¬ (c.offset < d.offset ∧ d.offset ≤ offset)

variable {m₁ m₂} (hfits : ArmAnalysis.Fits info)

include hfits

theorem resaved_eq_some {offset : Nat} {kind : ArmCodeKind}
    (ho : info.address + offset ≤ info.lastValidAddress) :
    resaved m₁ m₂ (info.address + offset) = some kind ↔
      (∃ d ∈ m₂.changes, d.offset = offset ∧ d.kind = kind) ∨
        ∃ c, Stale m₁ m₂ c ∧ c.offset = offset ∧ c.kind = kind := by
  have hmax : info.address + offset ≠ DI_MAX_OPERAND_SIZE := by
    unfold ArmAnalysis.Fits at hfits
    unfold DI_MAX_OPERAND_SIZE
    omega
  unfold resaved
  rw [storeChanges_eq_some (ArmAnalysis.ascending_offsets hfits) hmax fun c hc =>
    ArmAnalysis.add64_offset_iff hfits hc ho,
    storeChanges_eq_some (ArmAnalysis.ascending_offsets hfits) hmax fun c hc =>
    ArmAnalysis.add64_offset_iff hfits hc ho]
  refine or_congr Iff.rfl ?_
  constructor
  · rintro ⟨hnone, ⟨c, hc, rfl, hk⟩ | ⟨-, h⟩⟩
    · exact ⟨c, ⟨hc, hnone⟩, rfl, hk⟩
    · cases h
  · rintro ⟨c, ⟨hc, hnone⟩, rfl, hk⟩
    exact ⟨hnone, Or.inl ⟨c, hc, rfl, hk⟩⟩

theorem resaved_low {y : Nat} (hy : y < info.address) {kind : ArmCodeKind}
    (h : resaved m₁ m₂ y = some kind) : kind = getArmCodeKind info.dianaArch := by
  have hstep : ∀ (m : ArmAnalysis info) (cs : List ArmCodeChange) (st : Nat → Option ArmCodeKind),
      (∀ c ∈ cs, c ∈ m.changes) → (∀ k, st y = some k → k = getArmCodeKind info.dianaArch) →
        ∀ k, storeChanges info.address st cs y = some k → k = getArmCodeKind info.dianaArch := by
    intro m cs
    induction cs with
    | nil => exact fun st _ hst => hst
    | cons c cs ih =>
      intro st hin hst
      refine ih _ (fun d hd => hin d (List.mem_cons_of_mem _ hd)) fun k hk => ?_
      rcases storeAt_cases hk with ⟨he, -, rfl⟩ | hk
      · exact ArmAnalysis.kind_of_add64_lt hfits (hin c List.mem_cons_self) (he ▸ hy)
      · exact hst k hk
  refine hstep m₂ m₂.changes _ (fun _ hc => hc)
    (hstep m₁ m₁.changes _ (fun _ hc => hc) fun k hk => ?_) kind h
  cases hk

/-- A change of either analysis has a kind stored at its offset. -/
theorem resaved_ne_none {d : ArmCodeChange} (hd : d ∈ m₁.changes ∨ d ∈ m₂.changes)
    (ho : info.address + d.offset ≤ info.lastValidAddress) :
    resaved m₁ m₂ (info.address + d.offset) ≠ none := by
  intro hnone
  have hall : ∀ kind, ¬ resaved m₁ m₂ (info.address + d.offset) = some kind := by
    intro kind h
    rw [hnone] at h
    cases h
  by_cases h₂ : ∃ d' ∈ m₂.changes, d'.offset = d.offset
  · obtain ⟨d', hd', he⟩ := h₂
    exact hall d'.kind ((resaved_eq_some hfits ho).2 (Or.inl ⟨d', hd', he, rfl⟩))
  · have hfree : ∀ d' ∈ m₂.changes, d'.offset ≠ d.offset := fun d' hd' he => h₂ ⟨d', hd', he⟩
    rcases hd with hd | hd
    · exact hall d.kind ((resaved_eq_some hfits ho).2 (Or.inr ⟨d, ⟨hd, hfree⟩, rfl, rfl⟩))
    · exact hfree d hd rfl

/-- What the changes of the second analysis alone give an offset. -/
theorem governs_second {offset : Nat} (ho : info.address + offset ≤ info.lastValidAddress) :
    Governs (fun o => storeChanges info.address (fun _ => none) m₂.changes (info.address + o))
      (getArmCodeKind info.dianaArch) offset
      (kindAt (getArmCodeKind info.dianaArch) m₂.changes offset) := by
  refine governs_valueAt_all (ArmAnalysis.ascending_offsets hfits) (fun y kind hy => ?_)
    (Nat.lt_succ_self offset)
  have hmax : info.address + y ≠ DI_MAX_OPERAND_SIZE := by
    unfold ArmAnalysis.Fits at hfits
    unfold DI_MAX_OPERAND_SIZE
    omega
  rw [storeChanges_eq_some (ArmAnalysis.ascending_offsets hfits) hmax fun c hc =>
    ArmAnalysis.add64_offset_iff hfits hc (by omega)]
  exact or_iff_left fun h => nomatch h.2

/-- The kind that the two saves give an offset: that of a change point of the first analysis that
comes last, or what the changes of the second one give. -/
theorem governs_resaved {offset : Nat} (ho : info.address + offset ≤ info.lastValidAddress) :
    ∃ kind, Governs (resaved m₁ m₂) (getArmCodeKind info.dianaArch) (info.address + offset) kind ∧
      ((∃ c, Stale m₁ m₂ c ∧ ComesLast m₁ m₂ c offset ∧ c.kind = kind) ∨
        ((∀ c, Stale m₁ m₂ c → ¬ ComesLast m₁ m₂ c offset) ∧
          kind = kindAt (getArmCodeKind info.dianaArch) m₂.changes offset)) := by
  obtain ⟨kind, hkind⟩ := exists_governs (fun o => resaved m₁ m₂ (info.address + o))
      (getArmCodeKind info.dianaArch) offset
  refine ⟨kind, governs_shift (fun y hy v hv => resaved_low hfits hy hv) hkind, ?_⟩
  have hsecond := @governs_second info m₂ hfits offset ho
  -- where nothing is stored, neither analysis has a change
  have hfree : ∀ z, z ≤ offset → resaved m₁ m₂ (info.address + z) = none →
      ∀ d, d ∈ m₁.changes ∨ d ∈ m₂.changes → d.offset ≠ z := by
    rintro z hz hnone d hd rfl
    exact resaved_ne_none hfits hd (by omega) hnone
  have hquiet : ∀ z, z ≤ offset → resaved m₁ m₂ (info.address + z) = none →
      storeChanges info.address (fun _ => none) m₂.changes (info.address + z) = none := by
    intro z hz hnone
    refine storeChanges_of_ne fun c hc he => hfree z hz hnone c (Or.inr hc) ?_
    exact (ArmAnalysis.add64_offset_iff hfits hc (by omega)).1 he
  rcases hkind with ⟨y, hy, hst, hbetween⟩ | ⟨rfl, hnone⟩
  · rcases (resaved_eq_some hfits (by omega)).1 hst with ⟨d, hd, rfl, rfl⟩ | ⟨c, hstale, rfl, rfl⟩
    · refine Or.inr ⟨fun c hstale hlast => ?_, ?_⟩
      · have hne := hstale.2 d hd
        have habove := hlast.2 d (Or.inr hd)
        have hle := hlast.1
        exact hfree c.offset hle (hbetween c.offset (by omega) hle) c (Or.inl hstale.1) rfl
      · refine Governs.unique (Or.inl ⟨d.offset, hy, ?_,
          fun z hlt hle => hquiet z hle (hbetween z hlt hle)⟩) hsecond
        refine storeChanges_of_mem ?_ (fun d' hd' he => ?_) hd
          ((ArmAnalysis.add64_offset_iff hfits hd (by omega)).2 rfl)
        · unfold ArmAnalysis.Fits at hfits
          unfold DI_MAX_OPERAND_SIZE
          omega
        · have hsame := (ArmAnalysis.add64_offset_iff hfits hd' (by omega)).1 he
          rcases rel_of_pairwise (ArmAnalysis.ascending_offsets hfits) hd' hd with rfl | hlt | hlt
          · rfl
          · omega
          · omega
    · refine Or.inl ⟨c, hstale, ⟨hy, fun d hd hbad => ?_⟩, rfl⟩
      exact hfree d.offset hbad.2 (hbetween d.offset hbad.1 hbad.2) d hd rfl
  · refine Or.inr ⟨fun c hstale hlast => ?_, ?_⟩
    · exact hfree c.offset hlast.1 (hnone c.offset hlast.1) c (Or.inl hstale.1) rfl
    · exact Governs.unique (Or.inr ⟨rfl, fun z hz => hquiet z hz (hnone z hz)⟩) hsecond

end

/-- After both saves the stored code map is that of the second analysis, if and only if no change
point of the first one that the second does not have comes last before an instruction or data mark
of another kind. -/
theorem resave_iff {table : List MetaRow} {info : WorkAddressRangeInfo}
    (hfits : ArmAnalysis.Fits info) (m₁ m₂ : ArmAnalysis info)
    (hnone : ∀ r ∈ table, ¬ r.Own info.address) :
    (∀ e ∈ m₂.entries,
      lookUp (saveArmCodeMap (saveArmCodeMap table info.address m₁.changes) info.address m₂.changes)
        info (info.address + e.offset) = e.kind) ↔
      ∀ c, Stale m₁ m₂ c → ∀ e ∈ m₂.entries, ComesLast m₁ m₂ c e.offset → e.kind = c.kind := by
  have hstores :=
    stores_saveArmCodeMap (stores_saveArmCodeMap (stores_none hnone) m₁.changes) m₂.changes
  have hone : ∀ e ∈ m₂.entries, ∀ kind, Governs (resaved m₁ m₂) (getArmCodeKind info.dianaArch)
      (info.address + e.offset) kind →
      lookUp (saveArmCodeMap (saveArmCodeMap table info.address m₁.changes)
        info.address m₂.changes) info (info.address + e.offset) = kind :=
    fun e _ kind hkind => (governs_lookUp hstores _).unique hkind
  constructor
  · intro h c hstale e he hlast
    obtain ⟨kind, hkind, ⟨c', hstale', hlast', rfl⟩ | ⟨hno, -⟩⟩ :=
      @governs_resaved info m₁ m₂ hfits _ (m₂.offset_le e he)
    · -- two change points that come last are one
      have hc := hlast.2 c' (Or.inl hstale'.1)
      have hc' := hlast'.2 c (Or.inl hstale.1)
      have hle := hlast.1
      have hle' := hlast'.1
      have hsame : c = c' := by
        rcases rel_of_pairwise (ArmAnalysis.ascending_offsets hfits) hstale.1 hstale'.1
          with he | hlt | hlt
        · exact he
        · exact absurd ⟨hlt, hle'⟩ hc
        · exact absurd ⟨hlt, hle⟩ hc'
      rw [hsame, ← h e he]
      exact hone e he _ hkind
    · exact absurd hlast (hno c hstale)
  · intro h e he
    obtain ⟨kind, hkind, ⟨c, hstale, hlast, rfl⟩ | ⟨-, rfl⟩⟩ :=
      @governs_resaved info m₁ m₂ hfits _ (m₂.offset_le e he)
    · rw [hone e he _ hkind]
      exact (h c hstale e he hlast).symm
    · rw [hone e he _ hkind]
      exact ArmAnalysis.kindAt_offsets hfits he

/-- T32 code at two places, and no literal between them. -/
def codeOnly : ArmAnalysis pageModule where
  instructions := [⟨0, false, false, false, false, false, true⟩,
    ⟨8, false, false, false, false, false, true⟩]
  arm := pageModule_arm
  nodup := by decide
  offset_le := by decide

theorem pageModule_fits : ArmAnalysis.Fits pageModule := by unfold ArmAnalysis.Fits; decide

theorem resave_iff_page :
    (∀ e ∈ thumbLiteral.entries,
      lookUp (saveArmCodeMap (saveArmCodeMap [] pageModule.address codeOnly.changes)
        pageModule.address thumbLiteral.changes) pageModule
        (pageModule.address + e.offset) = e.kind) ↔
      ∀ c, Stale codeOnly thumbLiteral c → ∀ e ∈ thumbLiteral.entries,
        ComesLast codeOnly thumbLiteral c e.offset → e.kind = c.kind :=
  resave_iff pageModule_fits codeOnly thumbLiteral fun _ h => absurd h List.not_mem_nil

/-- The first analysis ends its literal at offset 6 with a change back to A32, which re-colours the
T32 code that the second one has at offset 8. -/
theorem not_resave :
    ∃ e ∈ codeOnly.entries, lookUp
    (saveArmCodeMap (saveArmCodeMap [] pageModule.address thumbLiteral.changes)
      pageModule.address codeOnly.changes) pageModule (pageModule.address + e.offset) ≠ e.kind :=
  ⟨⟨8, .t32⟩, by decide, by decide +kernel⟩

end Diana.Orthia.ArmCode
