import Mathlib.Data.List.Induction
import Mathlib.Data.List.Sort
import Diana.Orthia.FolderXml

/-!
# The regions of a capture

`orthia_capture.h` keeps the regions of a capture "by base, not overlapping". `MergeCapturedRegions`
puts newer regions in place of the ones they overlap. Its test adds base and size in 64 bits, so it
does not see an overlap with a region that ends where the address space does.

* `replaces_iff`: what the test sees;
* `mem_mergeAll`: the regions after any sequence of merges;
* `mergeAll_iff`: when they are what they should be.
-/

namespace Diana.Orthia.Folder

/-- `orthia::CapturedRegion` -/
structure CapturedRegion where
  base : Address
  size : Address
  allocationBase : Address
  protect : Int
  committed : Bool
  type : Int
  name : Text
  /-- empty: not saved -/
  file : Text
  missing : Address
  deriving DecidableEq, Repr

/-- The test of `MergeCapturedRegions`. The sums wrap. -/
def CapturedRegion.replaces (region old : CapturedRegion) : Prop :=
  region.base < old.base + old.size ∧ old.base < region.base + region.size

instance (region old : CapturedRegion) : Decidable (region.replaces old) :=
  inferInstanceAs (Decidable (_ ∧ _))

/-- `MergeCapturedRegions` -/
def mergeCapturedRegions (base captured : List CapturedRegion) : List CapturedRegion :=
  let result := base.filter fun old => !captured.any fun region => region.replaces old
  (result ++ captured).insertionSort fun a b => a.base ≤ b.base

/-- The merges one after the other, from an empty list. -/
def mergeAll (batches : List (List CapturedRegion)) : List CapturedRegion :=
  batches.foldl mergeCapturedRegions []

theorem mergeAll_append (pre : List (List CapturedRegion)) (last : List CapturedRegion) :
    mergeAll (pre ++ [last]) = mergeCapturedRegions (mergeAll pre) last := List.foldl_concat ..

/-! ## Regions of the address space -/

namespace CapturedRegion

/-- The address behind the region, up to `2 ^ 64`. -/
def stop (r : CapturedRegion) : Nat := r.base.val + r.size.val

/-- The region is not empty and lies inside of the address space. -/
structure Fits (r : CapturedRegion) : Prop where
  pos : 0 < r.size.val
  le : r.stop ≤ 2 ^ 64

def Holds (r : CapturedRegion) (a : Nat) : Prop := r.base.val ≤ a ∧ a < r.stop

def Overlaps (r r' : CapturedRegion) : Prop := ∃ a, r.Holds a ∧ r'.Holds a

variable {r r' : CapturedRegion}

theorem Overlaps.symm (h : r.Overlaps r') : r'.Overlaps r := by
  obtain ⟨a, hr, hr'⟩ := h
  exact ⟨a, hr', hr⟩

theorem Fits.overlaps_iff (h : r.Fits) (h' : r'.Fits) :
    r.Overlaps r' ↔ r.base.val < r'.stop ∧ r'.base.val < r.stop := by
  have hpos := h.pos
  have hpos' := h'.pos
  unfold Overlaps Holds stop
  constructor
  · rintro ⟨a, hr, hr'⟩
    omega
  · intro hlt
    exact ⟨max r.base.val r'.base.val, by omega, by omega⟩

theorem Fits.overlaps_self (h : r.Fits) : r.Overlaps r := by
  have hpos := h.pos
  rw [h.overlaps_iff h]
  unfold stop
  omega

/-- A region that ends with the address space ends at zero for the test. -/
theorem Fits.lt_stop_iff (h : r.Fits) (x : Address) :
    x < r.base + r.size ↔ x.val < r.stop ∧ r.stop < 2 ^ 64 := by
  have hle := h.le
  have hx := x.isLt
  rw [Fin.lt_def, Fin.val_add]
  unfold stop at hle ⊢
  omega

theorem replaces_iff (h : r.Fits) (h' : r'.Fits) :
    r.replaces r' ↔ r'.Overlaps r ∧ r'.stop < 2 ^ 64 ∧ r.stop < 2 ^ 64 := by
  unfold replaces
  rw [h'.lt_stop_iff, h.lt_stop_iff, h'.overlaps_iff h]
  tauto

end CapturedRegion

open CapturedRegion

/-! ## Merges -/

/-- The regions that a capture merges. -/
structure Batch (captured : List CapturedRegion) : Prop where
  fits : ∀ r ∈ captured, r.Fits
  apart : captured.Pairwise fun r r' => ¬r.Overlaps r'

instance : Std.Symm fun r r' : CapturedRegion => ¬r.Overlaps r' := ⟨fun _ _ h h' => h h'.symm⟩

theorem mem_mergeCapturedRegions {base captured : List CapturedRegion} {r : CapturedRegion} :
    r ∈ mergeCapturedRegions base captured ↔ (r ∈ base ∧ ∀ c ∈ captured, ¬c.replaces r) ∨
    r ∈ captured := by
  unfold mergeCapturedRegions
  simp

/-- A region is there as long as no later merge replaces it. -/
theorem mem_mergeAll {batches : List (List CapturedRegion)} {r : CapturedRegion} :
    r ∈ mergeAll batches ↔
      ∃ pre batch post, batches = pre ++ batch :: post ∧ r ∈ batch ∧ ∀ b ∈ post, ∀ c ∈ b,
      ¬c.replaces r := by
  induction batches using List.reverseRecOn with
  | nil => simp [mergeAll]
  | append_singleton batches last ih =>
    rw [mergeAll_append, mem_mergeCapturedRegions, ih]
    constructor
    · rintro (⟨⟨pre, batch, post, rfl, hr, hkept⟩, hlast⟩ | hr)
      · refine ⟨pre, batch, post ++ [last], by simp, hr, fun b hb => ?_⟩
        rcases List.mem_append.1 hb with hb | hb
        · exact hkept b hb
        · rwa [List.mem_singleton.1 hb]
      · exact ⟨batches, last, [], rfl, hr, fun b hb => absurd hb List.not_mem_nil⟩
    · rintro ⟨pre, batch, post, heq, hr, hkept⟩
      rcases List.eq_nil_or_concat post with rfl | ⟨post, b, rfl⟩
      · obtain ⟨-, hlast⟩ := List.append_inj' heq rfl
        exact .inr (List.singleton_inj.1 hlast ▸ hr)
      · rw [List.concat_eq_append, ← List.cons_append, ← List.append_assoc] at heq
        obtain ⟨rfl, hb⟩ := List.append_inj' heq rfl
        obtain rfl := List.singleton_inj.1 hb
        refine .inl ⟨⟨pre, batch, post, rfl, hr, fun b hb => hkept b ?_⟩, hkept last (by simp)⟩
        simp [hb]

theorem sorted_mergeCapturedRegions (base captured : List CapturedRegion) :
    (mergeCapturedRegions base captured).Pairwise fun a b => a.base ≤ b.base :=
  have : Std.Total fun a b : CapturedRegion => a.base ≤ b.base :=
    ⟨fun a b => le_total a.base b.base⟩
  have : IsTrans CapturedRegion fun a b => a.base ≤ b.base := ⟨fun _ _ _ h h' => le_trans h h'⟩
  List.pairwise_insertionSort _ _

/-! ## Runs -/

/-- What the regions are after the merges `pre` and `last`. -/
structure Merged (pre : List (List CapturedRegion)) (last index : List CapturedRegion) : Prop where
  sorted : index.Pairwise fun r r' => r.base ≤ r'.base
  apart : index.Pairwise fun r r' => ¬r.Overlaps r'
  last_mem : ∀ r ∈ last, r ∈ index
  kept : ∀ before batch later, pre = before ++ batch :: later → ∀ r ∈ batch,
    (∀ b ∈ later ++ [last], ∀ c ∈ b, ¬r.Overlaps c) → r ∈ index

/-- Every region of the index that is overlapped by newer ones is overlapped by one of them such
that neither ends with the address space. -/
def Replaceable (index captured : List CapturedRegion) : Prop :=
  ∀ old ∈ index, (∃ r ∈ captured, old.Overlaps r) → ∃ r ∈ captured,
    old.Overlaps r ∧ old.stop < 2 ^ 64 ∧ r.stop < 2 ^ 64

/-- No merge makes up a region. -/
theorem forall_mem_mergeAll {P : CapturedRegion → Prop} {batches : List (List CapturedRegion)}
    (h : ∀ b ∈ batches, ∀ r ∈ b, P r) : ∀ r ∈ mergeAll batches, P r := by
  intro r hr
  obtain ⟨pre, batch, post, rfl, hmem, -⟩ := mem_mergeAll.1 hr
  exact h batch (by simp) r hmem

theorem fits_mergeAll {batches : List (List CapturedRegion)} (hb : ∀ b ∈ batches, Batch b) :
    ∀ r ∈ mergeAll batches, r.Fits := forall_mem_mergeAll fun b hmem => (hb b hmem).fits

/-- A merge keeps the regions apart exactly when it replaces every region that is overlapped. -/
theorem apart_mergeCapturedRegions {base captured : List CapturedRegion}
    (hfits : ∀ r ∈ base, r.Fits) (hbase : base.Pairwise fun r r' => ¬r.Overlaps r')
    (hb : Batch captured) :
    ((mergeCapturedRegions base captured).Pairwise fun r r' => ¬r.Overlaps r') ↔
    Replaceable base captured := by
  have hseen : ∀ old ∈ base, ∀ r ∈ captured,
      (r.replaces old ↔ old.Overlaps r ∧ old.stop < 2 ^ 64 ∧ r.stop < 2 ^ 64) :=
    fun old hold r hr => replaces_iff (hb.fits r hr) (hfits old hold)
  unfold mergeCapturedRegions
  rw [(List.perm_insertionSort _ _).pairwise_iff fun hno hover => hno hover.symm,
    List.pairwise_append]
  simp only [List.mem_filter, Bool.not_eq_true', List.any_eq_false, decide_eq_true_eq]
  constructor
  · rintro ⟨-, -, hcross⟩ old hold ⟨r, hr, hover⟩
    by_contra hnone
    refine hcross old ⟨hold, fun c hc hrep => hnone ⟨c, hc, ?_⟩⟩ r hr hover
    exact (hseen old hold c hc).1 hrep
  · intro h
    refine ⟨hbase.filter _, hb.apart, fun old ⟨hold, hkept⟩ r hr hover => ?_⟩
    obtain ⟨c, hc, hmet⟩ := h old hold ⟨r, hr, hover⟩
    exact hkept c hc ((hseen old hold c hc).2 hmet)

/-- The regions stay apart in a run whose merges are all replaceable. -/
theorem apart_mergeAll {batches : List (List CapturedRegion)} (hb : ∀ b ∈ batches, Batch b)
    (h : ∀ pre last post, batches = pre ++ last :: post → Replaceable (mergeAll pre) last) :
    (mergeAll batches).Pairwise fun r r' => ¬r.Overlaps r' := by
  induction batches using List.reverseRecOn with
  | nil => exact List.Pairwise.nil
  | append_singleton batches last ih =>
    have hpre : ∀ b ∈ batches, Batch b := fun b hmem => hb b (List.mem_append_left _ hmem)
    have hrun : (mergeAll batches).Pairwise fun r r' => ¬r.Overlaps r' :=
      ih hpre fun pre last' post heq => h pre last' (post ++ [last]) (by simp [heq])
    rw [mergeAll_append]
    exact (apart_mergeCapturedRegions (fits_mergeAll hpre) hrun (hb last (by simp))).2
      (h batches last [] rfl)

/-- The test finds no overlap where there is none. -/
theorem kept_mergeAll {before later : List (List CapturedRegion)} {batch : List CapturedRegion}
    {r : CapturedRegion} (hb : ∀ b ∈ before ++ batch :: later, Batch b) (hr : r ∈ batch)
    (hno : ∀ b ∈ later, ∀ c ∈ b, ¬r.Overlaps c) : r ∈ mergeAll (before ++ batch :: later) := by
  refine mem_mergeAll.2 ⟨before, batch, later, rfl, hr, fun b hmem c hc hrep => hno b hmem c hc ?_⟩
  have hfits : c.Fits := (hb b (by simp [hmem])).fits c hc
  exact ((replaces_iff hfits ((hb batch (by simp)).fits r hr)).1 hrep).1

/-- After every merge of a run the regions are what they should be, exactly when every merge
replaces what it overlaps. -/
theorem mergeAll_iff (batches : List (List CapturedRegion)) (hb : ∀ b ∈ batches, Batch b) :
    (∀ pre last post, batches = pre ++ last :: post → Merged pre last (mergeAll (pre ++ [last]))) ↔
      ∀ pre last post, batches = pre ++ last :: post → Replaceable (mergeAll pre) last := by
  constructor
  · intro h pre last post heq
    have hpre : ∀ b ∈ pre, Batch b := fun b hmem => hb b (by simp [heq, hmem])
    have hlast : Batch last := hb last (by simp [heq])
    -- the list before the merge is the one after the merge before it
    have hbefore : (mergeAll pre).Pairwise fun r r' => ¬r.Overlaps r' := by
      rcases List.eq_nil_or_concat pre with rfl | ⟨p, b, rfl⟩
      · exact List.Pairwise.nil
      · rw [List.concat_eq_append] at heq ⊢
        exact (h p b (last :: post) (by simp [heq])).apart
    refine (apart_mergeCapturedRegions (fits_mergeAll hpre) hbefore hlast).1 ?_
    rw [← mergeAll_append]
    exact (h pre last post heq).apart
  · intro h pre last post heq
    have hrun : ∀ b ∈ pre ++ [last], Batch b := by
      intro b hmem
      refine hb b ?_
      rw [heq]
      simp only [List.mem_append, List.mem_cons, List.not_mem_nil, or_false] at hmem ⊢
      tauto
    refine ⟨?_, apart_mergeAll hrun ?_, ?_, ?_⟩
    · rw [mergeAll_append]
      exact sorted_mergeCapturedRegions _ _
    · intro pre' last' post' heq'
      exact h pre' last' (post' ++ post)
        (by rw [heq, ← List.singleton_append, ← List.append_assoc, heq']; simp)
    · intro r hr
      rw [mergeAll_append, mem_mergeCapturedRegions]
      exact .inr hr
    · rintro before batch later rfl r hr hno
      rw [List.append_assoc, List.cons_append] at hrun ⊢
      exact kept_mergeAll hrun hr hno

/-- Any other page, captured twice, is replaced. -/
theorem mergeAll_iff_page :
    let page : CapturedRegion := ⟨0x1000, 0x1000, 0x1000, 1, true, 0, Text.empty, Text.empty, 0⟩
    Merged [[page]] [page] (mergeAll ([[page]] ++ [[page]])) := by
  intro page
  have hfits : page.Fits := ⟨by decide, by decide⟩
  have hbatch : Batch [page] := ⟨by simpa using hfits, List.pairwise_singleton _ _⟩
  refine (mergeAll_iff [[page], [page]] (by simpa using hbatch)).2 ?_ [[page]] [page] [] rfl
  intro pre last post heq old hold ⟨r, hr, hover⟩
  have hpre : ∀ b ∈ pre, ∀ r ∈ b, r = page := by
    intro b hb r hr
    have hmem : b ∈ [[page], [page]] := heq ▸ List.mem_append_left _ hb
    simp only [List.mem_cons, List.not_mem_nil, or_false, or_self] at hmem
    exact List.mem_singleton.1 (hmem ▸ hr)
  have hlast : last = [page] := by
    have hmem : last ∈ [[page], [page]] := heq ▸ List.mem_append_right _ List.mem_cons_self
    simpa using hmem
  obtain rfl : old = page := forall_mem_mergeAll hpre old hold
  obtain rfl : r = page := List.mem_singleton.1 (hlast ▸ hr)
  exact ⟨page, hr, hover, by decide, by decide⟩

/-! ## The last page -/

/-- The last page of the address space. -/
def lastPage : CapturedRegion := ⟨-0x1000, 0x1000, -0x1000, 1, true, 0, Text.empty, Text.empty, 0⟩

theorem fits_lastPage : lastPage.Fits := ⟨by decide, by decide⟩

/-- Captured twice, it is there twice. -/
theorem not_mergeAll :
    ¬∀ (pre : List (List CapturedRegion)) (last : List CapturedRegion),
    (∀ b ∈ pre ++ [last], Batch b) →
      Merged pre last (mergeAll (pre ++ [last])) := by
  intro h
  have hbatch : Batch [lastPage] := ⟨by simpa using fits_lastPage, List.pairwise_singleton _ _⟩
  have htwice : mergeAll ([[lastPage]] ++ [[lastPage]]) = [lastPage, lastPage] := by decide
  have hapart := (h [[lastPage]] [lastPage] (by simpa using hbatch)).apart
  rw [htwice, List.pairwise_pair] at hapart
  exact hapart fits_lastPage.overlaps_self

end Diana.Orthia.Folder
