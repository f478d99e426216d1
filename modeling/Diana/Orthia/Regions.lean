import Diana.Orthia.Overlay
import Diana.Orthia.VmAlloc
import Mathlib.Data.List.Pairwise

/-!
# Regions that are given out do not overlap

`Sound` is what holds between the storage and the regions given out and not released: they lie
apart, they are the table of allocations, and the pages of a committed region are in the page map. A
region chosen between the pages then lies apart from every committed region, unless a page is a
whole block and the search resumes at one; a region at a hint lies where the caller says.
-/

namespace Diana.Orthia

open Diana.Lib

/-- Two regions, each an address and a size, without a common address. -/
def Apart (r r' : Nat × Nat) : Prop := r.1 + r.2 ≤ r'.1 ∨ r'.1 + r'.2 ≤ r.1

instance : Std.Symm Apart := ⟨fun _ _ => Or.symm⟩

/-- Two regions of whole blocks that are not apart have a block in common. -/
theorem exists_block_of_not_apart {r r' : Nat × Nat} (h1 : block ∣ r.1) (h2 : block ∣ r.2)
    (h3 : block ∣ r'.1) (h4 : block ∣ r'.2) (h5 : 0 < r.2) (h6 : 0 < r'.2) (h : ¬ Apart r r') :
    ∃ B, block ∣ B ∧ r.1 ≤ B ∧ B + block ≤ r.1 + r.2 ∧ r'.1 ≤ B ∧ B + block ≤ r'.1 + r'.2 := by
  obtain ⟨a, ha⟩ := h1
  obtain ⟨n, hn⟩ := h2
  obtain ⟨a', ha'⟩ := h3
  obtain ⟨n', hn'⟩ := h4
  unfold Apart at h
  unfold block at ha hn ha' hn' ⊢
  refine ⟨max r.1 r'.1, ⟨max a a', by omega⟩, by omega, by omega, by omega, by omega⟩

/-! ## Choosing a region -/

theorem growAlignPage_ok {p q : Nat} (h : growAlignPage p = .ok q) (hp : p < 2 ^ 64) :
    p ≤ q ∧ block ∣ q ∧ q < 2 ^ 64 := by
  unfold growAlignPage at h
  by_cases h0 : p % block = 0
  · rw [if_pos h0] at h
    cases h
    exact ⟨Nat.le_refl _, Nat.dvd_of_mod_eq_zero h0, hp⟩
  · simp only [if_neg h0] at h
    split_ifs at h with h1
    cases h
    have hlt := Nat.mod_lt p (show 0 < block by decide)
    have hle := Nat.mod_le p block
    have hq : add64 p (block - p % block) < 2 ^ 64 := Nat.mod_lt _ (by decide)
    refine ⟨Nat.not_lt.1 h1, Nat.dvd_of_mod_eq_zero ?_, hq⟩
    unfold add64 block at *
    omega

section

variable {E : AddressSpace} {size : Nat}

/-- A region that the search finds. -/
theorem searchRegion_some {stop fuel p q : Nat} (hp : block ∣ p) (hlt : p < 2 ^ 64)
    (hstop : stop + block ≤ 2 ^ 64) (h : searchRegion E size stop fuel p = .ok (some q)) :
    p ≤ q ∧ block ∣ q ∧ q < stop := by
  induction fuel generalizing p with
  | zero =>
    rw [searchRegion] at h
    cases h
  | succ fuel ih =>
    rw [searchRegion] at h
    by_cases hps : p < stop
    · have hadd : add64 p block = p + block := add64_of_lt (by omega)
      simp only [if_pos hps] at h
      split_ifs at h with hfree hnew
      · cases h
        exact ⟨Nat.le_refl _, hp, hps⟩
      · cases hg : growAlignPage (E.startOfNewRegion p size) with
        | error e =>
          rw [hg] at h
          cases h
        | ok newP =>
          rw [hg] at h
          obtain ⟨-, hdvd, hlt'⟩ := growAlignPage_ok hg (E.start_lt p size)
          simp only [hadd] at h
          split_ifs at h with hle
          · have := ih (Nat.dvd_add hp (Nat.dvd_refl _)) (by unfold block at *; omega) h
            omega
          · have := ih hdvd hlt' h
            omega
      · rw [hadd] at h
        cases hg : growAlignPage (p + block) with
        | error e =>
          rw [hg] at h
          cases h
        | ok newP =>
          rw [hg] at h
          obtain ⟨hle, hdvd, hlt'⟩ := growAlignPage_ok hg (by unfold block at *; omega)
          have := ih hdvd hlt' h
          omega
    · rw [if_neg hps] at h
      cases h

/-- A region that `ReportRegion` finds between two offsets. -/
theorem reportRegion_some {startOffset endOffset q : Nat} (hs : startOffset < 2 ^ 64)
    (he : endOffset < 2 ^ 64) (hsize : block ≤ size) (hle : size ≤ endOffset)
    (h : reportRegion E size startOffset endOffset = .ok (some q)) :
    startOffset ≤ q ∧ block ∣ q ∧ q + size < endOffset := by
  unfold reportRegion at h
  rw [sub64_of_le hle he] at h
  cases hg : growAlignPage startOffset with
  | error e =>
    rw [hg] at h
    cases h
  | ok p =>
    rw [hg] at h
    obtain ⟨hp, hdvd, hlt⟩ := growAlignPage_ok hg hs
    obtain ⟨h1, h2, h3⟩ := searchRegion_some hdvd hlt (by omega) h
    exact ⟨by omega, h2, by omega⟩

/-- A block has a page that is not in a page map. -/
def MissesPage {ps : PageSize} (s : Storage ps) (B : Nat) : Prop :=
  ∃ j, ps.bytes ∣ j ∧ B ≤ j ∧ j < B + block ∧ s.pages.find j = none

/-- A region that lies between the pages of a page map: every block misses a page. -/
structure Free {ps : PageSize} (s : Storage ps) (size p : Nat) : Prop where
  dvd : block ∣ p
  lt : p + size < 2 ^ 64
  misses : ∀ B, block ∣ B → p ≤ B → B + block ≤ p + size → MissesPage s B

variable {ps : PageSize} {s : Storage ps} {maxEndOffset : Nat}

/-- A region found behind the page at `k`, before the page at `k'`. -/
theorem free_between (hps : ps.bytes ∣ block) {k stop p : Nat} (hstop : stop < 2 ^ 64)
    (hgap : ∀ j, k < j → j < stop → s.pages.find j = none) (hp : block ∣ p)
    (h1 : k + ps.bytes ≤ p) (h2 : p + size < stop) : Free s size p where
  dvd := hp
  lt := by omega
  misses := by
    intro B hB hle hend
    have hpos := ps.pos
    have hb : 0 < block := by decide
    exact ⟨B, Nat.dvd_trans hps hB, Nat.le_refl _, by omega, hgap B (by omega) (by omega)⟩

/-- The loop over the pages. -/
theorem tryGaps_some (hps : ps.bytes ∣ block) (hmax : maxEndOffset < 2 ^ 64) (hsize : block ≤ size)
    (hle : size ≤ maxEndOffset) {k p : Nat} {L : List (Nat × List Byte)}
    (hk : k + ps.bytes < 2 ^ 64)
    (hkeys : ∀ j, k < j → (s.pages.find j).isSome → ∃ e ∈ L, e.1 = j)
    (hL : ∀ e ∈ L, k < e.1 ∧ size ≤ e.1 ∧ e.1 + ps.bytes < 2 ^ 64)
    (hsorted : L.Pairwise fun a b => a.1 < b.1)
    (h : tryGaps E size ps.bytes maxEndOffset k L = .ok (some p)) : Free s size p := by
  induction L generalizing k with
  | nil =>
    rw [tryGaps, add64_of_lt hk] at h
    obtain ⟨h1, h2, h3⟩ := reportRegion_some hk hmax hsize hle h
    refine free_between hps hmax (fun j hj _ => ?_) h2 h1 h3
    by_contra hne
    obtain ⟨e, he, -⟩ := hkeys j hj (Option.isSome_iff_ne_none.2 hne)
    cases he
  | cons e L ih =>
    obtain ⟨k', d⟩ := e
    obtain ⟨hlt, hs⟩ := List.pairwise_cons.1 hsorted
    obtain ⟨hkk, hsk, hk'⟩ := hL (k', d) List.mem_cons_self
    simp only at hkk hsk hk'
    have hnext : tryGaps E size ps.bytes maxEndOffset k' L = .ok (some p) → Free s size p := by
      refine ih hk' (fun j hj hsome => ?_) (fun e he => ?_) hs
      · obtain ⟨e, he, rfl⟩ := hkeys j (by omega) hsome
        rcases List.mem_cons.1 he with rfl | he
        · exact absurd hj (Nat.lt_irrefl _)
        · exact ⟨e, he, rfl⟩
      · exact ⟨hlt e he, (hL e (List.mem_cons_of_mem _ he)).2⟩
    rw [tryGaps, add64_of_lt hk] at h
    split_ifs at h
    · cases hr : reportRegion E size (k + ps.bytes) k' with
      | error e =>
        rw [hr] at h
        cases h
      | ok r =>
        rw [hr] at h
        cases r with
        | none => exact hnext h
        | some q =>
          cases h
          obtain ⟨h1, h2, h3⟩ := reportRegion_some hk (by omega) hsize hsk hr
          refine free_between hps (by omega) (fun j hj hj' => ?_) h2 h1 h3
          by_contra hne
          obtain ⟨e, he, rfl⟩ := hkeys j hj (Option.isSome_iff_ne_none.2 hne)
          rcases List.mem_cons.1 he with rfl | he
          · exact Nat.lt_irrefl _ hj'
          · have := hlt e he
            simp only at this
            omega
    · exact hnext h

/-- A region found from the start on, before the first page above it. A block at the start itself
misses its second page, or its first. -/
theorem free_from_start (hps : ps.bytes ∣ block) {k stop p : Nat}
    (hresume : ps.bytes < block ∨ s.pages.find k = none) (hstop : stop < 2 ^ 64)
    (hgap : ∀ j, k < j → j < stop → s.pages.find j = none) (hp : block ∣ p) (h1 : k ≤ p)
    (h2 : p + size < stop) : Free s size p where
  dvd := hp
  lt := by omega
  misses := by
    intro B hB hle hend
    have hpos := ps.pos
    have hb : 0 < block := by decide
    rcases hresume with hsmall | hnone
    · exact ⟨B + ps.bytes, Nat.dvd_add (Nat.dvd_trans hps hB) (Nat.dvd_refl _), by omega, by omega,
        hgap _ (by omega) (by omega)⟩
    · refine ⟨B, Nat.dvd_trans hps hB, Nat.le_refl _, by omega, ?_⟩
      rcases Nat.eq_or_lt_of_le (Nat.le_trans h1 hle) with rfl | hlt
      · exact hnone
      · exact hgap B hlt (by omega)

/-- One turn of the choice. -/
theorem scanPages_some (hps : ps.bytes ∣ block) (hmax : maxEndOffset < 2 ^ 64)
    (hsize : block ≤ size) (hle : size ≤ maxEndOffset) {startOffset p : Nat}
    (hresume : ps.bytes < block ∨ s.pages.find startOffset = none) (hstart : startOffset < 2 ^ 64)
    (hpages : ∀ k, (s.pages.find k).isSome → k + ps.bytes < 2 ^ 64)
    (hlarge : ∀ k, (s.pages.find k).isSome → startOffset < k → size ≤ k)
    (h : scanPages E size ps.bytes maxEndOffset startOffset (s.pages.upperBound startOffset) =
      .ok (some p)) : Free s size p := by
  have hmem : ∀ e ∈ s.pages.upperBound startOffset,
      s.pages.find e.1 = some e.2 ∧ startOffset < e.1 := fun e he => s.pages.mem_upperBound.1 he
  have hkeys : ∀ j, startOffset < j → (s.pages.find j).isSome →
      ∃ e ∈ s.pages.upperBound startOffset, e.1 = j := by
    intro j hj hsome
    obtain ⟨d, hd⟩ := Option.isSome_iff_exists.1 hsome
    exact ⟨(j, d), s.pages.mem_upperBound.2 ⟨hd, hj⟩, rfl⟩
  have hsorted := s.pages.sorted_upperBound startOffset
  cases hL : s.pages.upperBound startOffset with
  | nil =>
    rw [hL] at h hkeys
    rw [scanPages] at h
    obtain ⟨h1, h2, h3⟩ := reportRegion_some hstart hmax hsize hle h
    refine free_from_start hps hresume hmax (fun j hj _ => ?_) h2 h1 h3
    by_contra hne
    obtain ⟨e, he, -⟩ := hkeys j hj (Option.isSome_iff_ne_none.2 hne)
    cases he
  | cons e L =>
    obtain ⟨k, d⟩ := e
    rw [hL] at h hkeys hsorted hmem
    obtain ⟨hlt, hs⟩ := List.pairwise_cons.1 hsorted
    obtain ⟨hfind, hsk⟩ := hmem (k, d) List.mem_cons_self
    simp only at hfind hsk
    have hsome : ∀ e ∈ (k, d) :: L, (s.pages.find e.1).isSome := fun e he => by
      rw [(hmem e he).1]
      rfl
    have hk := hpages k (hsome (k, d) List.mem_cons_self)
    have hnext : tryGaps E size ps.bytes maxEndOffset k L = .ok (some p) → Free s size p := by
      refine tryGaps_some hps hmax hsize hle hk (fun j hj hj' => ?_) (fun e he => ?_) hs
      · obtain ⟨e, he, rfl⟩ := hkeys j (by omega) hj'
        rcases List.mem_cons.1 he with rfl | he
        · exact absurd hj (Nat.lt_irrefl _)
        · exact ⟨e, he, rfl⟩
      · have he' := List.mem_cons_of_mem (k, d) he
        exact ⟨hlt e he, hlarge _ (hsome e he') (hmem e he').2, hpages _ (hsome e he')⟩
    rw [scanPages] at h
    split_ifs at h
    · cases hr : reportRegion E size startOffset k with
      | error e =>
        rw [hr] at h
        cases h
      | ok r =>
        rw [hr] at h
        cases r with
        | none => exact hnext h
        | some q =>
          cases h
          obtain ⟨h1, h2, h3⟩ := reportRegion_some hstart (by omega) hsize (by omega) hr
          refine free_from_start hps hresume (show k < 2 ^ 64 by omega)
            (fun j hj hj' => ?_) h2 h1 h3
          by_contra hne
          obtain ⟨e, he, rfl⟩ := hkeys j hj (Option.isSome_iff_ne_none.2 hne)
          rcases List.mem_cons.1 he with rfl | he
          · exact Nat.lt_irrefl _ hj'
          · have := hlt e he
            simp only at this
            omega
    · exact hnext h

end

/-! ## Committing and releasing -/

namespace Storage

variable {ps : PageSize} {s : Storage ps}

theorem isSome_insertPage {k : Nat} (hk : ps.bytes ∣ k) (j : Nat) :
    ((s.insertPage k).pages.find j).isSome ↔ (s.pages.find j).isSome ∨ j = k := by
  unfold insertPage
  split_ifs with h
  · refine ⟨.inl, ?_⟩
    rintro (hj | rfl)
    · exact hj
    · exact h
  · by_cases hj : j = k
    · subst hj
      rw [find_setPage_self]
      exact iff_of_true rfl (.inr rfl)
    · rw [find_setPage_of_ne _ _ _ hj]
      exact ⟨.inl, fun h => h.resolve_right hj⟩

/-- The loop that commits a region. -/
theorem commit_spec {offset size fuel i : Nat} (ho : ps.bytes ∣ offset) (hi : ps.bytes ∣ i)
    (hlt : offset + size < 2 ^ 64) (hf : size ≤ i + fuel) :
    (s.commit offset size fuel i).1 = .ok () ∧ ∀ k,
      ((s.commit offset size fuel i).2.pages.find k).isSome ↔ (s.pages.find k).isSome ∨
        ps.bytes ∣ k ∧ offset + i ≤ k ∧ k < offset + size := by
  induction fuel generalizing i s with
  | zero => exact ⟨rfl, fun k => ⟨.inl, fun h => h.resolve_right (by omega)⟩⟩
  | succ fuel ih =>
    have hpos := ps.pos
    unfold commit
    by_cases hlt' : i < size
    · rw [if_pos hlt', if_neg (by omega)]
      obtain ⟨h1, h2⟩ := ih (s := s.insertPage (i + offset)) (Nat.dvd_add hi (Nat.dvd_refl _))
        (by omega)
      refine ⟨h1, fun k => ?_⟩
      rw [h2, isSome_insertPage (Nat.dvd_add hi ho)]
      constructor
      · rintro ((h | h) | h)
        · exact .inl h
        · exact .inr ⟨h ▸ Nat.dvd_add hi ho, by omega, by omega⟩
        · exact .inr ⟨h.1, by omega, h.2.2⟩
      · rintro (h | ⟨hk, h3, h4⟩)
        · exact .inl (.inl h)
        · by_cases hk' : k = i + offset
          · exact .inl (.inr hk')
          · have := PageSize.add_le (Nat.dvd_add hi ho) hk (by omega)
            exact .inr ⟨hk, by omega, h4⟩
    · rw [if_neg hlt']
      exact ⟨rfl, fun k => ⟨.inl, fun h => h.resolve_right (by omega)⟩⟩

theorem isSome_erasePages {offset size k : Nat} :
    ((s.erasePages offset size).pages.find k).isSome ↔
      (s.pages.find k).isSome ∧ (k < offset ∨ size ≤ k - offset) := by
  unfold erasePages
  by_cases hk : k < offset ∨ size ≤ k - offset
  · rw [OrdMap.find_keep _ (by simpa using hk)]
    exact ⟨fun h => ⟨h, hk⟩, fun h => h.1⟩
  · rw [OrdMap.find_keep_none _ (by simpa using hk)]
    exact iff_of_false Bool.false_ne_true fun h => hk h.2

end Storage

/-! ## The regions given out -/

section

variable {ps : PageSize} {s : VmStorage ps} {live : List (Nat × Nat)} {E : AddressSpace}

/-- What holds between a storage and the regions given out and not released. -/
structure Sound (s : VmStorage ps) (live : List (Nat × Nat)) : Prop where
  whole : ∀ r ∈ live, block ∣ r.1 ∧ block ∣ r.2 ∧ 0 < r.2 ∧ r.1 + r.2 < 2 ^ 64
  apart : live.Pairwise Apart
  table : ∀ a n, (∃ i, s.allocations.find a = some i ∧ i.size = n) ↔ (a, n) ∈ live
  pages : ∀ a i, s.allocations.find a = some i → i.released = false → ∀ k, ps.bytes ∣ k → a ≤ k →
    k < a + i.size → (s.storage.pages.find k).isSome
  bound : ∀ k, (s.storage.pages.find k).isSome → k + ps.bytes < 2 ^ 64
  resume : s.lastSuccessEnd < 2 ^ 64

theorem sound_empty (ps : PageSize) : Sound (VmStorage.empty ps) [] where
  whole _ h := nomatch h
  apart := .nil
  table _ _ := iff_of_false (fun ⟨_, h, _⟩ => nomatch h) fun h => nomatch h
  pages _ _ h := nomatch h
  bound _ h := nomatch h
  resume := Nat.two_pow_pos 64

theorem Sound.mem {a : Nat} {i : Allocation} (h : Sound s live)
    (hi : s.allocations.find a = some i) : (a, i.size) ∈ live :=
  (h.table a i.size).1 ⟨i, hi, rfl⟩

/-- A region is given out. -/
theorem Sound.allocAt (h : Sound s live) (hps : ps.bytes ∣ block) (bCommit : Bool)
    {offset size : Nat} (hoff : block ∣ offset) (hsize : block ∣ size) (hpos : 0 < size)
    (hlt : offset + size < 2 ^ 64) (hapart : ∀ r ∈ live, Apart (offset, size) r) :
    (s.allocAt bCommit offset size).1 = .ok (some (offset, size)) ∧
      Sound (s.allocAt bCommit offset size).2 ((offset, size) :: live) := by
  have hnone : s.allocations.find offset = none := by
    cases hf : s.allocations.find offset with
    | none => rfl
    | some i =>
      have hm := h.mem hf
      have h1 := (h.whole _ hm).2.2.1
      have h2 := hapart _ hm
      unfold Apart at h2
      simp only at h1 h2
      omega
  obtain ⟨hok, hcommit⟩ := Storage.commit_spec (s := s.storage) (i := 0)
    (Nat.dvd_trans hps hoff) (Nat.dvd_zero _) hlt
    (show size ≤ 0 + size by omega)
  have hpg : ∀ k, ps.bytes ∣ k → k < offset + size → k + ps.bytes ≤ offset + size :=
    fun k hk hlt' =>
    PageSize.add_le hk (Nat.dvd_trans hps (Nat.dvd_add hoff hsize)) hlt'
  -- the storage after the call: its pages and the new entry of the table
  obtain ⟨storage, hres, hstorage⟩ : ∃ storage : Storage ps,
      s.allocAt bCommit offset size = (.ok (some (offset, size)), { s with
        storage, allocations := s.allocations.set offset ⟨size, !bCommit⟩ }) ∧
      ∀ k, (storage.pages.find k).isSome ↔ (s.storage.pages.find k).isSome ∨
        bCommit = true ∧ ps.bytes ∣ k ∧ offset ≤ k ∧ k < offset + size := by
    unfold VmStorage.allocAt
    rw [hnone]
    cases bCommit with
    | true =>
      generalize s.storage.commit offset size size 0 = c at hok hcommit
      obtain ⟨r, storage⟩ := c
      cases hok
      exact ⟨storage, rfl, fun k => by simpa using hcommit k⟩
    | false => exact ⟨s.storage, rfl, fun k => by simp⟩
  rw [hres]
  refine ⟨rfl, ?_, ?_, ?_, ?_, ?_, h.resume⟩
  · intro r hr
    rcases List.mem_cons.1 hr with rfl | hr
    · exact ⟨hoff, hsize, hpos, hlt⟩
    · exact h.whole r hr
  · exact List.pairwise_cons.2 ⟨hapart, h.apart⟩
  · intro a n
    by_cases ha : a = offset
    · subst ha
      have hnot : (a, n) ∉ live := fun hm => by
        obtain ⟨i, hi, -⟩ := (h.table a n).2 hm
        rw [hnone] at hi
        cases hi
      simp only [OrdMap.find_set_self, List.mem_cons, hnot, or_false]
      constructor
      · rintro ⟨i, hi, rfl⟩
        cases hi
        rfl
      · rintro he
        cases he
        exact ⟨_, rfl, rfl⟩
    · have hne : (a, n) ≠ (offset, size) := fun he => ha (congrArg Prod.fst he)
      simp only [OrdMap.find_set_of_ne _ ha, List.mem_cons, hne, false_or]
      exact h.table a n
  · intro a i hi hrel k hk h1 h2
    rw [hstorage]
    by_cases ha : a = offset
    · subst ha
      simp only [OrdMap.find_set_self] at hi
      cases hi
      exact .inr ⟨by simpa using hrel, hk, h1, h2⟩
    · simp only [OrdMap.find_set_of_ne _ ha] at hi
      exact .inl (h.pages a i hi hrel k hk h1 h2)
  · intro k hk
    rcases (hstorage k).1 hk with hk | ⟨-, hk, -, hk'⟩
    · exact h.bound k hk
    · have := hpg k hk hk'
      omega

/-- A region is released. -/
theorem Sound.vmFree (h : Sound s live) {hint : Nat} {r : Nat × Nat}
    (hr : (s.vmFree hint true).1 = some r) :
    Sound (s.vmFree hint true).2 (live.erase r) := by
  unfold VmStorage.vmFree at hr ⊢
  cases hf : s.allocations.find (allocOffset hint) with
  | none =>
    simp only [hf] at hr
    cases hr
  | some info =>
    simp only [hf, if_true] at hr ⊢
    cases hr
    have hmem := h.mem hf
    have hnodup : live.Nodup := by
      refine h.apart.imp_of_mem fun {r r'} hr _ hap he => ?_
      subst he
      have := (h.whole r hr).2.2.1
      unfold Apart at hap
      omega
    have herase : ∀ x, x ∈ live.erase (allocOffset hint, info.size) ↔
        x ≠ (allocOffset hint, info.size) ∧ x ∈ live := fun x => hnodup.mem_erase_iff
    have hfind : ∀ a, a ≠ allocOffset hint →
        (s.allocations.erase (allocOffset hint)).find a = s.allocations.find a := fun a ha =>
      OrdMap.find_keep _ (by simpa using ha)
    have hself : (s.allocations.erase (allocOffset hint)).find (allocOffset hint) = none :=
      OrdMap.find_keep_none _ (by simp)
    refine ⟨?_, ?_, ?_, ?_, ?_, h.resume⟩
    · exact fun x hx => h.whole x ((herase x).1 hx).2
    · exact h.apart.sublist List.erase_sublist
    · intro a n
      rw [herase]
      by_cases ha : a = allocOffset hint
      · subst ha
        rw [hself]
        refine iff_of_false (fun ⟨_, hc, _⟩ => nomatch hc) ?_
        rintro ⟨hne, hm⟩
        obtain ⟨i, hi, rfl⟩ := (h.table _ n).2 hm
        cases hf.symm.trans hi
        exact hne rfl
      · rw [hfind a ha, h.table a n]
        exact ⟨fun hm => ⟨fun he => ha (congrArg Prod.fst he), hm⟩, fun hm => hm.2⟩
    · intro a i hi hrel k hk h1 h2
      have ha : a ≠ allocOffset hint := by
        rintro rfl
        rw [hself] at hi
        cases hi
      rw [hfind a ha] at hi
      have hp := h.pages a i hi hrel k hk h1 h2
      have hap : Apart (a, i.size) (allocOffset hint, info.size) := by
        have hne : (a, i.size) ≠ (allocOffset hint, info.size) :=
          fun he => ha (congrArg Prod.fst he)
        exact h.apart.forall (h.mem hi) hmem hne
      simp only
      split_ifs
      · refine Storage.isSome_erasePages.2 ⟨hp, ?_⟩
        unfold Apart at hap
        simp only at hap
        omega
      · exact hp
    · intro k hk
      refine h.bound k ?_
      simp only at hk
      split_ifs at hk
      · exact (Storage.isSome_erasePages.1 hk).1
      · exact hk

theorem dvd_allocSize (size : Nat) : block ∣ allocSize size := by
  unfold allocSize
  simp only
  generalize (if size = 0 then block else size) = n
  split_ifs with h
  · refine Nat.dvd_of_mod_eq_zero ?_
    unfold add64 block at *
    omega
  · exact Nat.dvd_of_mod_eq_zero (not_not.1 h)

theorem allocSize_pos {size : Nat} (h : size ≤ 2 ^ 64 - block) : 0 < allocSize size := by
  unfold allocSize
  simp only
  split_ifs with h1 h2 h2
  · exact absurd (by decide) h2
  · decide
  · unfold add64 block at *
    omega
  · omega

theorem dvd_allocOffset (hint : Nat) : block ∣ allocOffset hint := Nat.dvd_sub_mod hint

theorem chooseTheRegion_some {size p : Nat} (h : s.chooseTheRegion E size = .ok (some p)) :
    size ≤ E.maxValidPointer - block ∧
      scanPages E size ps.bytes (E.maxValidPointer - block) (s.startOffset E)
        (s.storage.pages.upperBound (s.startOffset E)) = .ok (some p) := by
  unfold VmStorage.chooseTheRegion at h
  split_ifs at h with h1
  by_cases h2 : E.maxValidPointer - block < size
  · simp only [if_pos h2] at h
    cases h
  · simp only [if_neg h2] at h
    refine ⟨Nat.not_lt.1 h2, ?_⟩
    split at h
    · exact h
    · exact h

theorem startOffset_lt (hs : s.lastSuccessEnd < 2 ^ 64) : s.startOffset E < 2 ^ 64 := by
  unfold VmStorage.startOffset
  split_ifs
  · decide
  · exact hs

/-- A call of `VmAlloc` or of `VmFree` with release. -/
inductive VmCall where
  | alloc (offsetHint size : Nat) (bCommit : Bool)
  | free (offsetHint : Nat)

/-- The calls that keep the regions apart. A region at a hint is apart from the ones given out
and ends before the last address. A region is chosen only where every region given out is
committed, no page above the start lies below the size, and the page at the start is free if
it is a whole block. -/
def VmStorage.Allowed (E : AddressSpace) (s : VmStorage ps) : VmCall → Prop
  | .free _ => True
  | .alloc offsetHint size _ =>
    size ≤ 2 ^ 64 - block ∧
      if allocOffset offsetHint ≠ 0 then
        E.isRegionFree (allocOffset offsetHint) (allocSize size) →
          allocOffset offsetHint + allocSize size < 2 ^ 64 ∧
            ∀ a i, s.allocations.find a = some i →
              Apart (allocOffset offsetHint, allocSize size) (a, i.size)
      else
        (ps.bytes < block ∨ s.storage.pages.find (s.startOffset E) = none) ∧
          (∀ a i, s.allocations.find a = some i → i.released = false) ∧
          ∀ k, (s.storage.pages.find k).isSome → s.startOffset E < k → allocSize size ≤ k

/-- A region chosen between the pages is apart from the committed ones. -/
theorem Free.apart {size p : Nat} (hfree : Free s.storage size p) (h : Sound s live)
    (hsize : block ∣ size) (hpos : 0 < size) (hcommitted : ∀ a i, s.allocations.find a = some i →
      i.released = false) {r : Nat × Nat} (hr : r ∈ live) : Apart (p, size) r := by
  by_contra hap
  obtain ⟨h1, h2, h3, -⟩ := h.whole r hr
  obtain ⟨B, hB, h4, h5, h6, h7⟩ := exists_block_of_not_apart hfree.dvd hsize h1 h2 hpos h3 hap
  obtain ⟨j, hj, h8, h9, hnone⟩ := hfree.misses B hB h4 h5
  obtain ⟨i, hi, hn⟩ := (h.table r.1 r.2).2 hr
  have := h.pages r.1 i hi (hcommitted _ _ hi) j hj (by omega) (by omega)
  rw [hnone] at this
  cases this

/-- The regions given out after a call of `VmAlloc`. -/
def liveAfter (live : List (Nat × Nat)) : Except Failure (Option (Nat × Nat)) → List (Nat × Nat)
  | .ok (some r) => r :: live
  | _ => live

/-- The regions given out after a call of `VmFree`. -/
def liveReleased (live : List (Nat × Nat)) : Option (Nat × Nat) → List (Nat × Nat)
  | some r => live.erase r
  | none => live

/-- The storage and the regions given out after a call. -/
def VmStorage.call (E : AddressSpace) (s : VmStorage ps) (live : List (Nat × Nat)) :
    VmCall → VmStorage ps × List (Nat × Nat)
  | .alloc offsetHint size bCommit =>
    ((s.vmAlloc E offsetHint size bCommit).2,
      liveAfter live (s.vmAlloc E offsetHint size bCommit).1)
  | .free offsetHint =>
    ((s.vmFree offsetHint true).2, liveReleased live (s.vmFree offsetHint true).1)

theorem Sound.vmAlloc (h : Sound s live) (hps : ps.bytes ∣ block) {offsetHint size : Nat}
    {bCommit : Bool} (hc : s.Allowed E (.alloc offsetHint size bCommit)) :
    Sound (s.vmAlloc E offsetHint size bCommit).2
      (liveAfter live (s.vmAlloc E offsetHint size bCommit).1) := by
  obtain ⟨hsize, hc⟩ := hc
  have hdvd := dvd_allocSize size
  have hpos := allocSize_pos hsize
  have hblock : block ≤ allocSize size := Nat.le_of_dvd hpos hdvd
  unfold VmStorage.vmAlloc
  by_cases hoff : allocOffset offsetHint ≠ 0
  · rw [if_pos hoff] at hc ⊢
    by_cases hfree : E.isRegionFree (allocOffset offsetHint) (allocSize size) = true
    · rw [if_neg (not_not.2 hfree)]
      obtain ⟨hlt, hap⟩ := hc hfree
      obtain ⟨h1, h2⟩ := h.allocAt hps bCommit (dvd_allocOffset offsetHint) hdvd hpos hlt
        fun r hr => by
          obtain ⟨i, hi, hn⟩ := (h.table r.1 r.2).2 hr
          have := hap _ i hi
          rwa [hn] at this
      rw [h1]
      exact h2
    · rw [if_pos hfree]
      exact h
  · rw [if_neg hoff] at hc ⊢
    obtain ⟨hresume, hcommitted, hlarge⟩ := hc
    cases hr : s.chooseTheRegion E (allocSize size) with
    | error e => exact h
    | ok r =>
      cases r with
      | none => exact h
      | some p =>
        obtain ⟨hle, hscan⟩ := chooseTheRegion_some hr
        have hmax := E.max_lt
        have hfree : Free s.storage (allocSize size) p :=
          scanPages_some hps (by omega) hblock hle hresume (startOffset_lt h.resume) h.bound hlarge
            hscan
        have hlt := hfree.lt
        have h' : Sound { s with lastSuccessEnd := p } live :=
          { h with resume := by simp only; omega }
        obtain ⟨h1, h2⟩ := h'.allocAt hps bCommit hfree.dvd hdvd hpos hlt
          fun r hr => hfree.apart h hdvd hpos hcommitted hr
        simp only
        rw [h1]
        exact h2

/-- One call. -/
theorem Sound.call (h : Sound s live) (hps : ps.bytes ∣ block) {c : VmCall} (hc : s.Allowed E c) :
    Sound (s.call E live c).1 (s.call E live c).2 := by
  cases c with
  | alloc offsetHint size bCommit => exact h.vmAlloc hps hc
  | free offsetHint =>
    simp only [VmStorage.call]
    cases hr : (s.vmFree offsetHint true).1 with
    | some r => exact h.vmFree hr
    | none =>
      have hsame : (s.vmFree offsetHint true).2 = s := by
        unfold VmStorage.vmFree at hr ⊢
        cases hf : s.allocations.find (allocOffset offsetHint) with
        | none => simp only [hf]
        | some i =>
          simp only [hf, if_true] at hr
          cases hr
      rw [hsame]
      exact h

/-- The regions given out and not released have no common address and do not go past the last
address. -/
def LiveApart (live : List (Nat × Nat)) : Prop :=
  (∀ r ∈ live, r.1 + r.2 ≤ 2 ^ 64) ∧ live.Pairwise Apart

/-- The regions are apart in every state of a run. -/
def AllApart (E : AddressSpace) (s : VmStorage ps) (live : List (Nat × Nat)) : List VmCall → Prop
  | [] => LiveApart live
  | c :: cs => LiveApart live ∧ AllApart E (s.call E live c).1 (s.call E live c).2 cs

/-- Every call of a run is allowed in the state it is made in. -/
def AllAllowed (E : AddressSpace) (s : VmStorage ps) (live : List (Nat × Nat)) : List VmCall → Prop
  | [] => True
  | c :: cs => s.Allowed E c ∧ AllAllowed E (s.call E live c).1 (s.call E live c).2 cs

theorem Sound.liveApart (h : Sound s live) : LiveApart live :=
  ⟨fun r hr => Nat.le_of_lt (h.whole r hr).2.2.2, h.apart⟩

theorem Sound.allApart (h : Sound s live) (hps : ps.bytes ∣ block) {cs : List VmCall}
    (hcs : AllAllowed E s live cs) : AllApart E s live cs := by
  induction cs generalizing s live with
  | nil => exact h.liveApart
  | cons c cs ih =>
    obtain ⟨hc, hcs⟩ := hcs
    exact ⟨h.liveApart, ih (h.call hps hc) hcs⟩

end

/-- **Virtual allocations do not overlap**, in every run whose calls are allowed. -/
theorem allApart_of_allAllowed (E : AddressSpace) {ps : PageSize} (hps : ps.bytes ∣ block)
    {cs : List VmCall} (hcs : AllAllowed E (VmStorage.empty ps) [] cs) :
    AllApart E (VmStorage.empty ps) [] cs :=
  (sound_empty ps).allApart hps hcs

/-- An address space in which everything is free. -/
def freeSpace : AddressSpace where
  isRegionFree _ _ := true
  startOfNewRegion _ _ := 0
  noData _ _ := true
  maxValidPointer := 2 ^ 47 - 1
  start_lt _ _ := by decide
  max_lt := by decide

/-- Two regions chosen one after the other, the first one released again. -/
theorem allApart_chosen : AllApart freeSpace (VmStorage.empty page16) []
    [.alloc 0 1 true, .alloc 0 1 true, .free 0x3260000] := by
  have hstart : (VmStorage.call freeSpace (VmStorage.empty page16) []
      (.alloc 0 1 true)).1.startOffset freeSpace = 0x3260000 := by
    decide +kernel
  have htable : (VmStorage.call freeSpace (VmStorage.empty page16) []
      (.alloc 0 1 true)).1.allocations.entries = [(0x3260000, ⟨0x1000, false⟩)] := by
    decide +kernel
  have hsize : allocSize 1 = 0x1000 := by decide
  refine allApart_of_allAllowed freeSpace (by decide)
    ⟨⟨by decide, .inl (by decide), (fun _ _ h => nomatch h), (fun _ h => nomatch h)⟩,
      ⟨by decide, .inl (by decide), ?_, ?_⟩, trivial, trivial⟩
  · intro a i hi
    have hm := (OrdMap.mem_entries _).2 hi
    rw [htable, List.mem_singleton] at hm
    cases hm
    rfl
  · intro k _ hk
    rw [hstart] at hk
    omega

/-- The same hint twice gives the same region twice. -/
theorem same_hint_same_region : ¬ AllApart freeSpace (VmStorage.empty page16) []
    [.alloc 0x10000 0x1000 false, .alloc 0x10000 0x1000 false] := by
  rintro ⟨-, -, -, hapart⟩
  have hlive : (VmStorage.call freeSpace (VmStorage.call freeSpace (VmStorage.empty page16) []
      (.alloc 0x10000 0x1000 false)).1 (VmStorage.call freeSpace (VmStorage.empty page16) []
      (.alloc 0x10000 0x1000 false)).2 (.alloc 0x10000 0x1000 false)).2 =
        [(0x10000, 0x1000), (0x10000, 0x1000)] := by
    decide +kernel
  rw [hlive] at hapart
  have := (List.pairwise_cons.1 hapart).1 _ List.mem_cons_self
  unfold Apart at this
  omega

end Diana.Orthia
