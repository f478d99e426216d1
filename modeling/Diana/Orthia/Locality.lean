import Diana.Orthia.Overlay

/-!
# Reads are local

What a read of the overlay depends on: the modified pages that meet the range, and, by the size of a
buffer, also the next modified page behind them.

* `read_cases`: a read gives the bytes of the content, or a buffer is too large;
* `readsAlike_iff`: two overlays with the same pages in the range.
-/

namespace Diana.Orthia

open Diana.Lib

namespace Storage

variable {ps : PageSize} (R : Reader) (s s' : Storage ps) (off n : Nat)

/-- A read comes to the end of a modified page behind which the stretch, up to the next modified
page or else to the end of the range, does not fit into a buffer. -/
def StretchTooLarge : Prop :=
  ∃ k, (s.pages.find k).isSome ∧ off < k + ps.bytes ∧ k + ps.bytes < off + n ∧
    (∀ a, off ≤ a → a < k + ps.bytes → (s.content R a).isSome) ∧
    ((∃ k', (s.pages.find k').isSome ∧ k < k' ∧ (∀ j, k < j → j < k' → s.pages.find j = none) ∧
        maxSize < k' - ps.bytes - k) ∨
      ((∀ j, k < j → s.pages.find j = none) ∧ maxSize < off + n - (k + ps.bytes)))

/-- The pages to cache do not fit into a buffer. -/
def CacheTooLarge : Prop :=
  n ≠ 0 ∧ s.cacheReads = true ∧ (∀ k, ps.start off ≤ k → s.pages.find k = none) ∧
    maxSize < ps.roundUp n

def BuffersFit : Prop := ¬ s.StretchTooLarge R off n ∧ ¬ s.CacheTooLarge off n

/-- The modified pages that meet the range are the same. -/
def AgreeOn : Prop :=
  ∀ k, (∃ a, off ≤ a ∧ a < off + n ∧ k ≤ a ∧ a < k + ps.bytes) → s.pages.find k = s'.pages.find k

/-- The two reads return the same bytes, and neither throws. -/
def ReadsAlike : Prop := ∃ bs, (s.read R off n).1 = .ok bs ∧ (s'.read R off n).1 = .ok bs

variable {R s s' off n}

/-- The next entry of a page map. -/
theorem next_of_entries {l₁ l₂ : List (Nat × List Byte)} {e : Nat × List Byte} {first : Nat}
    (hL : s.pages.lowerBound first = l₁ ++ e :: l₂) {j : Nat} (hj : e.1 < j) :
    (s.pages.find j).isSome ↔ ∃ d, (j, d) ∈ l₂ := by
  have hs := s.pages.sorted_lowerBound first
  have hmem : ∀ {j d}, (j, d) ∈ l₁ ++ e :: l₂ ↔ s.pages.find j = some d ∧ first ≤ j :=
    fun {j d} => hL ▸ s.pages.mem_lowerBound
  have hfirst := (hmem (j := e.1) (d := e.2)).1 (List.mem_append_right _ List.mem_cons_self)
  rw [hL] at hs
  obtain ⟨-, hs2, hs3⟩ := List.pairwise_append.1 hs
  rw [Option.isSome_iff_exists]
  constructor
  · rintro ⟨d, hd⟩
    refine ⟨d, ?_⟩
    rcases List.mem_append.1 (hmem.2 ⟨hd, by omega⟩) with hm | hm
    · have := hs3 _ hm e List.mem_cons_self
      dsimp only at this
      omega
    · rcases List.mem_cons.1 hm with rfl | hm
      · exact absurd hj (Nat.lt_irrefl _)
      · exact hm
  · rintro ⟨d, hd⟩
    exact ⟨d, (hmem.1 (List.mem_append_right _ (List.mem_cons_of_mem _ hd))).1⟩

theorem tooLarge_lowerBound :
    TooLarge (s.content R) ps.bytes off (off + n) (s.pages.lowerBound (ps.start off)) ↔
    s.StretchTooLarge R off n := by
  have hoff := ps.lt_start off
  have hstart := ps.start_le off
  constructor
  · rintro ⟨l₁, e, l₂, hL, hlt, hall, hbig⟩
    have he : s.pages.find e.1 = some e.2 ∧ ps.start off ≤ e.1 :=
      s.pages.mem_lowerBound.1 (hL ▸ List.mem_append_right _ List.mem_cons_self)
    have hnext := fun {j} => next_of_entries (j := j) hL
    refine ⟨e.1, by rw [he.1]; rfl, by omega, hlt, hall, ?_⟩
    cases l₂ with
    | nil =>
      refine .inr ⟨fun j hj => ?_, hbig⟩
      refine Option.eq_none_iff_forall_ne_some.2 fun d hd => ?_
      obtain ⟨d', hd'⟩ := (hnext hj).1 (by rw [hd]; rfl)
      cases hd'
    | cons e' l₂ =>
      have hs := s.pages.sorted_lowerBound (ps.start off)
      rw [hL] at hs
      obtain ⟨hee, hs'⟩ := List.pairwise_cons.1 (List.pairwise_append.1 hs).2.1
      have hlt' := hee e' List.mem_cons_self
      refine .inl ⟨e'.1, (hnext hlt').2 ⟨e'.2, List.mem_cons_self⟩, hlt', fun j h1 h2 => ?_, hbig⟩
      refine Option.eq_none_iff_forall_ne_some.2 fun d hd => ?_
      obtain ⟨d', hd'⟩ := (hnext h1).1 (by rw [hd]; rfl)
      rcases List.mem_cons.1 hd' with heq | hm
      · cases heq
        exact absurd h2 (Nat.lt_irrefl _)
      · have := (List.pairwise_cons.1 hs').1 _ hm
        dsimp only at this
        omega
  · rintro ⟨k, hk, hlt, hstop, hall, hbig⟩
    obtain ⟨d, hd⟩ := Option.isSome_iff_exists.1 hk
    have hfirst : ps.start off ≤ k := by
      by_contra hcon
      have := PageSize.add_le (s.page k d hd).1 (ps.dvd_start off) (by omega)
      omega
    obtain ⟨l₁, l₂, hL⟩ := List.append_of_mem (s.pages.mem_lowerBound.2 ⟨hd, hfirst⟩)
    have hnext := fun {j} => next_of_entries (j := j) hL
    refine ⟨l₁, (k, d), l₂, hL, hstop, hall, ?_⟩
    cases l₂ with
    | nil =>
      rcases hbig with ⟨k', hk', hkk', -, -⟩ | ⟨-, hbig⟩
      · obtain ⟨d', hd'⟩ := (hnext hkk').1 hk'
        cases hd'
      · exact hbig
    | cons e' l₂ =>
      have hs := s.pages.sorted_lowerBound (ps.start off)
      rw [hL] at hs
      obtain ⟨hee, hs'⟩ := List.pairwise_cons.1 (List.pairwise_append.1 hs).2.1
      have hlt' := hee e' List.mem_cons_self
      have hfound := (hnext hlt').2 ⟨e'.2, List.mem_cons_self⟩
      rcases hbig with ⟨k', hk', hkk', hnone, hbig⟩ | ⟨hnone, -⟩
      · obtain ⟨d', hd'⟩ := (hnext hkk').1 hk'
        rcases List.mem_cons.1 hd' with rfl | hm
        · exact hbig
        · have := (List.pairwise_cons.1 hs').1 _ hm
          rw [hnone e'.1 hlt' this] at hfound
          cases hfound
      · rw [hnone e'.1 hlt'] at hfound
        cases hfound

theorem lowerBound_eq_nil {first : Nat} :
    s.pages.lowerBound first = [] ↔ ∀ k, first ≤ k → s.pages.find k = none := by
  constructor
  · exact fun h k hk => find_of_lowerBound_nil h hk
  · refine fun h => List.eq_nil_iff_forall_not_mem.2 fun e he => ?_
    have := s.pages.mem_lowerBound.1 he
    rw [h e.1 this.2] at this
    cases this.1

/-- A read from the iterator that `Read` starts with. -/
theorem readFromStart_cases (t : Storage ps) :
    (¬ t.StretchTooLarge R off n →
      readFromIterator R ps.bytes ((t.pages.lowerBound (ps.start off)).dropWhile fun e =>
        ¬ (off < e.1 ∨ off - e.1 < ps.bytes)) off n = .ok (readFrom (t.content R) off n)) ∧
      (t.StretchTooLarge R off n →
        readFromIterator R ps.bytes ((t.pages.lowerBound (ps.start off)).dropWhile fun e =>
        ¬ (off < e.1 ∨ off - e.1 < ps.bytes)) off n = .error .lengthError) := by
  rw [dropWhile_lowerBound, ← tooLarge_lowerBound]
  refine readFromIterator_cases (pagesOf_lowerBound R t off) (fun e he => ?_) ps.pos
  have := (t.pages.mem_lowerBound.1 he).2
  have := ps.lt_start off
  omega

/-- The cached pages cover the range but for less than a page. -/
theorem cached_not_tooLarge (hn : n < 2 ^ 64) (hnone : s.pages.lowerBound (ps.start off) = [])
    (hfit : ps.roundUp n ≤ maxSize) :
    ¬ (s.cached R (ps.start off) (ps.roundUp n)).StretchTooLarge R off n := by
  have hoff := ps.lt_start off
  have hstart := ps.start_le off
  have hps := ps.lt
  by_cases hc : (R.read (ps.start off) (ps.roundUp n)).length = ps.roundUp n ∧
    ps.bytes ∣ ps.roundUp n ∧
      ps.bytes ∣ ps.start off
  · have hfind := fun {k} (hk : ps.start off ≤ k) => find_cached (R := R) hnone hk hc
    rintro ⟨k, hk, hlt, hstop, -, hbig⟩
    have hdvd : ps.bytes ∣ k := by
      obtain ⟨d, hd⟩ := Option.isSome_iff_exists.1 hk
      exact (Storage.page _ k d hd).1
    have hfirst : ps.start off ≤ k := by
      by_contra hcon
      have := PageSize.add_le hdvd (ps.dvd_start off) (by omega)
      omega
    rw [hfind hfirst] at hk
    split_ifs at hk with hin
    · -- the end of the cached pages, where the size has not wrapped
      have hround : n ≤ ps.roundUp n := by
        have h1 := ps.start_le n
        have h2 := ps.lt_start n
        have hpos : 0 < ps.roundUp n := by omega
        have hle := Nat.le_of_dvd hpos hc.2.1
        unfold PageSize.roundUp maxSize at *
        split_ifs at * <;> omega
      rcases hbig with ⟨k', hk', hkk', hbetween, hbig⟩ | ⟨hbehind, hbig⟩
      · rw [hfind (by omega)] at hk'
        split_ifs at hk' with hin'
        · have hle := PageSize.add_le hdvd hin'.1 hkk'
          have hnext := hbetween (k + ps.bytes) (by have := ps.pos; omega) (by omega)
          rw [hfind (by omega), if_pos ⟨Nat.dvd_add hdvd (Nat.dvd_refl _), by omega⟩] at hnext
          cases hnext
        · cases hk'
      · have hnext := hbehind (k + ps.bytes) (by have := ps.pos; omega)
        rw [hfind (by omega)] at hnext
        split_ifs at hnext with hin'
        have hend : ps.start off + ps.roundUp n ≤ k + ps.bytes :=
          Nat.le_of_not_lt fun h => hin' ⟨Nat.dvd_add hdvd (Nat.dvd_refl _), h⟩
        unfold maxSize at hbig
        omega
    · cases hk
  · have hsame : s.cached R (ps.start off) (ps.roundUp n) = s := by
      unfold cached
      rw [dif_neg hc]
    rw [hsame]
    rintro ⟨k, hk, hlt, -⟩
    obtain ⟨d, hd⟩ := Option.isSome_iff_exists.1 hk
    have hfirst : ps.start off ≤ k := by
      by_contra hcon
      have := PageSize.add_le (s.page k d hd).1 (ps.dvd_start off) (by omega)
      omega
    rw [find_of_lowerBound_nil hnone hfirst] at hk
    cases hk

/-- What a read gives: the bytes of the content, where the buffers fit. -/
theorem read_cases (R : Reader) (s : Storage ps) (off : Nat) (hn : n < 2 ^ 64) :
    (s.BuffersFit R off n → (s.read R off n).1 = .ok (readFrom (s.content R) off n)) ∧
      (¬ s.BuffersFit R off n → (s.read R off n).1 = .error .lengthError) := by
  unfold read
  by_cases h0 : n = 0
  · subst h0
    refine ⟨fun _ => rfl, fun h => absurd ⟨?_, fun hc => hc.1 rfl⟩ h⟩
    rintro ⟨k, -, hlt, hstop, -⟩
    omega
  simp only [if_neg h0]
  by_cases hc : s.pages.lowerBound (ps.start off) = [] ∧ s.cacheReads = true
  · have hnone := lowerBound_eq_nil.1 hc.1
    by_cases hbig : maxSize < ps.roundUp n
    · rw [if_pos ⟨hc.1, hc.2, hbig⟩]
      exact ⟨fun h => absurd ⟨h0, hc.2, hnone, hbig⟩ h.2, fun _ => rfl⟩
    · rw [if_neg fun h => hbig h.2.2]
      simp only [if_pos hc]
      have hread := (@readFromStart_cases _ R off n (s.cached R (ps.start off) (ps.roundUp n))).1
        (cached_not_tooLarge hn hc.1 (Nat.le_of_not_lt hbig))
      refine ⟨fun _ => ?_, fun h => absurd ⟨?_, fun hcache => hbig hcache.2.2.2⟩ h⟩
      · rw [hread]
        congr 1
        exact readFrom_congr fun i _ => content_cached hc.1 _
      · rintro ⟨k, hk, hlt, -⟩
        obtain ⟨d, hd⟩ := Option.isSome_iff_exists.1 hk
        have hoff := ps.lt_start off
        have hfirst : ps.start off ≤ k := by
          by_contra hcon
          have := PageSize.add_le (s.page k d hd).1 (ps.dvd_start off) (by omega)
          have := ps.start_le off
          omega
        rw [hnone k hfirst] at hk
        cases hk
  · rw [if_neg fun h => hc ⟨h.1, h.2.1⟩]
    simp only [if_neg hc]
    have hcache : ¬ s.CacheTooLarge off n := fun h => hc ⟨lowerBound_eq_nil.2 h.2.2.1, h.2.1⟩
    obtain ⟨hok, herror⟩ := @readFromStart_cases _ R off n s
    refine ⟨fun h => hok h.1, fun h => herror ?_⟩
    by_contra hsmall
    exact h ⟨hsmall, hcache⟩

/-- The content of the range is that of the pages which meet it. -/
theorem AgreeOn.content (h : s.AgreeOn s' off n) {a : Nat} (h1 : off ≤ a) (h2 : a < off + n) :
    s.content R a = s'.content R a := by
  unfold Storage.content pageByte
  rw [h (ps.start a) ⟨a, h1, h2, ps.start_le a, ps.lt_start a⟩]

/-- Two overlays with the same pages in the range are read alike if the buffers of both reads
fit. -/
theorem readsAlike_iff (R : Reader) {s s' : Storage ps} {off n : Nat} (hn : n < 2 ^ 64)
    (h : s.AgreeOn s' off n) :
    ReadsAlike R s s' off n ↔ s.BuffersFit R off n ∧ s'.BuffersFit R off n := by
  obtain ⟨hok, herror⟩ := read_cases R s off hn
  obtain ⟨hok', herror'⟩ := read_cases R s' off hn
  constructor
  · rintro ⟨bs, hs, hs'⟩
    constructor
    · by_contra hbig
      rw [herror hbig] at hs
      cases hs
    · by_contra hbig
      rw [herror' hbig] at hs'
      cases hs'
  · rintro ⟨hfit, hfit'⟩
    refine ⟨_, hok hfit, ?_⟩
    rw [hok' hfit']
    congr 1
    exact readFrom_congr fun i hi => (h.content (by omega) (by omega)).symm

/-- Two overlays without a modified page. -/
theorem readsAlike_iff_untouched :
    ReadsAlike (readerOverVector 0x100 [5, 6]) (empty page16 true) (empty page16 false) 0x100 3 ↔
      (empty page16 true).BuffersFit (readerOverVector 0x100 [5, 6]) 0x100 3 ∧
        (empty page16 false).BuffersFit (readerOverVector 0x100 [5, 6]) 0x100 3 :=
  readsAlike_iff _ (by decide) fun _ _ => rfl

/-- The page of zeros at an address. -/
def zeroPage (s : Storage page16) (k : Nat) (hk : page16.bytes ∣ k) : Storage page16 :=
  s.setPage k (List.replicate 16 0) hk rfl

/-- A modified page at 0, and another one in the upper half of the address space. -/
theorem not_readsAlike : ¬ ∀ (ps : PageSize) (R : Reader) (s s' : Storage ps) (off n : Nat),
    n < 2 ^ 64 → s.AgreeOn s' off n → ReadsAlike R s s' off n := by
  intro h
  have hfar : page16.bytes ∣ 2 ^ 63 + 16 := by decide
  let near := zeroPage (empty page16 false) 0 (Nat.dvd_zero _)
  let both := zeroPage near (2 ^ 63 + 16) hfar
  have hother : ∀ k, k ≠ 2 ^ 63 + 16 → both.pages.find k = near.pages.find k :=
    fun k hk => find_setPage_of_ne near hfar rfl hk
  have hzero : both.pages.find 0 = some (List.replicate 16 0) :=
    (hother 0 (by decide)).trans (find_setPage_self _ (Nat.dvd_zero _) rfl)
  have hnone : ∀ k, k ≠ 0 → near.pages.find k = none :=
    fun k hk => find_setPage_of_ne _ (Nat.dvd_zero _) rfl hk
  obtain ⟨bs, hbs, -⟩ := h page16 (readerOverVector 0 []) both near 0 17 (by decide) (by
    rintro k ⟨a, -, h2, h3, -⟩
    exact hother k (by omega))
  have hstretch : both.StretchTooLarge (readerOverVector 0 []) 0 17 := by
    refine ⟨0, by rw [hzero]; rfl, by decide, by decide, fun a h1 h2 => ?_,
      .inl ⟨2 ^ 63 + 16, ?_, by decide, ?_, by decide⟩⟩
    · rw [content_of_find hzero h1 h2, List.getElem?_replicate,
        if_pos (show a - 0 < 16 by change a < 0 + 16 at h2; omega)]
      rfl
    · rw [show both.pages.find (2 ^ 63 + 16) = _ from find_setPage_self near hfar rfl]
      rfl
    · intro j h1 h2
      rw [hother j (by omega), hnone j (by omega)]
  rw [(read_cases _ both 0 (by decide)).2 fun hfit => hfit.1 hstretch] at hbs
  cases hbs

end Storage

end Diana.Orthia
