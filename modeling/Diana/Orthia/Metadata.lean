import Diana.Orthia.Modules
import Mathlib.Data.List.Induction

/-!
# Incremental and rebuilt metadata

What the summary of a module is after any sequence of writes, what the rebuild makes of it, and when
both are the lowest address, the span and the number of the writes.
-/

namespace Diana.Orthia

open Diana.Lib

/-! ## Lowest, highest and reach -/

section

variable {low high size : Nat} {w : ModWrite} {ws : List ModWrite}

theorem lowestFrom_append_singleton :
    lowestFrom low (ws ++ [w]) = min (lowestFrom low ws) w.start := by
  induction ws generalizing low with
  | nil => rfl
  | cons v ws ih => exact ih

theorem reachFrom_append_singleton :
    reachFrom low size (ws ++ [w]) =
      max (reachFrom low size ws) (w.last + 1 - lowestFrom low ws) := by
  induction ws generalizing low size with
  | nil => rfl
  | cons v ws ih => exact ih

theorem lowestFrom_le_low : lowestFrom low ws ≤ low := by
  induction ws generalizing low with
  | nil => exact Nat.le_refl _
  | cons v ws ih => exact ih.trans (Nat.min_le_left _ _)

theorem lowestFrom_le_start (h : w ∈ ws) : lowestFrom low ws ≤ w.start := by
  induction ws generalizing low with
  | nil => cases h
  | cons v ws ih =>
    rcases List.mem_cons.1 h with rfl | h
    · exact (@lowestFrom_le_low _ ws).trans (Nat.min_le_right low w.start)
    · exact ih h

theorem high_le_highestFrom : high ≤ highestFrom high ws := by
  induction ws generalizing high with
  | nil => exact Nat.le_refl _
  | cons v ws ih => exact (Nat.le_max_left _ _).trans ih

theorem last_le_highestFrom (h : w ∈ ws) : w.last ≤ highestFrom high ws := by
  induction ws generalizing high with
  | nil => cases h
  | cons v ws ih =>
    rcases List.mem_cons.1 h with rfl | h
    · exact (Nat.le_max_right high w.last).trans (@high_le_highestFrom _ ws)
    · exact ih h

theorem highestFrom_lt (h : high < 2 ^ 64) : highestFrom high ws < 2 ^ 64 := by
  induction ws generalizing high with
  | nil => exact h
  | cons v ws ih => exact ih (max_lt h v.last_lt)

theorem lowest_le (h : w ∈ ws) : lowest ws ≤ w.start := by
  cases ws with
  | nil => cases h
  | cons v ws =>
    rcases List.mem_cons.1 h with rfl | h
    · exact lowestFrom_le_low
    · exact lowestFrom_le_start h

theorem le_highest (h : w ∈ ws) : w.last ≤ highest ws := by
  cases ws with
  | nil => cases h
  | cons v ws =>
    rcases List.mem_cons.1 h with rfl | h
    · exact high_le_highestFrom
    · exact last_le_highestFrom h

theorem highest_lt : highest ws < 2 ^ 64 := by
  cases ws with
  | nil => decide
  | cons v ws => exact highestFrom_lt v.last_lt

theorem lowest_append_singleton (h : ws ≠ []) : lowest (ws ++ [w]) = min (lowest ws) w.start := by
  cases ws with
  | nil => exact absurd rfl h
  | cons v ws => exact lowestFrom_append_singleton

theorem reach_append_singleton (h : ws ≠ []) :
    reach (ws ++ [w]) = max (reach ws) (w.last + 1 - lowest ws) := by
  cases ws with
  | nil => exact absurd rfl h
  | cons v ws => exact reachFrom_append_singleton

theorem span_of_ne_nil (h : ws ≠ []) : span ws = highest ws + 1 - lowest ws := by
  cases ws with
  | nil => exact absurd rfl h
  | cons v ws => rfl

/-- The recorded size is positive and ends at an address. -/
theorem reach_bounds (h : ws ≠ []) : 0 < reach ws ∧ lowest ws + reach ws ≤ 2 ^ 64 := by
  induction ws using List.reverseRecOn with
  | nil => exact absurd rfl h
  | append_singleton ws w ih =>
    by_cases hws : ws = []
    · subst hws
      exact ⟨w.length_pos, w.le⟩
    · have hw := w.last_lt
      obtain ⟨h0, h1⟩ := ih hws
      rw [lowest_append_singleton hws, reach_append_singleton hws]
      omega

end

/-- When the recorded size is the whole span: a write that ends at the highest address comes after
one that starts at the lowest. -/
theorem reachFrom_eq_iff {M E : Nat} (hME : M ≤ E) {ws : List ModWrite}
    (hws : ∀ w ∈ ws, M ≤ w.start ∧ w.last ≤ E) {low size : Nat} (hlow : M ≤ low)
    (hsize : low + size ≤ E + 1) :
    reachFrom low size ws = E + 1 - M ↔
      size = E + 1 - M ∨ ∃ pre w post, ws = pre ++ w :: post ∧ w.last = E ∧
        (low = M ∨ ∃ v ∈ pre, v.start = M) := by
  induction ws generalizing low size with
  | nil =>
    refine ⟨.inl, ?_⟩
    rintro (h | ⟨pre, w, post, h, -⟩)
    · exact h
    · exact absurd h.symm (by simp)
  | cons w ws ih =>
    obtain ⟨hwM, hwE⟩ := hws w List.mem_cons_self
    have hsl := w.start_le_last
    have ih : reachFrom (min low w.start) (max size (w.last + 1 - low)) ws = E + 1 - M ↔ _ :=
      ih (fun v hv => hws v (List.mem_cons_of_mem _ hv)) (by omega) (by omega)
    rw [reachFrom, ih]
    constructor
    · rintro (h | ⟨pre, v, post, rfl, hv, hu⟩)
      · by_cases hs : size = E + 1 - M
        · exact .inl hs
        · exact .inr ⟨[], w, ws, rfl, by omega, .inl (by omega)⟩
      · refine .inr ⟨w :: pre, v, post, rfl, hv, ?_⟩
        rcases hu with hu | ⟨u, hu, hM⟩
        · by_cases hl : low = M
          · exact .inl hl
          · exact .inr ⟨w, List.mem_cons_self, by omega⟩
        · exact .inr ⟨u, List.mem_cons_of_mem _ hu, hM⟩
    · rintro (h | ⟨pre, v, post, h, hv, hu⟩)
      · exact .inl (by omega)
      · cases pre with
        | nil =>
          cases h
          rcases hu with hu | ⟨u, hu, -⟩
          · exact .inl (by omega)
          · cases hu
        | cons p pre =>
          cases h
          refine .inr ⟨pre, v, post, rfl, hv, ?_⟩
          rcases hu with hu | ⟨u, hu, hM⟩
          · exact .inl (by omega)
          · rcases List.mem_cons.1 hu with rfl | hu
            · exact .inl (by omega)
            · exact .inr ⟨u, hu, hM⟩

/-- A write that ends at the highest address is made after one that starts at the lowest, or is the
first one and starts there. -/
def TopAfterBottom (ws : List ModWrite) : Prop :=
  ∃ pre w post, ws = pre ++ w :: post ∧ w.last = highest ws ∧
    ∃ v ∈ if pre = [] then [w] else pre, v.start = lowest ws

theorem reach_eq_span_iff {ws : List ModWrite} (h : ws ≠ []) :
    reach ws = span ws ↔ TopAfterBottom ws := by
  rw [span_of_ne_nil h]
  cases ws with
  | nil => exact absurd rfl h
  | cons w ws =>
    have hl : ∀ v ∈ w :: ws, lowest (w :: ws) ≤ v.start ∧ v.last ≤ highest (w :: ws) :=
      fun v hv => ⟨lowest_le hv, le_highest hv⟩
    obtain ⟨hwl, hwh⟩ := hl w List.mem_cons_self
    have hsl := w.start_le_last
    have hlast : w.start + w.data.length = w.last + 1 := by
      have := w.length_pos
      unfold ModWrite.last
      omega
    have key := reachFrom_eq_iff (M := lowest (w :: ws)) (E := highest (w :: ws)) (by omega)
      (fun v hv => hl v (List.mem_cons_of_mem _ hv)) hwl
      (show w.start + w.data.length ≤ highest (w :: ws) + 1 by omega)
    refine key.trans ⟨?_, ?_⟩
    · rintro (h | ⟨pre, v, post, rfl, hv, hu⟩)
      · exact ⟨[], w, ws, rfl, by omega, w, List.mem_cons_self, by omega⟩
      · refine ⟨w :: pre, v, post, rfl, hv, ?_⟩
        rcases hu with hu | ⟨u, hu, hM⟩
        · exact ⟨w, List.mem_cons_self, hu⟩
        · exact ⟨u, List.mem_cons_of_mem _ hu, hM⟩
    · rintro ⟨pre, v, post, he, hv, u, hu, hM⟩
      cases pre with
      | nil =>
        cases he
        rw [if_pos rfl, List.mem_singleton] at hu
        subst hu
        exact .inl (by omega)
      | cons p pre =>
        cases he
        rw [if_neg (List.cons_ne_nil _ _)] at hu
        refine .inr ⟨pre, v, post, rfl, hv, ?_⟩
        rcases List.mem_cons.1 hu with rfl | hu
        · exact .inl hM
        · exact .inr ⟨u, hu, hM⟩

/-! ## Writing -/

/-- The description of a module after some writes. -/
def describe (ws : List ModWrite) : Option Summary :=
  if ws = [] then none else some ⟨BitVec.ofNat 64 ws.length, lowest ws, reach ws % 2 ^ 64⟩

/-- What a module is after some writes. -/
structure Module.Holds (X : Xml) (m : Module) (ws : List ModWrite) : Prop where
  data : m.data = blob X ws
  length_le : m.data.length ≤ maxSize
  description : m.description = describe ws

theorem add64_last (w : ModWrite) : add64 w.start (w.data.length - 1) = w.last :=
  add64_of_lt w.last_lt

/-- The first write. -/
theorem Summary.write_of_zero {s : Summary} (h : s.writesCount = 0) (w : ModWrite) :
    s.write w.start w.data.length = .ok ⟨1, w.start, w.data.length⟩ := by
  unfold Summary.write
  simp [h]

/-- A write after the first one, the size so far being `r` and in the range of addresses. -/
theorem Summary.write_tracks {s : Summary} (h : s.writesCount ≠ 0) {r : Nat} (hr : 0 < r)
    (hle : s.lowestAddress + r ≤ 2 ^ 64) (hs : s.sizeInBytes = r % 2 ^ 64) (w : ModWrite) :
    s.write w.start w.data.length = .ok ⟨s.writesCount + 1, min s.lowestAddress w.start,
      max r (w.last + 1 - s.lowestAddress) % 2 ^ 64⟩ := by
  have hl := w.start_le_last
  have hlast := w.last_lt
  have hsub : sub64 s.sizeInBytes 1 = r - 1 := by
    rw [hs]
    unfold sub64
    omega
  have hcur : add64 s.lowestAddress (sub64 s.sizeInBytes 1) = s.lowestAddress + r - 1 := by
    rw [hsub, add64_of_lt (by omega)]
    omega
  have hlow : (if w.start < s.lowestAddress ∨ s.writesCount = 0 then w.start
      else s.lowestAddress) = min s.lowestAddress w.start := by
    split_ifs with hc
    · rcases hc with hc | hc
      · omega
      · exact absurd hc h
    · omega
  have hsize : (if s.lowestAddress + r - 1 < w.last
      then add64 s.sizeInBytes (w.last - (s.lowestAddress + r - 1)) else s.sizeInBytes) =
        max r (w.last + 1 - s.lowestAddress) % 2 ^ 64 := by
    rw [hs]
    unfold add64
    split_ifs with hc
    · rw [Nat.mod_add_mod, show r + (w.last - (s.lowestAddress + r - 1)) =
        max r (w.last + 1 - s.lowestAddress) by omega]
    · rw [Nat.max_eq_left (by omega)]
  unfold Summary.write
  simp only [add64_last, if_neg h, if_neg (Nat.not_lt.2 hl), hcur, hlow, hsize]

theorem blob_append_singleton (X : Xml) (ws : List ModWrite) (w : ModWrite) :
    blob X (ws ++ [w]) = blob X ws ++ produce X w.start w.data := by
  simp [blob]

theorem length_le_blob (X : Xml) (ws : List ModWrite) : ws.length ≤ (blob X ws).length := by
  induction ws with
  | nil => exact Nat.le_refl 0
  | cons w ws ih =>
    have : blob X (w :: ws) = produce X w.start w.data ++ blob X ws := List.flatMap_cons
    rw [this, List.length_append, produce, List.length_append, List.length_cons, List.length_cons]
    omega

theorem ofNat_ne_zero {n : Nat} (h0 : 0 < n) (h : n < 2 ^ 64) : BitVec.ofNat 64 n ≠ 0 := by
  intro e
  have := congrArg BitVec.toNat e
  rw [BitVec.toNat_ofNat, Nat.mod_eq_of_lt h] at this
  simp at this
  omega

section

variable {X : Xml} {m m' : Module} {ws : List ModWrite} {w : ModWrite}

theorem Module.Holds.length_lt (h : m.Holds X ws) : ws.length < 2 ^ 63 := by
  have h1 := length_le_blob X ws
  have h2 := h.length_le
  rw [h.data] at h2
  have : maxSize < 2 ^ 63 := by decide
  omega

theorem Module.Holds.summary (h : m.Holds X ws) (hne : ws ≠ []) :
    m.summary = ⟨BitVec.ofNat 64 ws.length, lowest ws, reach ws % 2 ^ 64⟩ := by
  unfold Module.summary
  rw [h.description, describe, if_neg hne]
  rfl

/-- The summary after one more write. -/
theorem Module.Holds.write_summary (h : m.Holds X ws) (w : ModWrite) :
    m.summary.write w.start w.data.length =
      .ok ⟨BitVec.ofNat 64 (ws ++ [w]).length, lowest (ws ++ [w]), reach (ws ++ [w]) % 2 ^ 64⟩ := by
  by_cases hne : ws = []
  · subst hne
    have h0 : m.summary.writesCount = 0 := by
      unfold Module.summary
      rw [h.description]
      rfl
    rw [Summary.write_of_zero h0]
    congr 2
    exact (Nat.mod_eq_of_lt (w.length_lt.trans (by decide))).symm
  · have hs := h.summary hne
    have hlt := h.length_lt
    obtain ⟨hpos, hle⟩ := reach_bounds hne
    have h0 : m.summary.writesCount ≠ 0 := by
      rw [hs]
      exact ofNat_ne_zero (List.length_pos_iff.2 hne) (by omega)
    have hw := Summary.write_tracks h0 hpos (by rw [hs]; exact hle) (by rw [hs]) w
    rw [hw, hs]
    simp only
    rw [← lowest_append_singleton hne, ← reach_append_singleton hne, List.length_append,
      BitVec.ofNat_add]
    rfl

/-- One write to a module. -/
theorem Module.Holds.write (h : m.Holds X ws) (hw : m.write X w.start w.data = .ok m') :
    m'.disabled = m.disabled ∧ m'.Holds X (ws ++ [w]) := by
  unfold Module.write at hw
  rw [if_neg w.ne, h.write_summary w] at hw
  simp only at hw
  split_ifs at hw with hlen
  cases hw
  refine ⟨rfl, ?_, Nat.not_lt.1 hlen, ?_⟩
  · rw [blob_append_singleton, ← h.data]
  · rw [describe, if_neg (by simp)]

end

/-- What the modules of a machine are after some writes to each of them. -/
def Vm.Holds (X : Xml) (vm : Vm) (ws : Nat → List ModWrite) : Prop :=
  ∀ id m, vm.find id = some m → m.Holds X (ws id)

/-- A machine whose modules are as `vm_mod_new` makes them. -/
def Vm.Fresh (vm : Vm) : Prop :=
  ∀ id m, vm.find id = some m → m.description = none ∧ m.data = []

theorem Vm.Fresh.holds {X : Xml} {vm : Vm} (h : vm.Fresh) : vm.Holds X fun _ => [] := by
  intro id m hm
  obtain ⟨hs, hd⟩ := h id m hm
  refine ⟨hd, ?_, hs⟩
  rw [hd]
  exact Nat.zero_le _

theorem writesTo_cons_self (id : Nat) (w : ModWrite) (cs : List (Nat × ModWrite)) :
    writesTo id ((id, w) :: cs) = w :: writesTo id cs := by
  simp [writesTo]

theorem writesTo_cons_of_ne {id id' : Nat} (h : id' ≠ id) (w : ModWrite)
    (cs : List (Nat × ModWrite)) : writesTo id ((id', w) :: cs) = writesTo id cs := by
  simp [writesTo, h]

/-- A call that succeeds has set a module. -/
theorem vmModWrite_ok {X : Xml} {vm vm' : Vm} {id start : Nat} {buffer : List Byte}
    (h : vmModWrite X vm id start buffer = .ok vm') :
    ∃ m m', vm.find id = some m ∧ m.write X start buffer = .ok m' ∧ vm' = vm.set id m' := by
  unfold vmModWrite at h
  cases hm : vm.find id with
  | none =>
    rw [hm] at h
    cases h
  | some m =>
    simp only [hm] at h
    cases hw : m.write X start buffer with
    | error e =>
      rw [hw] at h
      cases h
    | ok m' =>
      rw [hw] at h
      cases h
      exact ⟨m, m', rfl, hw, rfl⟩

/-- After a sequence of writes every module has its own writes. -/
theorem writeAll_holds {X : Xml} {vm vm' : Vm} {ws : Nat → List ModWrite} (h : vm.Holds X ws)
    {cs : List (Nat × ModWrite)} (hrun : writeAll X vm cs = .ok vm') :
    vm'.Holds X (fun id => ws id ++ writesTo id cs) ∧
      ∀ id, (vm'.find id).map (·.disabled) = (vm.find id).map (·.disabled) := by
  induction cs generalizing vm ws with
  | nil =>
    cases hrun
    refine ⟨?_, fun _ => rfl⟩
    intro id m hm
    beta_reduce
    rw [show ws id ++ writesTo id [] = ws id from List.append_nil _]
    exact h id m hm
  | cons c cs ih =>
    obtain ⟨id, w⟩ := c
    rw [writeAll] at hrun
    cases hset : vmModWrite X vm id w.start w.data with
    | error e =>
      rw [hset] at hrun
      cases hrun
    | ok vm₁ =>
      rw [hset] at hrun
      obtain ⟨m, m', hm, hw, rfl⟩ := vmModWrite_ok hset
      obtain ⟨hdis, hm'⟩ := (h id m hm).write hw
      have hvm : Vm.Holds X (vm.set id m') fun j => if j = id then ws id ++ [w] else ws j := by
        intro j n hn
        beta_reduce
        by_cases hj : j = id
        · subst hj
          rw [OrdMap.find_set_self] at hn
          cases hn
          rw [if_pos rfl]
          exact hm'
        · rw [OrdMap.find_set_of_ne _ hj] at hn
          rw [if_neg hj]
          exact h j n hn
      obtain ⟨hholds, hd⟩ := ih hvm hrun
      refine ⟨?_, fun j => (hd j).trans ?_⟩
      · intro j n hn
        have := hholds j n hn
        beta_reduce at this ⊢
        by_cases hj : j = id
        · subst hj
          rw [if_pos rfl] at this
          rw [writesTo_cons_self]
          simpa using this
        · rw [if_neg hj] at this
          rw [writesTo_cons_of_ne (Ne.symm hj)]
          exact this
      · by_cases hj : j = id
        · subst hj
          rw [OrdMap.find_set_self, hm, Option.map_some, Option.map_some, hdis]
        · rw [OrdMap.find_set_of_ne _ hj]

/-! ## Rebuilding -/

theorem Scan.item_reads {p : Parser} {w : ModWrite} (h : p.Reads w) (a : Scan) :
    a.item p = .ok ⟨min a.start w.start, max a.last w.last, a.count + 1⟩ := by
  obtain ⟨n, hn⟩ : ∃ n, w.data.length = n + 1 := ⟨w.data.length - 1, by have := w.length_pos; omega⟩
  have hsize := h.size
  have hlast : add64 w.start n = w.last := by
    rw [← add64_last, hn]
    rfl
  rw [hn] at hsize
  unfold Scan.item
  rw [h.address, hsize]
  simp only [hlast]
  congr 2
  · split_ifs <;> omega
  · split_ifs <;> omega

theorem Scan.items_reads {ps : List Parser} {ws : List ModWrite}
    (h : List.Forall₂ Parser.Reads ps ws) (a : Scan) :
    ps.foldlM Scan.item a = .ok
      ⟨lowestFrom a.start ws, highestFrom a.last ws, a.count + BitVec.ofNat 32 ws.length⟩ := by
  induction h generalizing a with
  | nil => simp [lowestFrom, highestFrom, pure, Except.pure]
  | @cons p w ps ws hp _ ih =>
    rw [List.foldlM_cons, Scan.item_reads hp]
    refine (ih _).trans ?_
    rw [List.length_cons, Nat.add_comm ws.length, BitVec.ofNat_add, ← BitVec.add_assoc]
    rfl

/-- What the rebuild makes of the writes of a module. -/
theorem Module.Holds.rebuild {X : Xml} {m : Module} {ws : List ModWrite} (h : m.Holds X ws) :
    m.rebuild X = (Scan.summary ⟨lowestFrom (2 ^ 64 - 1) ws, highestFrom 0 ws,
      BitVec.ofNat 32 ws.length⟩).map fun summary => { m with description := some summary } := by
  have hitems := (queryItems_blob (X := X) ws (p := .new) rfl (Nat.le_refl _)).1
  unfold Module.rebuild
  rw [h.data, Scan.items_reads hitems]
  have hz : (0 : BitVec 32) + BitVec.ofNat 32 ws.length = BitVec.ofNat 32 ws.length :=
    BitVec.zero_add _
  simp only [Scan.initial, hz]

theorem lowestFrom_max {ws : List ModWrite} (h : ws ≠ []) :
    lowestFrom (2 ^ 64 - 1) ws = lowest ws := by
  cases ws with
  | nil => exact absurd rfl h
  | cons w ws =>
    have := w.start_lt
    rw [lowestFrom, lowest, Nat.min_eq_right (by omega)]

theorem highestFrom_zero (ws : List ModWrite) : highestFrom 0 ws = highest ws := by
  cases ws with
  | nil => rfl
  | cons w ws => rw [highestFrom, highest, Nat.zero_max]

theorem lowest_le_highest (ws : List ModWrite) : lowest ws ≤ highest ws := by
  cases ws with
  | nil => exact Nat.le_refl 0
  | cons w ws =>
    exact (lowest_le List.mem_cons_self).trans
      (w.start_le_last.trans (le_highest List.mem_cons_self))

theorem toNat_ofNat_of_lt {n : Nat} (h : n < 2 ^ 31) : (BitVec.ofNat 32 n).toNat = n := by
  rw [BitVec.toNat_ofNat, Nat.mod_eq_of_lt (by omega)]

theorem toInt_ofNat_of_lt {n : Nat} (h : n < 2 ^ 31) : (BitVec.ofNat 32 n).toInt = n := by
  rw [BitVec.toInt_eq_toNat_of_lt (by rw [toNat_ofNat_of_lt h]; omega), toNat_ofNat_of_lt h]

theorem signExtend_ofNat {n : Nat} (h : n < 2 ^ 31) :
    (BitVec.ofNat 32 n).signExtend 64 = BitVec.ofNat 64 n := by
  refine BitVec.eq_of_toInt_eq ?_
  rw [BitVec.toInt_signExtend_of_le (by decide), toInt_ofNat_of_lt h]
  rw [BitVec.toInt_eq_toNat_of_lt (by rw [BitVec.toNat_ofNat]; omega), BitVec.toNat_ofNat]
  omega

/-- The count that a rebuild records is an `int`. -/
theorem Scan.count_lt {a : Scan} {s : Summary} (h : a.summary = .ok s) :
    s.writesCount.toInt < 2 ^ 31 := by
  unfold Scan.summary at h
  split_ifs at h
  · cases h
    decide
  · cases h
    rw [BitVec.toInt_signExtend_of_le (by decide)]
    exact BitVec.toInt_lt

/-! ## Agreement -/

/-- The recorded summary of a module is that of its writes, and a rebuild succeeds and keeps it. -/
def MetadataAgrees (X : Xml) (vm : Vm) (id : Nat) (ws : List ModWrite) : Prop :=
  ∃ m, vm.find id = some m ∧ m.summary.writesCount.toInt = ws.length ∧
    m.summary.lowestAddress = lowest ws ∧ m.summary.sizeInBytes = span ws ∧
    ∃ vm' m', vmModRebuildMetadata X vm id = .ok vm' ∧ vm'.find id = some m' ∧
      m'.summary = m.summary

/-- The writes whose summary is kept: none, or not too many and not too far apart, over more than
one address, with the highest address written to after the lowest. -/
def MetadataKept (ws : List ModWrite) : Prop :=
  ws = [] ∨ ws.length < 2 ^ 31 ∧ 1 < span ws ∧ span ws < 2 ^ 64 ∧ TopAfterBottom ws

theorem vmModRebuildMetadata_of_find {X : Xml} {vm : Vm} {id : Nat} {m : Module}
    (h : vm.find id = some m) :
    vmModRebuildMetadata X vm id = (m.rebuild X).map fun m => vm.set id m := by
  unfold vmModRebuildMetadata
  rw [h]

theorem metadataAgrees_of_holds {X : Xml} {vm : Vm} {id : Nat} {m : Module} {ws : List ModWrite}
    (hm : vm.find id = some m) (h : m.Holds X ws) :
    MetadataAgrees X vm id ws ↔ m.summary.writesCount.toInt = ws.length ∧
      m.summary.lowestAddress = lowest ws ∧ m.summary.sizeInBytes = span ws ∧
      Scan.summary ⟨lowestFrom (2 ^ 64 - 1) ws, highestFrom 0 ws, BitVec.ofNat 32 ws.length⟩ =
        .ok m.summary := by
  unfold MetadataAgrees
  rw [vmModRebuildMetadata_of_find hm, h.rebuild]
  constructor
  · rintro ⟨n, hn, hc, hl, hs, vm', m', hr, hm', he⟩
    cases hm.symm.trans hn
    refine ⟨hc, hl, hs, ?_⟩
    cases hscan : Scan.summary ⟨lowestFrom (2 ^ 64 - 1) ws, highestFrom 0 ws,
        BitVec.ofNat 32 ws.length⟩ with
    | error e =>
      rw [hscan] at hr
      cases hr
    | ok s =>
      rw [hscan] at hr
      cases hr
      rw [OrdMap.find_set_self] at hm'
      cases hm'
      exact congrArg _ he
  · rintro ⟨hc, hl, hs, hscan⟩
    rw [hscan]
    exact ⟨m, hm, hc, hl, hs, _, _, rfl, OrdMap.find_set_self _ _ _, rfl⟩

theorem ofNat_count_ne_zero {n : Nat} (h0 : 0 < n) (h : n < 2 ^ 31) : BitVec.ofNat 32 n ≠ 0 := by
  intro e
  have := toNat_ofNat_of_lt h
  rw [e] at this
  simp at this
  omega

/-- When the recorded and the rebuilt summary are that of the writes. -/
theorem Module.Holds.agrees_iff {X : Xml} {vm : Vm} {id : Nat} {m : Module} {ws : List ModWrite}
    (hm : vm.find id = some m) (h : m.Holds X ws) :
    MetadataAgrees X vm id ws ↔ MetadataKept ws := by
  rw [metadataAgrees_of_holds hm h]
  by_cases hnil : ws = []
  · subst hnil
    have hs : m.summary = .zero := by
      unfold Module.summary
      rw [h.description]
      rfl
    rw [hs]
    exact iff_of_true ⟨rfl, rfl, rfl, rfl⟩ (.inl rfl)
  have hpos := List.length_pos_iff.2 hnil
  have hlh := lowest_le_highest ws
  have hhl := @highest_lt ws
  have hspan := span_of_ne_nil hnil
  have hb := reach_bounds hnil
  rw [lowestFrom_max hnil, highestFrom_zero, h.summary hnil]
  simp only
  constructor
  · rintro ⟨hc, -, hs, hscan⟩
    have hlt : ws.length < 2 ^ 31 := by
      have := Scan.count_lt hscan
      simp only at this
      omega
    unfold Scan.summary at hscan
    rw [if_neg (ofNat_count_ne_zero hpos hlt)] at hscan
    split_ifs at hscan with hle
    simp only at hle
    exact .inr ⟨hlt, by omega, by omega, (reach_eq_span_iff hnil).1 (by omega)⟩
  · rintro (hc | ⟨hlt, h1, h2, htop⟩)
    · exact absurd hc hnil
    have hreach := (reach_eq_span_iff hnil).2 htop
    have hadd : add64 (highest ws - lowest ws) 1 = span ws := by
      rw [add64_of_lt (by omega)]
      omega
    rw [hreach, Nat.mod_eq_of_lt h2]
    refine ⟨?_, trivial, rfl, ?_⟩
    · rw [← signExtend_ofNat hlt, BitVec.toInt_signExtend_of_le (by decide),
        toInt_ofNat_of_lt hlt]
    · unfold Scan.summary
      rw [if_neg (ofNat_count_ne_zero hpos hlt), if_neg (by simp only; omega)]
      simp only [signExtend_ofNat hlt, hadd]

/-- **The metadata of a module**: after any sequence of writes the recorded summary of a module is
that of its writes, and a rebuild succeeds and keeps it, exactly when `MetadataKept` holds. -/
theorem metadataAgrees_iff (X : Xml) {vm vm' : Vm} (hvm : vm.Fresh) {cs : List (Nat × ModWrite)}
    (hrun : writeAll X vm cs = .ok vm') {id : Nat} (hid : (vm.find id).isSome) :
    MetadataAgrees X vm' id (writesTo id cs) ↔ MetadataKept (writesTo id cs) := by
  obtain ⟨hholds, hd⟩ := writeAll_holds hvm.holds hrun
  obtain ⟨m, hm⟩ : ∃ m, vm'.find id = some m := by
    have := congrArg Option.isSome (hd id)
    rw [Option.isSome_map, Option.isSome_map, hid] at this
    exact Option.isSome_iff_exists.1 this
  exact Module.Holds.agrees_iff hm (hholds id m hm)

/-- A machine with one new module. -/
def oneModule : Vm := OrdMap.empty.set 1 ⟨false, none, []⟩

theorem oneModule_fresh : oneModule.Fresh := by
  intro id m hm
  by_cases hid : id = 1
  · subst hid
    cases hm
    exact ⟨rfl, rfl⟩
  · rw [oneModule, OrdMap.find_set_of_ne _ hid] at hm
    cases hm

/-- Two bytes at `0x1000`. -/
def writeLow : ModWrite := ⟨0x1000, [1, 2], by decide, by decide, by decide⟩

/-- Two bytes at `0x2000`. -/
def writeHigh : ModWrite := ⟨0x2000, [3, 4], by decide, by decide, by decide⟩

theorem exists_of_toOption {α : Type} {r : Except Failure α} (h : r.toOption.isSome) :
    ∃ a, r = .ok a := by
  cases r with
  | error e => cases h
  | ok a => exact ⟨a, rfl⟩

theorem metadataAgrees_upward : ∃ vm', writeAll rootXml oneModule [(1, writeLow), (1, writeHigh)] =
    .ok vm' ∧ MetadataAgrees rootXml vm' 1 [writeLow, writeHigh] := by
  obtain ⟨vm', hrun⟩ := exists_of_toOption
    (r := writeAll rootXml oneModule [(1, writeLow), (1, writeHigh)]) (by decide +kernel)
  refine ⟨vm', hrun, (metadataAgrees_iff rootXml oneModule_fresh hrun
    (show (oneModule.find 1).isSome from rfl)).2 (.inr ⟨by decide, by decide, by decide, ?_⟩)⟩
  exact ⟨[writeLow], writeHigh, [], rfl, rfl, writeLow, List.mem_cons_self, rfl⟩

/-- A write below the first one: the size stays that of the first write. -/
theorem metadata_downward : ∃ vm', writeAll rootXml oneModule [(1, writeHigh), (1, writeLow)] =
    .ok vm' ∧ ¬ MetadataAgrees rootXml vm' 1 [writeHigh, writeLow] := by
  obtain ⟨vm', hrun⟩ := exists_of_toOption
    (r := writeAll rootXml oneModule [(1, writeHigh), (1, writeLow)]) (by decide +kernel)
  obtain ⟨hholds, hd⟩ := writeAll_holds oneModule_fresh.holds hrun
  have hsome := congrArg Option.isSome (hd 1)
  rw [Option.isSome_map, Option.isSome_map] at hsome
  obtain ⟨m, hm⟩ := Option.isSome_iff_exists.1 hsome
  refine ⟨vm', hrun, ?_⟩
  have hm' : m.Holds rootXml [writeHigh, writeLow] := hholds 1 m hm
  rw [hm'.agrees_iff hm]
  rintro (h | ⟨-, -, -, h⟩)
  · cases h
  · exact absurd ((reach_eq_span_iff (by decide)).2 h) (by decide)

end Diana.Orthia
