import Diana.Lib.Indices
import Diana.Pe.ExportReports

/-!
# Every exported function is reported

The functions that no name designates are searched for behind the names, as many as there are more
functions than names.

* `ExportContents.In`: the stream delivers a directory with these contents;
* `enumerates_iff`: when the enumeration reports every function once.
-/

namespace Diana.Pe

open Diana.Lib

/-! ## The functions -/

/-- The contents of an export directory: the ordinals of its names, and its functions. -/
structure ExportContents where
  ordinals : List (BitVec 16)
  functions : List (BitVec 32)
  functions_le : functions.length ≤ 2 ^ 16

namespace ExportContents

variable {T : ExportContents} {Q : ExportQuery} {O : ExportObserver} {d : ExportDirectory}
  {reports : List Report}

/-- The stream delivers them. -/
structure In (T : ExportContents) (Q : ExportQuery) (d : ExportDirectory) : Prop where
  captures : Q.Captures d
  numberOfNames : d.numberOfNames.toNat = T.ordinals.length
  numberOfFunctions : d.numberOfFunctions.toNat = T.functions.length
  name_read : ∀ i < T.ordinals.length, ∃ offset page, Q.nameOffsetAt d i = .ok offset ∧
    Q.read (offset.setWidth 64) ExportQuery.normalNameSize = .ok page ∧ page ≠ []
  ordinal_read : ∀ i o, T.ordinals[i]? = some o → Q.ordinalAt d i = .ok o
  ordinal_lt : ∀ o ∈ T.ordinals, o.toNat < T.functions.length
  ordinals_read : ∃ bytes, Q.read (d.addressOfNameOrdinals.setWidth 64) (2 * T.ordinals.length) =
    .ok bytes ∧ bytes.length = 2 * T.ordinals.length ∧ ∀ k o, T.ordinals[k]? = some o →
      BitVec.ofNat 16 (leNat [bytes.getD (2 * k) 0, bytes.getD (2 * k + 1) 0]) = o
  function_read : ∀ j v, T.functions[j]? = some v → Q.slotAt d (BitVec.ofNat 16 j) = .ok v

/-- A function with an address of its own. -/
def Present (T : ExportContents) (Q : ExportQuery) (j : Nat) (v : BitVec 32) : Prop :=
  T.functions[j]? = some v ∧ v ≠ 0 ∧ ¬ Q.Forwarded v

/-- A report of name `i`. -/
def isName (i : Nat) : Report → Bool
  | .name k .. => k = i
  | _ => false

/-- A report of function `j` by its ordinal. -/
def isOrdinal (j : Nat) : Report → Bool
  | .ordinal i _ => i.toNat = j
  | _ => false

/-- Every function with an address of its own is reported once for each name that designates it, or
once by its ordinal. -/
def EachOnce (T : ExportContents) (Q : ExportQuery) (reports : List Report) : Prop :=
  ∀ j v, T.Present Q j v →
    (∀ i, T.ordinals[i]? = some (BitVec.ofNat 16 j) → ∃ name,
      reports.filter (isName i) = [.name i name 0 v]) ∧ reports.filter (isOrdinal j) =
        if BitVec.ofNat 16 j ∈ T.ordinals then [] else [.ordinal (BitVec.ofNat 16 j) v]

/-- The functions with an address of their own that no name designates. -/
def unnamed (T : ExportContents) (Q : ExportQuery) : List Nat :=
  (List.range T.functions.length).filter fun j =>
    match T.functions[j]? with
    | some v => ¬ Q.Skipped T.ordinals (BitVec.ofNat 16 j) v
    | none => false

theorem In.captureOrdinals_eq (h : T.In Q d) (hfewer : d.numberOfNames < d.numberOfFunctions) :
    Q.captureOrdinals d = .ok T.ordinals := by
  obtain ⟨bytes, hread, hlength, hbytes⟩ := h.ordinals_read
  have hfewer' : d.numberOfNames.toNat < d.numberOfFunctions.toNat := hfewer
  have hle := T.functions_le
  have hnames := h.numberOfNames
  have hfunctions := h.numberOfFunctions
  have hsize : (d.numberOfNames * 2).toNat = 2 * T.ordinals.length := by
    rw [BitVec.toNat_mul, hnames]
    change T.ordinals.length * 2 % 2 ^ 32 = _
    omega
  unfold ExportQuery.captureOrdinals
  rw [hsize, hread]
  refine congrArg Except.ok (List.ext_getElem ?_ fun k hk hk' => ?_)
  · rw [List.length_map, List.length_range, hnames]
  · rw [List.getElem_map, List.getElem_range]
    dsimp only
    rw [if_pos (by omega), if_pos (by omega)]
    exact hbytes k _ (List.getElem?_eq_getElem hk')

theorem In.delivered_eq (h : T.In Q d) :
    Q.deliveredFrom d T.ordinals 0 T.functions.length = T.unnamed Q := by
  unfold ExportQuery.deliveredFrom unnamed
  rw [List.range_eq_range']
  refine List.filter_congr fun j hj => ?_
  rw [List.mem_range'_1, Nat.zero_add] at hj
  have hslot := List.getElem?_eq_getElem hj.2
  unfold ExportQuery.Delivers
  rw [h.function_read j _ hslot, hslot]

/-- What is read for a name. -/
theorem In.exportAt_eq (h : T.In Q d) {i : Nat} {o : BitVec 16} {v : BitVec 32}
    (ho : T.ordinals[i]? = some o) (hv : T.functions[o.toNat]? = some v) :
    ∃ name, Q.exportAt d i = .ok (some (Q.namedExport name (ExportQuery.functionPtr d o) v)) := by
  obtain ⟨offset, page, hoffset, hpage, hne⟩ := h.name_read i (List.getElem?_eq_some_iff.1 ho).1
  have hslot : Q.slotAt d o = .ok v := by
    have := h.function_read _ _ hv
    rwa [BitVec.ofNat_toNat, BitVec.setWidth_eq] at this
  obtain ⟨name, hname⟩ : ∃ name, Q.captureName offset 2 [] = .ok (some name) := by
    rw [ExportQuery.captureName_eq hpage, if_neg hne]
    split
    · exact ⟨_, rfl⟩
    · exact ⟨_, rfl⟩
  refine ⟨name, ?_⟩
  unfold ExportQuery.exportAt
  refine bind_eq_ok.2 ⟨offset, hoffset, bind_eq_ok.2 ⟨some name, hname, ?_⟩⟩
  exact bind_eq_ok.2 ⟨o, h.ordinal_read i o ho, bind_eq_ok.2 ⟨v, hslot, rfl⟩⟩

/-! ### What is reported of a function -/

theorem filter_calls {p : Report → Bool} (hp : ∀ functionPtr, p (.info functionPtr) = false)
    (functionPtr : Value) (r : Report) :
    (O.calls functionPtr r).filter p = if p r then [r] else [] := by
  unfold ExportObserver.calls
  split <;> simp [hp, List.filter_cons]

/-- The reports of function `j` by its ordinal. -/
theorem filter_ordinalCalls (h : T.In Q d) {l : List Nat} (hl : l.Nodup) (hlt : ∀ i ∈ l, i < 2 ^ 16)
    {j : Nat} {v : BitVec 32} (hv : T.functions[j]? = some v) :
    (l.flatMap (Q.ordinalCalls O d)).filter (isOrdinal j) =
      if j ∈ l then [.ordinal (BitVec.ofNat 16 j) v] else [] := by
  have hslot := h.function_read j v hv
  have hj : j < 2 ^ 16 := Nat.lt_of_lt_of_le (List.getElem?_eq_some_iff.1 hv).1 T.functions_le
  rw [List.filter_flatMap, flatMap_of_unique (a := j) hl]
  · refine if_congr Iff.rfl ?_ rfl
    unfold ExportQuery.ordinalCalls
    rw [hslot]
    dsimp only
    rw [filter_calls fun _ => rfl, if_pos]
    unfold isOrdinal
    rw [decide_eq_true_iff, BitVec.toNat_ofNat, Nat.mod_eq_of_lt hj]
  · intro i hi hne
    unfold ExportQuery.ordinalCalls
    split
    · rw [filter_calls fun _ => rfl, if_neg]
      unfold isOrdinal
      rw [decide_eq_true_iff, BitVec.toNat_ofNat, Nat.mod_eq_of_lt (hlt i hi)]
      exact hne
    · rfl

/-- The report of name `i`. -/
theorem filter_nameCalls (h : T.In Q d) {i n : Nat} {o : BitVec 16} {v : BitVec 32} (hi : i < n)
    (ho : T.ordinals[i]? = some o) (hv : T.functions[o.toNat]? = some v)
    (hforward : ¬ Q.Forwarded v) :
    ∃ name, ((List.range n).flatMap (Q.nameCalls O d)).filter (isName i) = [.name i name 0 v] := by
  obtain ⟨name, hexport⟩ := h.exportAt_eq ho hv
  refine ⟨name, ?_⟩
  rw [List.filter_flatMap, flatMap_of_unique (a := i) List.nodup_range,
    if_pos (List.mem_range.2 hi)]
  · unfold ExportQuery.nameCalls ExportQuery.namedExport at *
    rw [hexport, if_neg hforward]
    dsimp only
    rw [filter_calls fun _ => rfl]
    exact if_pos (decide_eq_true rfl)
  · intro k _ hne
    unfold ExportQuery.nameCalls
    split
    · rw [filter_calls fun _ => rfl, if_neg]
      unfold isName
      rw [decide_eq_true_iff]
      exact hne
    · rfl

theorem filter_eq_nil {p : Report → Bool} {l : List Report} (h : ∀ r ∈ l, p r = false) :
    l.filter p = [] := by
  rw [List.filter_eq_nil_iff]
  intro r hr
  rw [h r hr]
  decide

/-- No function is reported by its ordinal among the names, and no name among the functions. -/
theorem isOrdinal_nameCalls (i j : Nat) : ∀ r ∈ Q.nameCalls O d i, isOrdinal j r = false := by
  intro r hr
  unfold ExportQuery.nameCalls ExportObserver.calls at hr
  split at hr
  · split at hr <;> simp at hr
    · rcases hr with rfl | rfl <;> rfl
    · subst hr; rfl
  · cases hr

theorem isName_ordinalCalls (i j : Nat) : ∀ r ∈ Q.ordinalCalls O d j, isName i r = false := by
  intro r hr
  unfold ExportQuery.ordinalCalls ExportObserver.calls at hr
  split at hr
  · split at hr <;> simp at hr
    · rcases hr with rfl | rfl <;> rfl
    · subst hr; rfl
  · cases hr

theorem mem_unnamed {j : Nat} :
    j ∈ T.unnamed Q ↔ ∃ v, T.Present Q j v ∧ BitVec.ofNat 16 j ∉ T.ordinals := by
  unfold unnamed Present ExportQuery.Skipped
  rw [List.mem_filter, List.mem_range]
  constructor
  · rintro ⟨hj, hv⟩
    rw [List.getElem?_eq_getElem hj] at hv ⊢
    simp only [decide_eq_true_eq, not_or] at hv
    exact ⟨_, ⟨rfl, hv.1, hv.2.1⟩, hv.2.2⟩
  · rintro ⟨v, ⟨hv, hne, hforward⟩, hnot⟩
    refine ⟨(List.getElem?_eq_some_iff.1 hv).1, ?_⟩
    rw [hv]
    simp only [decide_eq_true_eq, not_or]
    exact ⟨hne, hforward, hnot⟩

/-- The functions in `l` are reported behind the names: this is all where no other was to be. -/
theorem eachOnce_iff_mem (O : ExportObserver) (h : T.In Q d) {l : List Nat} (hl : l.Nodup)
    (hsub : ∀ j ∈ l, j ∈ T.unnamed Q) :
    T.EachOnce Q ((List.range d.numberOfNames.toNat).flatMap (Q.nameCalls O d) ++ l.flatMap
      (Q.ordinalCalls O d)) ↔ ∀ j ∈ T.unnamed Q, j ∈ l := by
  have hlt {j : Nat} {v : BitVec 32} (hv : T.functions[j]? = some v) : j < 2 ^ 16 :=
    Nat.lt_of_lt_of_le (List.getElem?_eq_some_iff.1 hv).1 T.functions_le
  have hordinals {j : Nat} {v : BitVec 32} (hv : T.functions[j]? = some v) :
      ((List.range d.numberOfNames.toNat).flatMap (Q.nameCalls O d) ++ l.flatMap
        (Q.ordinalCalls O d)).filter (isOrdinal j) =
        if j ∈ l then [.ordinal (BitVec.ofNat 16 j) v] else [] := by
    rw [List.filter_append, filter_ordinalCalls h hl (fun i hi => ?_) hv,
      filter_eq_nil fun r hr => ?_, List.nil_append]
    · obtain ⟨i, -, hr⟩ := List.mem_flatMap.1 hr
      exact isOrdinal_nameCalls i j r hr
    · obtain ⟨v, hv, -⟩ := mem_unnamed.1 (hsub i hi)
      exact hlt hv.1
  constructor
  · intro heach j hj
    obtain ⟨v, hv, hnot⟩ := mem_unnamed.1 hj
    have := (heach j v hv).2
    rw [hordinals hv.1, if_neg hnot] at this
    by_contra hnotMem
    rw [if_neg hnotMem] at this
    cases this
  · intro hall j v hv
    constructor
    · intro i hi
      have htoNat : (BitVec.ofNat 16 j).toNat = j := by
        rw [BitVec.toNat_ofNat, Nat.mod_eq_of_lt (hlt hv.1)]
      have hi' : i < d.numberOfNames.toNat := h.numberOfNames ▸ (List.getElem?_eq_some_iff.1 hi).1
      obtain ⟨name, hname⟩ := filter_nameCalls (O := O) h hi' hi (htoNat.symm ▸ hv.1) hv.2.2
      refine ⟨name, ?_⟩
      rw [List.filter_append, hname, filter_eq_nil fun r hr => ?_, List.append_nil]
      obtain ⟨k, -, hr⟩ := List.mem_flatMap.1 hr
      exact isName_ordinalCalls i k r hr
    · rw [hordinals hv.1]
      by_cases hnamed : BitVec.ofNat 16 j ∈ T.ordinals
      · rw [if_pos hnamed, if_neg]
        intro hj
        obtain ⟨_, -, hnot⟩ := mem_unnamed.1 (hsub j hj)
        exact hnot hnamed
      · rw [if_neg hnamed, if_pos (hall j (mem_unnamed.2 ⟨v, hv, hnamed⟩))]

/-! ### The runs -/

theorem In.slots (h : T.In Q d) {j : Nat} (hj : j < T.functions.length) :
    ∃ v, Q.slotAt d (BitVec.ofNat 16 j) = .ok v :=
  ⟨_, h.function_read j _ (List.getElem?_eq_getElem hj)⟩

theorem In.names (h : T.In Q d) : ∀ i < d.numberOfNames.toNat, ∃ e, Q.exportAt d i = .ok e := by
  intro i hi
  rw [h.numberOfNames] at hi
  have ho := List.getElem?_eq_getElem hi
  have hv := List.getElem?_eq_getElem (h.ordinal_lt _ (List.getElem_mem hi))
  obtain ⟨name, hexport⟩ := h.exportAt_eq ho hv
  exact ⟨_, hexport⟩

theorem In.reaches (h : T.In Q d) (hfewer : d.numberOfNames < d.numberOfFunctions) :
    Q.ReachesOrdinals d T.ordinals :=
  ⟨h.captures, h.names, hfewer, h.captureOrdinals_eq hfewer⟩

/-- `k` turns from the first function on. -/
theorem In.turns (h : T.In Q d) (hO : O.Obliging) {k m fuel : Nat} (hk : k ≤ T.functions.length)
    (hm : 0 < m) (hm32 : m < 2 ^ 32) :
    Q.queryOrdinals O d T.ordinals (fuel + k) 0 (BitVec.ofNat 32 m) reports =
      if m ≤ (Q.deliveredFrom d T.ordinals 0 k).length then
        .ok () (reports ++ ((Q.deliveredFrom d T.ordinals 0 k).take m).flatMap (Q.ordinalCalls O d))
      else
        Q.queryOrdinals O d T.ordinals fuel (BitVec.ofNat 16 k)
          (BitVec.ofNat 32 (m - (Q.deliveredFrom d T.ordinals 0 k).length))
          (reports ++ (Q.deliveredFrom d T.ordinals 0 k).flatMap (Q.ordinalCalls O d)) := by
  have hle := T.functions_le
  have hnumber := h.numberOfFunctions
  have hrun := ExportQuery.queryOrdinals_run T.ordinals reports fuel (i := 0) (k := k) (Q := Q)
      (d := d) hO (by omega) (fun j _ hj => h.slots (by omega)) hm hm32
  rwa [Nat.zero_add] at hrun

/-- Fuel for some of the turns, or for all of them and more. -/
theorem exists_turns (fuel n : Nat) : ∃ k fuel', k ≤ n ∧ fuel = fuel' + k ∧ (fuel' = 0 ∨ k = n) :=
  ⟨min fuel n, fuel - min fuel n, by omega, by omega, by omega⟩

theorem In.delivered_append (h : T.In Q d) {k : Nat} (hk : k ≤ T.functions.length) :
    ∃ more, T.unnamed Q = Q.deliveredFrom d T.ordinals 0 k ++ more := by
  obtain ⟨n, hn⟩ := Nat.exists_eq_add_of_le hk
  exact ⟨_, by rw [← h.delivered_eq, hn, ExportQuery.deliveredFrom_add]⟩

/-- Nothing to deliver, from the first function on again and again. -/
theorem In.endless (h : T.In Q d) (hO : O.Obliging) (hfunctions : T.functions.length = 2 ^ 16)
    (hnone : T.unnamed Q = []) (fuel : Nat) {m : Nat} (hm : 0 < m) (hm32 : m < 2 ^ 32)
    (reports : List Report) :
    ∃ reports', Q.queryOrdinals O d T.ordinals fuel 0
    (BitVec.ofNat 32 m) reports = .error .outOfFuel reports' := by
  induction fuel using Nat.strongRecOn generalizing reports with
  | ind fuel ih =>
    obtain ⟨k, fuel', hk, rfl, hend⟩ := exists_turns fuel T.functions.length
    obtain ⟨more, hmore⟩ := h.delivered_append hk
    have hnil : Q.deliveredFrom d T.ordinals 0 k = [] :=
      (List.append_eq_nil_iff.1 (hmore.symm.trans hnone)).1
    rw [h.turns hO hk hm hm32, hnil, if_neg (by rw [List.length_nil]; omega)]
    rcases hend with rfl | rfl
    · exact ⟨_, rfl⟩
    · rw [hfunctions]
      exact ih fuel' (by omega) _

/-- When the search starts again at the first function, the first that is delivered is delivered
again. -/
theorem In.again (h : T.In Q d) (hO : O.Obliging) {j : Nat} {rest : List Nat}
    (hunnamed : T.unnamed Q = j :: rest) {fuel m : Nat} (hm : 0 < m) (hm32 : m < 2 ^ 32)
    {reports' : List Report}
    (hrun : Q.queryOrdinals O d T.ordinals fuel 0 (BitVec.ofNat 32 m) reports = .ok () reports') :
    ∃ more, reports' = reports ++ (Q.ordinalCalls O d j ++ more) := by
  obtain ⟨k, fuel', hk, rfl, hend⟩ := exists_turns fuel T.functions.length
  obtain ⟨more, hmore⟩ := h.delivered_append hk
  rw [h.turns hO hk hm hm32] at hrun
  split at hrun
  · next hle =>
    cases hdelivered : Q.deliveredFrom d T.ordinals 0 k with
    | nil => rw [hdelivered, List.length_nil] at hle; omega
    | cons j' rest' =>
      rw [hdelivered] at hmore hrun
      obtain ⟨rfl, -⟩ := List.cons.inj (hunnamed.symm.trans hmore)
      obtain ⟨m, rfl⟩ : ∃ n, m = n + 1 := ⟨m - 1, by omega⟩
      rw [List.take_succ_cons, List.flatMap_cons] at hrun
      cases hrun
      exact ⟨_, rfl⟩
  · rcases hend with rfl | rfl
    · cases hrun
    · rw [h.delivered_eq, hunnamed, List.flatMap_cons] at hrun
      obtain ⟨new, rfl, -⟩ := (ExportQuery.keeps_queryOrdinals _ _ _).ok hrun
      exact ⟨rest.flatMap (Q.ordinalCalls O d) ++ new, by simp only [List.append_assoc]⟩

theorem nodup_unnamed : (T.unnamed Q).Nodup := List.nodup_range.filter _

/-- A function that is delivered twice. -/
theorem In.not_eachOnce (h : T.In Q d) {j : Nat} (hj : j ∈ T.unnamed Q)
    (reports more : List Report) :
    ¬ T.EachOnce Q
    (reports ++ (T.unnamed Q).flatMap (Q.ordinalCalls O d) ++ (Q.ordinalCalls O d j ++ more)) := by
  intro heach
  obtain ⟨v, hv, hnot⟩ := mem_unnamed.1 hj
  have hlt {i : Nat} (hi : i ∈ T.unnamed Q) : i < 2 ^ 16 := by
    obtain ⟨v, hv, -⟩ := mem_unnamed.1 hi
    exact Nat.lt_of_lt_of_le (List.getElem?_eq_some_iff.1 hv.1).1 T.functions_le
  have honce := filter_ordinalCalls (O := O) h nodup_unnamed (fun i hi => hlt hi) hv.1
  have hagain := filter_ordinalCalls (O := O) h (List.nodup_singleton j)
      (fun i hi => hlt (List.mem_singleton.1 hi ▸ hj)) hv.1
  rw [if_pos hj] at honce
  rw [List.flatMap_singleton, if_pos (List.mem_singleton.2 rfl)] at hagain
  have hlength := congrArg List.length (heach j v hv).2
  rw [if_neg hnot, List.filter_append, List.filter_append, List.filter_append, honce,
    hagain] at hlength
  simp only [List.length_append, List.length_cons, List.length_nil] at hlength
  omega

/-! ### Completeness -/

/-- The enumeration returns, and has reported every function once. -/
def Enumerates (T : ExportContents) (Q : ExportQuery) (O : ExportObserver) : Prop :=
  ∃ fuel reports, Q.queryExports O fuel [] = .ok () reports ∧ T.EachOnce Q reports

/-- There are no more functions to deliver by ordinal than there are more functions than names, and
just as many where the last counter is that of a function. -/
def CountsUnnamed (T : ExportContents) (Q : ExportQuery) : Prop :=
  (T.unnamed Q).length ≤ T.functions.length - T.ordinals.length ∧
    (T.functions.length = 2 ^ 16 → (T.unnamed Q).length = T.functions.length - T.ordinals.length)

theorem In.run_of_names (h : T.In Q d) (hO : O.Obliging)
    (hnames : T.functions.length ≤ T.ordinals.length) (fuel : Nat) :
    Q.queryExports O fuel [] = .ok ()
    ((List.range d.numberOfNames.toNat).flatMap (Q.nameCalls O d)) := by
  have hnot : ¬ d.numberOfNames < d.numberOfFunctions := by
    rw [BitVec.lt_def, h.numberOfNames, h.numberOfFunctions]
    omega
  rw [h.captures.queryExports_eq]
  refine (bind_of_ok (ExportQuery.queryNames_ok hO fun i hi =>
    h.names i (List.mem_range.1 hi))).trans ?_
  unfold ExportQuery.deliverOrdinals
  rw [if_neg hnot]
  rfl

theorem In.run_of_fewer (h : T.In Q d) (hO : O.Obliging)
    (hfewer : T.ordinals.length < T.functions.length) (fuel : Nat) :
    Q.queryExports O fuel [] =
      Q.queryOrdinals O d T.ordinals fuel 0
      (BitVec.ofNat 32 (T.functions.length - T.ordinals.length))
        ((List.range d.numberOfNames.toNat).flatMap (Q.nameCalls O d)) := by
  have hlt : d.numberOfNames < d.numberOfFunctions := by
    rw [BitVec.lt_def, h.numberOfNames, h.numberOfFunctions]
    exact hfewer
  rw [(h.reaches hlt).queryExports_eq hO, h.numberOfNames, h.numberOfFunctions]

theorem enumerates_of_counts (h : T.In Q d) (hO : O.Obliging) (hcounts : T.CountsUnnamed Q) :
    T.Enumerates Q O := by
  obtain ⟨hle, hwraps⟩ := hcounts
  have hfunctions := T.functions_le
  rcases Nat.lt_or_ge T.ordinals.length T.functions.length with hfewer | hnames
  · refine ⟨1 + T.functions.length, _, ?_,
      (eachOnce_iff_mem O h nodup_unnamed fun _ hj => hj).2 fun _ hj => hj⟩
    rw [h.run_of_fewer hO hfewer, h.turns hO (Nat.le_refl _) (by omega) (by omega), h.delivered_eq]
    split
    · next hall => rw [List.take_of_length_le hle]
    · next hall =>
      have hlast : ¬ (BitVec.ofNat 16 T.functions.length).setWidth 32 < d.numberOfFunctions := by
        rw [BitVec.lt_def, BitVec.toNat_setWidth, BitVec.toNat_ofNat, h.numberOfFunctions]
        omega
      rw [ExportQuery.queryOrdinals_succ, if_neg hlast]
      rfl
  · have hnone : T.unnamed Q = [] := List.length_eq_zero_iff.1 (by omega)
    refine ⟨0, _, h.run_of_names hO hnames 0, ?_⟩
    have heach := (eachOnce_iff_mem O h List.nodup_nil nofun).2 fun j hj => hnone ▸ hj
    rwa [List.flatMap_nil, List.append_nil] at heach

theorem counts_of_enumerates (h : T.In Q d) (hO : O.Obliging) (henumerates : T.Enumerates Q O) :
    T.CountsUnnamed Q := by
  obtain ⟨fuel, reports, hrun, heach⟩ := henumerates
  have hfunctions := T.functions_le
  rcases Nat.lt_or_ge T.ordinals.length T.functions.length with hfewer | hnames
  · obtain ⟨k, fuel', hk, rfl, hend⟩ := exists_turns fuel T.functions.length
    obtain ⟨more, hmore⟩ := h.delivered_append hk
    rw [h.run_of_fewer hO hfewer, h.turns hO hk (by omega) (by omega)] at hrun
    split at hrun
    · next hreached =>
      cases hrun
      have hsub :
        ∀ j ∈ (Q.deliveredFrom d T.ordinals 0 k).take (T.functions.length - T.ordinals.length),
          j ∈ T.unnamed Q := fun j hj => hmore ▸ List.mem_append_left _ (List.mem_of_mem_take hj)
      have hnodup : (Q.deliveredFrom d T.ordinals 0 k).Nodup :=
        (List.nodup_append.1 (hmore ▸ nodup_unnamed)).1
      have hall := (eachOnce_iff_mem O h (hnodup.sublist (List.take_sublist _ _)) hsub).1 heach
      have hlength := (List.subperm_of_subset nodup_unnamed hall).length_le
      have hmoreLength := congrArg List.length hmore
      rw [List.length_take] at hlength
      rw [List.length_append] at hmoreLength
      exact ⟨by omega, fun _ => by omega⟩
    · next hreached =>
      rcases hend with rfl | rfl
      · cases hrun
      · rw [h.delivered_eq] at hrun hreached
        refine ⟨by omega, fun hwraps => absurd heach ?_⟩
        -- the counter has wrapped
        rw [hwraps] at hrun
        cases hunnamed : T.unnamed Q with
        | nil =>
          rw [hunnamed] at hrun
          obtain ⟨_, hendless⟩ :=
            h.endless hO hwraps hunnamed fuel' (m := 2 ^ 16 - T.ordinals.length - 0)
            (by omega) (by omega) _
          cases hendless.symm.trans hrun
        | cons j rest =>
          obtain ⟨more, rfl⟩ := h.again hO hunnamed (by omega) (by omega) hrun
          exact h.not_eachOnce (hunnamed ▸ List.mem_cons_self ..) _ more
  · rw [h.run_of_names hO hnames] at hrun
    cases hrun
    have hall :=
      (eachOnce_iff_mem O h List.nodup_nil nofun).1 (by rwa [List.flatMap_nil, List.append_nil])
    have hnone : T.unnamed Q = [] := List.eq_nil_iff_forall_not_mem.2 fun j hj => nomatch hall j hj
    rw [CountsUnnamed, hnone, List.length_nil]
    exact ⟨Nat.zero_le _, fun _ => by omega⟩

/-- Every function is reported once where the functions to deliver by ordinal are counted right. -/
theorem enumerates_iff (T : ExportContents) (Q : ExportQuery) (O : ExportObserver)
    (d : ExportDirectory) (h : T.In Q d) (hO : O.Obliging) : T.Enumerates Q O ↔ T.CountsUnnamed Q :=
  ⟨counts_of_enumerates h hO, enumerates_of_counts h hO⟩

theorem forall_getElem? {α : Type} {l : List α} {P : Nat → α → Prop}
    (h : ∀ i, (hi : i < l.length) → P i l[i]) (i : Nat) (a : α) (ha : l[i]? = some a) : P i a := by
  obtain ⟨hi, rfl⟩ := List.getElem?_eq_some_iff.1 ha
  exact h i hi

/-- Two functions, and a name of the second of them. -/
def twoFunctions : ExportContents := ⟨[1], [1000, 2000], by decide⟩

/-- An image with them. -/
def twoFunctionsImage : List Byte :=
  [0] ++ List.replicate 20 0 ++ leBytes 4 2 ++ leBytes 4 1 ++ leBytes 4 41 ++ leBytes 4 49 ++
    leBytes 4 53 ++ leBytes 4 1000 ++ leBytes 4 2000 ++ leBytes 4 55 ++ [1, 0] ++ [97, 0]

/-- One function is reported with its name, the other by its ordinal. -/
theorem enumerates_twoFunctions :
    twoFunctions.Enumerates (.ofImage twoFunctionsImage ⟨1, 40⟩ 4096) (.obliging true) := by
  have hin : twoFunctions.In (.ofImage twoFunctionsImage ⟨1, 40⟩ 4096) ⟨2, 1, 41, 49, 53⟩ :=
    { captures := ⟨by decide, by decide, by decide, by decide⟩
      numberOfNames := rfl
      numberOfFunctions := rfl
      name_read := fun i hi => by
        obtain rfl := Nat.lt_one_iff.1 hi
        exact ⟨55, [97, 0], by decide, by decide, by decide⟩
      ordinal_read := forall_getElem? (by decide)
      ordinal_lt := by simp [twoFunctions]
      ordinals_read := ⟨[1, 0], by decide, by decide, forall_getElem? (by decide)⟩
      function_read := forall_getElem? (by decide) }
  exact (enumerates_iff _ _ _ _ hin fun _ => rfl).2 ⟨by decide, by decide⟩

/-- Three functions, and two names of the first of them. -/
def threeFunctions : ExportContents := ⟨[0, 0], [1000, 2000, 3000], by decide⟩

/-- An image with them. -/
def threeFunctionsImage : List Byte :=
  [0] ++ List.replicate 20 0 ++ leBytes 4 3 ++ leBytes 4 2 ++ leBytes 4 41 ++ leBytes 4 53 ++
    leBytes 4 61 ++
    leBytes 4 1000 ++ leBytes 4 2000 ++ leBytes 4 3000 ++ leBytes 4 65 ++ leBytes 4 65 ++ [0, 0, 0,
      0] ++ [97, 0]

example : (ExportQuery.ofImage threeFunctionsImage ⟨1, 40⟩ 4096).reportsOf (.obliging false) 5 =
    [.name 0 [97] 0 1000, .name 1 [97] 0 1000, .ordinal 1 2000] := by decide

/-- The last of the functions is not reported. -/
theorem not_enumerates :
    threeFunctions.In (.ofImage threeFunctionsImage ⟨1, 40⟩ 4096) ⟨3, 2, 41, 53, 61⟩ ∧
      ¬ threeFunctions.Enumerates (.ofImage threeFunctionsImage ⟨1, 40⟩ 4096)
      (.obliging false) := by
  have hin : threeFunctions.In (.ofImage threeFunctionsImage ⟨1, 40⟩ 4096) ⟨3, 2, 41, 53, 61⟩ :=
    { captures := ⟨by decide, by decide, by decide, by decide⟩
      numberOfNames := rfl
      numberOfFunctions := rfl
      name_read := fun i hi => ⟨65, [97, 0], by revert i; decide, by decide, by decide⟩
      ordinal_read := forall_getElem? (by decide)
      ordinal_lt := by simp [threeFunctions]
      ordinals_read := ⟨[0, 0, 0, 0], by decide, by decide, forall_getElem? (by decide)⟩
      function_read := forall_getElem? (by decide) }
  exact ⟨hin, fun h => absurd (counts_of_enumerates hin (fun _ => rfl) h).1 (by decide)⟩

end ExportContents

end Diana.Pe
