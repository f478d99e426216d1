import Diana.Lib.Check
import Diana.Pe.QueryExports

/-!
# What the enumeration of the exports reports

* `queryExports_returns_iff`: when the counter of the loop over the functions does not wrap;
* `reportsWhole_iff`: when the names are reported whole.
-/

namespace Diana.Pe

open Diana.Lib

namespace ExportQuery

section

variable {Q : ExportQuery} {O : ExportObserver} {d : ExportDirectory} {captured : List (BitVec 16)}
  {reports : List Report} {fuel i k l m : Nat}

/-- The directory is captured. -/
structure Captures (Q : ExportQuery) (d : ExportDirectory) : Prop where
  pageSize : ¬ Q.pageSize < normalNameSize
  mapped : ¬ Q.fileMode
  present : ¬ (Q.directory.virtualAddress = 0 ∨ Q.directory.size = 0)
  captured : Q.captureDirectory = .ok d

theorem Captures.queryExports_eq (h : Q.Captures d) :
    Q.queryExports O fuel reports = Q.queryDirectory O d fuel reports := by
  unfold queryExports
  rw [if_neg h.pageSize, if_neg h.mapped, if_neg h.present, h.captured]
  rfl

theorem deliveredFrom_add : Q.deliveredFrom d captured i (k + l) =
    Q.deliveredFrom d captured i k ++ Q.deliveredFrom d captured (i + k) l := by
  unfold deliveredFrom
  rw [← List.range'_append_1, List.filter_append]

theorem length_deliveredFrom_le (h : k ≤ l) :
    (Q.deliveredFrom d captured i k).length ≤ (Q.deliveredFrom d captured i l).length := by
  obtain ⟨n, rfl⟩ := Nat.exists_eq_add_of_le h
  rw [deliveredFrom_add, List.length_append]
  exact Nat.le_add_right _ _

/-! ## The counter -/

/-- The loop over the functions is reached. -/
structure ReachesOrdinals (Q : ExportQuery) (d : ExportDirectory) (captured : List (BitVec 16)) :
    Prop where
  captures : Q.Captures d
  names : ∀ i < d.numberOfNames.toNat, ∃ e, Q.exportAt d i = .ok e
  fewerNames : d.numberOfNames < d.numberOfFunctions
  ordinals : Q.captureOrdinals d = .ok captured

/-- The loop over the functions is left at one of the functions from `i` on: it comes to the last of
them, it cannot read one, or it delivers the last one to search. -/
def Leaves (Q : ExportQuery) (d : ExportDirectory) (captured : List (BitVec 16)) (i m : Nat) :
    Prop :=
  d.numberOfFunctions.toNat < 2 ^ 16 ∨
    (∃ j, i ≤ j ∧ j < 2 ^ 16 ∧ ∃ e, Q.slotAt d (BitVec.ofNat 16 j) = .error e) ∨
    m ≤ (Q.deliveredFrom d captured i (2 ^ 16 - i)).length

/-- The end of a part of the enumeration, other than for want of fuel. -/
abbrev Returns {α : Type} (x : Query α) (P : α → Prop) : Prop := Ends x P (· ≠ .outOfFuel)

theorem returns_orFail {α : Type} {x : Except Status α} :
    Returns (orFail x) fun a => x = .ok a := by
  cases x with
  | ok a => exact .pure rfl
  | error e => exact .throw Stop.noConfusion

theorem returns_call (r : Report) : Returns (O.call r) fun _ => True := by
  intro reports
  have : Returns (orFail (O.answer (reports ++ [r]))) _ := returns_orFail
  exact (this _).mono (fun _ _ _ => trivial) fun _ _ h => h

theorem returns_report (functionPtr : Value) (r : Report) :
    Returns (O.report functionPtr r) fun _ => True :=
  .bind (.ite (fun _ => returns_call _) fun _ => .pure trivial) fun _ _ => returns_call r

theorem returns_queryNames (is : List Nat) :
    Returns (Q.queryNames O d is) fun _ => ∀ i ∈ is, ∃ e, Q.exportAt d i = .ok e := by
  induction is with
  | nil => exact .pure nofun
  | cons i is ih =>
    refine .bind returns_orFail fun e he => .bind (Q := fun _ => True) ?_ fun _ _ =>
      ih.mono (fun _ h => ?_) fun _ h => h
    · cases e with
      | none => exact .pure trivial
      | some e => exact returns_report _ _
    · exact List.forall_mem_cons.2 ⟨⟨e, he⟩, h⟩

theorem Leaves.next {v : BitVec 32} (h : Q.Leaves d captured i m) (hi : i < 2 ^ 16)
    (hv : Q.slotAt d (BitVec.ofNat 16 i) = .ok v) {n : Nat}
    (hn : m = if Q.Skipped captured (BitVec.ofNat 16 i) v then n else n + 1) :
    Q.Leaves d captured (i + 1) n := by
  rcases h with h | ⟨j, hij, hj, e, he⟩ | h
  · exact .inl h
  · refine .inr (.inl ⟨j, Nat.lt_of_le_of_ne hij ?_, hj, e, he⟩)
    rintro rfl
    rw [hv] at he
    cases he
  · refine .inr (.inr ?_)
    rw [show 2 ^ 16 - i = 2 ^ 16 - (i + 1) + 1 by omega, deliveredFrom_succ] at h
    by_cases hskip : Q.Skipped captured (BitVec.ofNat 16 i) v
    · rw [if_neg fun hd => (delivers_of_slotAt hv).1 hd hskip] at h
      rw [if_pos hskip] at hn
      exact hn ▸ h
    · rw [if_pos ((delivers_of_slotAt hv).2 hskip), List.length_cons] at h
      rw [if_neg hskip] at hn
      omega

theorem returns_queryOrdinals (hm : 0 < m) (hm32 : m < 2 ^ 32) (hi : i < 2 ^ 16)
    (hfuel : 2 ^ 16 ≤ fuel + i) (h : Q.Leaves d captured i m) :
    Returns (Q.queryOrdinals O d captured fuel (BitVec.ofNat 16 i) (BitVec.ofNat 32 m)) fun _ =>
    True := by
  induction fuel generalizing i m with
  | zero => exact absurd hi (by omega)
  | succ fuel ih =>
    rw [queryOrdinals_succ]
    refine .ite (fun hlt => ?_) fun _ => .pure trivial
    refine .bind returns_orFail fun v hv => ?_
    rw [ofNat_succ]
    -- behind the last counter there is nothing left to do
    have hlast {n : Nat} (h : Q.Leaves d captured (i + 1) n) (hn : 0 < n) : i + 1 < 2 ^ 16 := by
      rcases h with h | ⟨j, hij, hj, -⟩ | h
      · rw [BitVec.lt_def, BitVec.toNat_setWidth, BitVec.toNat_ofNat] at hlt
        omega
      · omega
      · refine Nat.lt_of_not_le fun hle => ?_
        rw [show 2 ^ 16 - (i + 1) = 0 by omega] at h
        exact absurd h (by simp [deliveredFrom]; omega)
    refine .ite (fun hskip => ?_) fun hskip => ?_
    · have hnext := h.next hi hv (if_pos hskip).symm
      exact ih hm hm32 (hlast hnext hm) (by omega) hnext
    · refine .bind (returns_report _ _) fun _ _ => .ite (fun _ => .pure trivial) fun hne => ?_
      have hone : 1 < m := by
        refine Nat.lt_of_not_le fun hle => hne ?_
        obtain rfl : m = 1 := by omega
        rfl
      have hnext := h.next (n := m - 1) hi hv (by rw [if_neg hskip]; omega)
      rw [(toSearch_pred hone hm32).1]
      exact ih (by omega) (by omega) (hlast hnext (by omega)) (by omega) hnext

/-- Too many functions are searched for among those that there are. -/
theorem queryOrdinals_outOfFuel (hO : O.Obliging) (hfunctions : 2 ^ 16 ≤ d.numberOfFunctions.toNat)
    (hfuel : fuel ≤ 2 ^ 16) (hslots : ∀ j < 2 ^ 16, ∃ v, Q.slotAt d (BitVec.ofNat 16 j) = .ok v)
    (hm : (Q.deliveredFrom d captured 0 (2 ^ 16)).length < m) (hm32 : m < 2 ^ 32) :
    ∃ reports', Q.queryOrdinals O d captured fuel 0
    (BitVec.ofNat 32 m) reports = .error .outOfFuel reports' := by
  have hrun := queryOrdinals_run captured reports 0 (i := 0) (k := fuel) (Q := Q) (d := d) hO
      (by omega) (fun j _ hj => hslots j (by omega)) (Nat.zero_lt_of_lt hm) hm32
  have hlength : (Q.deliveredFrom d captured 0 fuel).length < m :=
    Nat.lt_of_le_of_lt (length_deliveredFrom_le hfuel) hm
  rw [if_neg (Nat.not_le.2 hlength), Nat.zero_add] at hrun
  exact ⟨_, hrun⟩

end

/-- Whatever the observer answers, the enumeration returns within the first 2^16 turns of the loop
over the functions, before its counter wraps. -/
def ReturnsUnwrapped (Q : ExportQuery) : Prop :=
  ∀ O, ∃ fuel ≤ 2 ^ 16, Returns (Q.queryExports O fuel) fun _ => True

variable {Q : ExportQuery} {O : ExportObserver} {d : ExportDirectory} {captured : List (BitVec 16)}

theorem toSearch_eq (h : d.numberOfNames < d.numberOfFunctions) :
    d.numberOfFunctions - d.numberOfNames =
      BitVec.ofNat 32 (d.numberOfFunctions.toNat - d.numberOfNames.toNat) := by
  apply BitVec.eq_of_toNat_eq
  have := d.numberOfFunctions.isLt
  rw [BitVec.toNat_sub_of_le (BitVec.le_of_lt h), BitVec.toNat_ofNat]
  omega

/-- The names are reported, and the functions are left to search. -/
theorem ReachesOrdinals.queryExports_eq (h : Q.ReachesOrdinals d captured) (hO : O.Obliging)
    (fuel : Nat) : Q.queryExports O fuel [] =
      Q.queryOrdinals O d captured fuel 0
      (BitVec.ofNat 32 (d.numberOfFunctions.toNat - d.numberOfNames.toNat))
        ((List.range d.numberOfNames.toNat).flatMap (Q.nameCalls O d)) := by
  rw [h.captures.queryExports_eq]
  refine (bind_of_ok (queryNames_ok hO fun i hi => h.names i (List.mem_range.1 hi))).trans ?_
  unfold deliverOrdinals
  rw [if_pos h.fewerNames, h.ordinals, toSearch_eq h.fewerNames]
  rfl

theorem returns_queryExports (h : ∀ d captured, Q.ReachesOrdinals d captured →
      Q.Leaves d captured 0 (d.numberOfFunctions.toNat - d.numberOfNames.toNat)) :
    Returns (Q.queryExports O (2 ^ 16)) fun _ => True := by
  unfold queryExports
  refine .ite (fun _ => .throw Stop.noConfusion) fun hpage => ?_
  refine .ite (fun _ => .throw Stop.noConfusion) fun hmapped => ?_
  refine .ite (fun _ => .pure trivial) fun hpresent => ?_
  refine .bind returns_orFail fun d hd => .bind (returns_queryNames _) fun _ hnames => ?_
  refine .ite (fun hfewer => .bind returns_orFail fun captured hcaptured => ?_) fun _ =>
    .pure trivial
  have hlt := d.numberOfFunctions.isLt
  have hfewer' : d.numberOfNames.toNat < d.numberOfFunctions.toNat := hfewer
  rw [toSearch_eq hfewer]
  exact returns_queryOrdinals (i := 0) (by omega) (by omega) (by decide) (by decide)
    (h d captured ⟨⟨hpage, hmapped, hpresent, hd⟩, fun i hi => hnames i (List.mem_range.2 hi),
      hfewer, hcaptured⟩)

/-- This is so where the loop over the functions, if it is reached, can be left at one of the first
2^16. -/
theorem queryExports_returns_iff (Q : ExportQuery) :
    Q.ReturnsUnwrapped ↔ ∀ d captured, Q.ReachesOrdinals d captured →
      Q.Leaves d captured 0 (d.numberOfFunctions.toNat - d.numberOfNames.toNat) := by
  refine ⟨fun hreturns d captured hreaches => ?_,
    fun h O => ⟨2 ^ 16, Nat.le_refl _, returns_queryExports h⟩⟩
  by_contra hleaves
  obtain ⟨hfunctions, hslots, hdelivered⟩ : 2 ^ 16 ≤ d.numberOfFunctions.toNat ∧
      (∀ j < 2 ^ 16, ∃ v, Q.slotAt d (BitVec.ofNat 16 j) = .ok v) ∧
      (Q.deliveredFrom d captured 0 (2 ^ 16)).length <
      d.numberOfFunctions.toNat - d.numberOfNames.toNat := by
    unfold Leaves at hleaves
    rw [not_or, not_or, not_lt, not_le] at hleaves
    refine ⟨hleaves.1, fun j hj => ?_, hleaves.2.2⟩
    cases hslot : Q.slotAt d (BitVec.ofNat 16 j) with
    | ok v => exact ⟨v, rfl⟩
    | error e => exact absurd ⟨j, Nat.zero_le j, hj, e, hslot⟩ hleaves.2.1
  have hO : (ExportObserver.obliging false).Obliging := fun _ => rfl
  obtain ⟨fuel, hfuel, hreturns⟩ := hreturns (.obliging false)
  have hlt := d.numberOfFunctions.isLt
  obtain ⟨reports, hrun⟩ := queryOrdinals_outOfFuel hO hfunctions hfuel hslots hdelivered (by omega)
  exact (hreturns []).error ((hreaches.queryExports_eq hO fuel).trans hrun) rfl

/-- A directory of 2^16 empty slots, without names. -/
def emptySlots : ExportQuery where
  fileMode := false
  directory := ⟨1, 40⟩
  read address size := .ok (if address = 1 then (List.range size).map fun k => if k = 22 then 1
    else 0 else List.replicate size 0)
  pageSize := 128
  heap _ := 0

theorem emptySlots_slotAt (i : BitVec 16) : emptySlots.slotAt ⟨2 ^ 16, 0, 0, 0, 0⟩ i = .ok 0 := by
  have hi := i.isLt
  have hptr : functionPtr ⟨2 ^ 16, 0, 0, 0, 0⟩ i ≠ 1 := by
    intro h
    have := congrArg BitVec.toNat h
    unfold functionPtr at this
    rw [BitVec.toNat_ofNat] at this
    change (0 + i.toNat * 4) % 2 ^ 64 = 1 at this
    omega
  have hread : emptySlots.read (functionPtr ⟨2 ^ 16, 0, 0, 0, 0⟩ i) 4 = .ok (List.replicate 4 0) :=
    congrArg Except.ok (if_neg hptr)
  unfold slotAt readNumber
  rw [hread]
  rfl

theorem emptySlots_outOfFuel (O : ExportObserver) (fuel : Nat) (i : BitVec 16)
    (ordinalsToSearch : BitVec 32) (reports : List Report) :
    emptySlots.queryOrdinals O ⟨2 ^ 16, 0, 0, 0, 0⟩ [] fuel i ordinalsToSearch reports =
    .error .outOfFuel reports := by
  induction fuel generalizing i with
  | zero => rfl
  | succ fuel ih =>
    have hlt : i.setWidth 32 < (2 ^ 16 : BitVec 32) := by
      rw [BitVec.lt_def, BitVec.toNat_setWidth]
      exact Nat.lt_of_le_of_lt (Nat.mod_le _ _) i.isLt
    rw [queryOrdinals_succ, if_pos hlt, emptySlots_slotAt]
    exact (bind_of_ok rfl).trans (ih (i + 1))

/-- The enumeration of 2^16 empty slots does not come to an end. -/
theorem not_returnsUnwrapped : ¬ emptySlots.ReturnsUnwrapped ∧ ∀ fuel, ∃ reports,
    emptySlots.queryExports (.obliging false) fuel [] = .error .outOfFuel reports := by
  have hreaches : emptySlots.ReachesOrdinals ⟨2 ^ 16, 0, 0, 0, 0⟩ [] :=
    ⟨⟨by decide, by decide, by decide, rfl⟩, nofun, by decide, rfl⟩
  have hendless (fuel : Nat) : ∃ reports,
      emptySlots.queryExports (.obliging false) fuel [] = .error .outOfFuel reports := by
    rw [hreaches.queryExports_eq fun _ => rfl]
    exact ⟨_, emptySlots_outOfFuel _ _ _ _ _⟩
  refine ⟨fun h => ?_, hendless⟩
  obtain ⟨fuel, -, hreturns⟩ := h (.obliging false)
  obtain ⟨reports, hrun⟩ := hendless fuel
  exact (hreturns []).error hrun rfl

/-! ## The names -/

/-- What the observer is called with in an enumeration. -/
def reportsOf (Q : ExportQuery) (O : ExportObserver) (fuel : Nat) : List Report :=
  match Q.queryExports O fuel [] with
  | .ok _ reports | .error _ reports => reports

/-- A report that is not by name. -/
def NotByName : Report → Prop
  | .name .. => False
  | _ => True

section

variable {fuel i : Nat}

theorem keeps_call {P : Report → Prop} {r : Report} (h : P r) : Keeps (Adds P) (O.call r) := by
  refine .bind (keeps_modify_append h) fun _ => .bind .get fun reports => ?_
  cases O.answer reports with
  | ok => exact .pure ()
  | error e => exact .throw _

theorem keeps_report {functionPtr : Value} {r : Report} (h : NotByName r) :
    Keeps (Adds NotByName) (O.report functionPtr r) :=
  .bind (.ite (keeps_call trivial) (.pure ())) fun _ => keeps_call h

theorem keeps_orFail {R : List Report → List Report → Prop} [Std.Refl R] {α : Type}
    (x : Except Status α) : Keeps R (orFail x) := by
  cases x with
  | ok a => exact .pure a
  | error e => exact .throw _

theorem keeps_queryOrdinals (i : BitVec 16) (ordinalsToSearch : BitVec 32) :
    Keeps (Adds NotByName) (Q.queryOrdinals O d captured fuel i ordinalsToSearch) := by
  induction fuel generalizing i ordinalsToSearch with
  | zero => exact .throw _
  | succ fuel ih =>
    rw [queryOrdinals_succ]
    refine .ite (.bind (keeps_orFail _) fun v => .ite (ih _ _) ?_) (.pure ())
    exact .bind (keeps_report trivial) fun _ => .ite (.pure ()) (ih _ _)

/-- The names come first, and no report behind them is by name. -/
theorem reportsOf_eq (hd : Q.Captures d)
    (hnames : ∀ i < d.numberOfNames.toNat, ∃ e, Q.exportAt d i = .ok e)
    (hO : O.Obliging) (fuel : Nat) :
    Adds NotByName ((List.range d.numberOfNames.toNat).flatMap (Q.nameCalls O d))
    (Q.reportsOf O fuel) := by
  have hordinals : Keeps (Adds NotByName) (Q.deliverOrdinals O d fuel) :=
    .ite (.bind (keeps_orFail _) fun captured => keeps_queryOrdinals _ _) (.pure ())
  have hrun : Q.queryExports O fuel [] =
      Q.deliverOrdinals O d fuel ((List.range d.numberOfNames.toNat).flatMap (Q.nameCalls O d)) :=
    (hd.queryExports_eq).trans
      (bind_of_ok (queryNames_ok hO fun i hi => hnames i (List.mem_range.1 hi)))
  have hadds := hordinals ((List.range d.numberOfNames.toNat).flatMap (Q.nameCalls O d))
  unfold reportsOf
  rw [hrun]
  unfold Post at hadds
  split at hadds <;> (next heq => rw [heq]; exact hadds)

theorem mem_calls {functionPtr : Value} {r r' : Report} (h : ¬ NotByName r') :
    r' ∈ O.calls functionPtr r ↔ r' = r := by
  have hinfo : r' ≠ .info functionPtr := by
    rintro rfl
    exact h trivial
  unfold ExportObserver.calls
  split <;> simp [hinfo]

/-- A report by name is that of the name with its counter. -/
theorem name_mem_reportsOf (hd : Q.Captures d)
    (hnames : ∀ i < d.numberOfNames.toNat, ∃ e, Q.exportAt d i = .ok e)
    (hO : O.Obliging) {x : List Byte} {hint address : BitVec 32} :
    .name i x hint address ∈ Q.reportsOf O fuel ↔
      i < d.numberOfNames.toNat ∧ ∃ functionPtr,
      Q.exportAt d i = .ok (some ⟨x, functionPtr, hint, address⟩) := by
  obtain ⟨new, hnew, hnot⟩ := reportsOf_eq hd hnames hO fuel
  have hmem : .name i x hint address ∉ new := fun h => hnot _ h
  rw [hnew, List.mem_append, or_iff_left hmem, List.mem_flatMap]
  have hcalls (j : Nat) : .name i x hint address ∈ Q.nameCalls O d j ↔
      j = i ∧ ∃ functionPtr, Q.exportAt d j = .ok (some ⟨x, functionPtr, hint, address⟩) := by
    unfold nameCalls
    cases Q.exportAt d j with
    | error e => simp
    | ok e =>
      cases e with
      | none => simp
      | some e =>
        have hname : ¬ NotByName (.name i x hint address) := id
        dsimp only
        rw [mem_calls hname]
        constructor
        · intro h
          cases h
          exact ⟨rfl, e.functionPtr, rfl⟩
        · rintro ⟨rfl, functionPtr, he⟩
          cases he
          rfl
  constructor
  · rintro ⟨j, hj, hmem⟩
    obtain ⟨rfl, he⟩ := (hcalls j).1 hmem
    exact ⟨List.mem_range.1 hj, he⟩
  · rintro ⟨hi, he⟩
    exact ⟨i, List.mem_range.2 hi, (hcalls i).2 ⟨rfl, he⟩⟩

theorem captureName_eq {offset : BitVec 32} {page : List Byte}
    (hread : Q.read (offset.setWidth 64) normalNameSize = .ok page) :
    Q.captureName offset 2 [] =
      .ok (if page = [] then none else if 0 ∈ page then some (cString page)
        else some (cString page.dropLast)) := by
  have hturn (u : Nat) (last : List Byte) : Q.captureName offset (u + 1) last =
      if page = [] then .ok none else if 0 ∈ page then .ok (some (cString page))
      else Q.captureName offset u page := by
    change (Q.read _ _ >>= _) = _
    rw [hread]
    rfl
  rw [hturn, hturn]
  split
  · rfl
  · split <;> rfl

theorem exportAt_name {e : Option NamedExport} {offset : BitVec 32} (he : Q.exportAt d i = .ok e)
    (hoffset : Q.nameOffsetAt d i = .ok offset) :
    Q.captureName offset 2 [] = .ok (e.map NamedExport.name) := by
  unfold exportAt at he
  rw [hoffset] at he
  change (Q.captureName offset 2 [] >>= _) = _ at he
  obtain ⟨functionName, hname, he⟩ := bind_eq_ok.1 he
  rw [hname]
  cases functionName with
  | none =>
    cases he
    rfl
  | some functionName =>
    obtain ⟨ordinal, -, he⟩ := bind_eq_ok.1 he
    obtain ⟨functionValue, -, he⟩ := bind_eq_ok.1 he
    cases he
    rw [Option.map_some, name_namedExport]

/-- The stream delivers bytes of memory, as many as it will. -/
def Shows (Q : ExportQuery) (mem : Nat → Byte) : Prop :=
  ∀ address size bytes, Q.read address size = .ok bytes →
    bytes = (List.range bytes.length).map fun k => mem (address.toNat + k)

/-- A name is captured whole just where its terminating 0 is among the bytes that are delivered. -/
theorem captured_whole_iff {mem : Nat → Byte} (hmem : Q.Shows mem) {offset : BitVec 32}
    {x : List Byte} (hx : HasString (fun k => mem (offset.toNat + k)) x) :
    Q.captureName offset 2 [] = .ok (some x) ↔
      ∃ page, Q.read (offset.setWidth 64) normalNameSize = .ok page ∧ x.length < page.length := by
  cases hread : Q.read (offset.setWidth 64) normalNameSize with
  | error e =>
    refine iff_of_false (fun h => ?_) (fun ⟨_, h, _⟩ => nomatch h)
    unfold captureName at h
    rw [hread] at h
    cases h
  | ok page =>
    have hpage : page = (List.range page.length).map fun k => mem (offset.toNat + k) := by
      have := hmem _ _ _ hread
      rwa [BitVec.toNat_setWidth_of_le (by decide)] at this
    have hzero : 0 ∈ page ↔ x.length < page.length := by
      conv_lhs => rw [hpage]
      exact zero_mem_iff hx _
    rw [captureName_eq hread]
    constructor
    · intro h
      refine ⟨page, rfl, Nat.lt_of_not_le fun hle => ?_⟩
      have hnot : ¬ 0 ∈ page := fun h => absurd (hzero.1 h) (Nat.not_lt.2 hle)
      rw [if_neg hnot] at h
      split at h
      · cases h
      · next hne =>
        have hlength := congrArg List.length (Option.some.inj (Except.ok.inj h))
        have hpos := List.length_pos_iff.2 hne
        have hprefix : (cString page.dropLast).length ≤ page.dropLast.length :=
          (List.takeWhile_sublist _).length_le
        rw [List.length_dropLast] at hprefix
        omega
    · rintro ⟨_, heq, hlt⟩
      cases heq
      have hne : page ≠ [] := List.length_pos_iff.1 (Nat.zero_lt_of_lt hlt)
      have hstring : cString page = x := by
        rw [hpage]
        exact (takeWhile_eq_take hx _).trans (List.take_of_length_le hlt.le)
      rw [if_neg hne, if_pos (hzero.2 hlt), hstring]

end

/-- Name `i` is reported, as `x` and as nothing else. -/
def ReportedAs (reports : List Report) (i : Nat) (x : List Byte) : Prop :=
  (∃ hint address, .name i x hint address ∈ reports) ∧ ∀ y hint address,
    .name i y hint address ∈ reports → y = x

theorem reportedAs_iff {mem : Nat → Byte} {fuel i : Nat} {offset : BitVec 32} {x : List Byte}
    (hmem : Q.Shows mem) (hd : Q.Captures d)
    (hnames : ∀ i < d.numberOfNames.toNat, ∃ e, Q.exportAt d i = .ok e) (hO : O.Obliging)
    (hi : i < d.numberOfNames.toNat) (hoffset : Q.nameOffsetAt d i = .ok offset)
    (hx : HasString (fun k => mem (offset.toNat + k)) x) :
    ReportedAs (Q.reportsOf O fuel) i x ↔
      ∃ page, Q.read (offset.setWidth 64) normalNameSize = .ok page ∧ x.length < page.length := by
  obtain ⟨e, he⟩ := hnames i hi
  refine Iff.trans ?_ (captured_whole_iff hmem hx)
  rw [exportAt_name he hoffset]
  unfold ReportedAs
  simp only [name_mem_reportsOf hd hnames hO, he]
  cases e with
  | none => exact iff_of_false (fun ⟨⟨_, _, _, _, h⟩, _⟩ => nomatch h) nofun
  | some e =>
    constructor
    · rintro ⟨⟨hint, address, -, functionPtr, h⟩, -⟩
      cases h
      rfl
    · intro h
      have hname : e.name = x := Option.some.inj (Except.ok.inj h)
      refine ⟨⟨e.hint, e.address, hi, e.functionPtr, hname ▸ rfl⟩, ?_⟩
      rintro y hint address ⟨-, functionPtr, h⟩
      cases h
      exact hname

/-- What holds for the names of the directory that are shorter than `maxNameSize`. -/
def ForNames (Q : ExportQuery) (d : ExportDirectory) (mem : Nat → Byte)
    (P : Nat → BitVec 32 → List Byte → Prop) : Prop :=
  ∀ i < d.numberOfNames.toNat, ∀ offset x, Q.nameOffsetAt d i = .ok offset →
    HasString (fun k => mem (offset.toNat + k)) x → (x.length : Int) < Q.maxNameSize → P i offset x

/-- The names are reported whole where a read of `normalNameSize` bytes delivers each with its
terminating 0. -/
theorem reportsWhole_iff (Q : ExportQuery) (O : ExportObserver) (d : ExportDirectory)
    (mem : Nat → Byte) (fuel : Nat) (hmem : Q.Shows mem) (hd : Q.Captures d)
    (hnames : ∀ i < d.numberOfNames.toNat, ∃ e, Q.exportAt d i = .ok e)
    (hO : O.Obliging) :
    (Q.ForNames d mem fun i _ x => ReportedAs (Q.reportsOf O fuel) i x) ↔
      Q.ForNames d mem fun _ offset x =>
        ∃ page, Q.read (offset.setWidth 64) normalNameSize = .ok page ∧ x.length < page.length := by
  refine forall_congr' fun i => forall_congr' fun hi => forall_congr' fun offset =>
    forall_congr' fun x => ?_
  refine forall_congr' fun hoffset => forall_congr' fun hx => forall_congr' fun _ => ?_
  exact reportedAs_iff hmem hd hnames hO hi hoffset hx

/-- An image in memory: a read delivers what there is from its address on. -/
def ofImage (image : List Byte) (directory : DataDirectory) (pageSize : Int) : ExportQuery where
  fileMode := false
  directory
  read address size :=
    if address.toNat < image.length then .ok ((image.drop address.toNat).take size)
      else .error .endOfStream
  pageSize
  heap _ := 0

theorem ofImage_shows (image : List Byte) (directory : DataDirectory) (pageSize : Int) :
    (ofImage image directory pageSize).Shows fun k => image.getD k 0 := by
  intro address size bytes h
  unfold ofImage at h
  dsimp only at h
  split at h
  · cases h
    refine List.ext_getElem (by simp) fun k hk _ => ?_
    rw [List.length_take, List.length_drop] at hk
    simp [List.getD_eq_getElem?_getD,
      List.getElem?_eq_getElem (show address.toNat + k < image.length by omega)]
  · cases h

/-- An image with one function, and the bytes from its name on. -/
def oneName (bytes : List Byte) : List Byte :=
  [0] ++ List.replicate 20 0 ++ leBytes 4 1 ++ leBytes 4 1 ++ leBytes 4 41 ++ leBytes 4 45 ++
    leBytes 4 49 ++ leBytes 4 1000 ++ leBytes 4 51 ++ leBytes 2 0 ++ bytes

example : (ofImage (oneName [97, 98, 0]) ⟨1, 40⟩ 4096).reportsOf (.obliging true) 2 =
    [.info 41, .name 0 [97, 98] 0 1000] := by decide

/-- The directory of these images. -/
def oneNameDirectory : ExportDirectory := ⟨1, 1, 41, 45, 49⟩

theorem reportsWhole_short :
    (ofImage (oneName [97, 98, 0]) ⟨1, 40⟩ 4096).ForNames oneNameDirectory
    ((oneName [97, 98, 0]).getD · 0)
      fun i _ x => ReportedAs
      ((ofImage (oneName [97, 98, 0]) ⟨1, 40⟩ 4096).reportsOf (.obliging false) 2) i x := by
  refine (reportsWhole_iff _ _ _ _ _ (ofImage_shows _ _ _)
    ⟨by decide, by decide, by decide, by decide⟩ ?_ fun _ => rfl).2 ?_
  · intro i hi
    obtain rfl := Nat.lt_one_iff.1 hi
    exact ⟨some ⟨[97, 98], 41, 0, 1000⟩, by decide⟩
  · intro i hi offset x hoffset hx _
    obtain rfl := Nat.lt_one_iff.1 hi
    have h51 : (ofImage (oneName [97, 98, 0]) ⟨1, 40⟩ 4096).nameOffsetAt oneNameDirectory 0 =
        .ok 51 := by decide
    obtain rfl : 51 = offset := Except.ok.inj (h51.symm.trans hoffset)
    exact ⟨[97, 98, 0], by decide, (zero_mem_iff hx 3).1 (by decide)⟩

/-- A name of 130 bytes is cut. -/
theorem not_reportsWhole :
    ¬ (ofImage (oneName (List.replicate 130 97 ++ [0])) ⟨1, 40⟩ 4096).ForNames oneNameDirectory
      ((oneName (List.replicate 130 97 ++ [0])).getD · 0) fun i _ x =>
        ReportedAs ((ofImage (oneName (List.replicate 130 97 ++ [0])) ⟨1, 40⟩ 4096).reportsOf
          (.obliging false) 2) i x := by
  intro h
  have hreports : (ofImage (oneName (List.replicate 130 97 ++ [0])) ⟨1, 40⟩ 4096).reportsOf
    (.obliging false) 2 =
      [.name 0 (List.replicate 127 97) 0 1000] := by decide +kernel
  obtain ⟨⟨hint, address, hmem⟩, -⟩ :=
    h 0 (by decide) 51 (List.replicate 130 97) (by decide +kernel)
    (by decide +kernel) (by decide +kernel)
  rw [hreports, List.mem_singleton] at hmem
  exact absurd (Report.name.inj hmem).2.1 (by decide +kernel)

end ExportQuery

end Diana.Pe
