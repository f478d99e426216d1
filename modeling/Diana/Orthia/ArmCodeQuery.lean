import Diana.Orthia.MetaInfo

/-!
# The code map read back

`CArmCodeMap` answers for an address from a window of the code map: the kind at the start of the
window, which one query of the database finds as the nearest row, and the changes in it, which
another one finds as a range. An address outside of the window moves the window there.

* `Holds`: what the window has to tell of a module; `query_of_holds`: one call;
* `query_armCodeMap`: any calls, when the stored changes lie in their modules.
-/

namespace Diana.Orthia.ArmCode

open Diana.Lib Diana.Orthia.Saver

/-! ## The database -/

/-- `sqlite3_column_int64` of the address: 0 for `NULL`. -/
def MetaRow.address (r : MetaRow) : Nat := ofDb (r.metaAddress.getD 0)

/-- `meta_type == ?1 AND meta_address <= ?2` -/
def MetaRow.upTo (metaType : Nat) (address : SqlInt) (r : MetaRow) : Bool :=
  r.metaType = metaType ∧ r.metaAddress.any fun v => v.toInt ≤ address.toInt

/-- `meta_type == ?1 AND meta_address >= ?2 AND meta_address <= ?3` -/
def MetaRow.within (metaType : Nat) (lo hi : SqlInt) (r : MetaRow) : Bool :=
  r.metaType = metaType ∧ r.metaAddress.any fun v => lo.toInt ≤ v.toInt ∧ v.toInt ≤ hi.toInt

/-- SQLite as the statements `m_stmtSelectMetainfo_NearestAddress` and
`m_stmtSelectMetainfo_AddressRange` use it. The order of rows with the same address is not said. -/
structure MetaSqlite where
  selectNearest : List MetaRow → (metaType : Nat) → SqlInt → List MetaRow
  selectRange : List MetaRow → (metaType : Nat) → SqlInt → SqlInt → List MetaRow
  nearest_perm : ∀ table t a, (selectNearest table t a).Perm (table.filter (MetaRow.upTo t a))
  nearest_ordered : ∀ table t a, (selectNearest table t a).Pairwise fun r r' =>
    r'.address ≤ r.address
  range_perm : ∀ table t lo hi,
    (selectRange table t lo hi).Perm (table.filter (MetaRow.within t lo hi))
  range_ordered : ∀ table t lo hi, (selectRange table t lo hi).Pairwise fun r r' =>
    r.address ≤ r'.address

/-! ## The workplace -/

structure WorkAddressRangeInfo where
  address : Nat
  lastValidAddress : Nat
  dianaArch : DianaArch
  deriving DecidableEq

def WorkAddressRangeInfo.isInRange (info : WorkAddressRangeInfo) (offset : Nat) : Bool :=
  info.address ≤ offset ∧ offset ≤ info.lastValidAddress

/-- `IWorkPlaceItem`: its modules, and what it gives for an address in none of them. -/
structure Workplace where
  modules : List WorkAddressRangeInfo
  elsewhere : WorkAddressRangeInfo

namespace Workplace

/-- `CProcessWorkplaceItem`: no modules found, return address space as the big module. -/
def process (modules : List WorkAddressRangeInfo) (fileSize : Nat) (dianaArch : DianaArch) :
    Workplace :=
  ⟨modules, ⟨0, fileSize, dianaArch⟩⟩

/-- `FileWorkplaceItem`: the module owning the address; the main module when the
address is in no module. -/
def file (imageSources : List WorkAddressRangeInfo) (main : WorkAddressRangeInfo) : Workplace :=
  ⟨imageSources ++ [main], main⟩

/-- `GetRangeInfo` -/
def getRangeInfo (w : Workplace) (address : Nat) : WorkAddressRangeInfo :=
  (w.modules.find? (·.isInRange address)).getD w.elsewhere

end Workplace

/-! ## `CArmCodeMap` -/

structure CodeMap where
  moduleAddress : Nat
  moduleLast : Nat
  /-- `m_from` -/
  start : Nat
  /-- `m_to` -/
  stop : Nat
  /-- the kind at `start`, then the changes after it -/
  first : ArmCodeKind
  changes : List ArmCodeChange
  deriving DecidableEq

namespace CodeMap

/-- No window. -/
def new : CodeMap := ⟨0, 0, 1, 0, .a32, []⟩

def windowSize : Nat := 0x1000

section

variable (sql : MetaSqlite) (w : Workplace) (table : List MetaRow)

/-- The end of the window at an address. -/
def windowEnd (address moduleLast : Nat) : Nat :=
  if add64 address windowSize < address ∨ add64 address windowSize > add64 moduleLast 1 then
    add64 moduleLast 1
  else add64 address windowSize

/-- The change at or before the address, when it is one of the module. -/
def nearestKind (info : WorkAddressRangeInfo) (address : Nat) : ArmCodeKind :=
  match (sql.selectNearest table g_database_type_armCodeMap (toDb address)).head? with
  | some r =>
    if r.modId = info.address then (findArmCodeKind r.info).getD (getArmCodeKind info.dianaArch)
    else getArmCodeKind info.dianaArch
  | none => getArmCodeKind info.dianaArch

/-- What the handler of the range query keeps of a row. -/
def rowChange (moduleAddress : Nat) (r : MetaRow) : Option ArmCodeChange :=
  if r.modId = moduleAddress then (findArmCodeKind r.info).map fun kind =>
    ⟨r.address, kind⟩ else none

/-- The changes behind `address` and before `stop`. -/
def changesBetween (moduleAddress address stop : Nat) : List ArmCodeChange :=
  if stop > add64 address 1 then
    (sql.selectRange table g_database_type_armCodeMap (toDb (add64 address 1))
      (toDb (sub64 stop 1))).filterMap (rowChange moduleAddress)
  else []

/-- `Load` -/
def load (address : Nat) : CodeMap :=
  let info := w.getRangeInfo address
  let stop := windowEnd address info.lastValidAddress
  { moduleAddress := info.address
    moduleLast := info.lastValidAddress
    start := address
    stop
    first := nearestKind sql table info address
    changes := changesBetween sql table info.address address stop }

/-- The loop of `Query`. -/
def scan (address : Nat) : ArmCodeKind → Nat → List ArmCodeChange → ArmCodeKind × Nat
  | kind, nextChange, [] => (kind, nextChange)
  | kind, nextChange, change :: changes =>
    if change.offset > address then (kind, change.offset)
      else scan address change.kind nextChange changes

/-- The window that `Query` answers from. -/
def moved (s : CodeMap) (address : Nat) : CodeMap :=
  if address < s.start ∨ address ≥ s.stop then load sql w table address else s

/-- `Query`: the kind, and where the next change is. -/
def query (s : CodeMap) (address : Nat) : ArmCodeKind × Nat :=
  let s := moved sql w table s address
  scan address s.first (if s.stop < add64 s.moduleLast 1 then s.stop
    else DI_MAX_OPERAND_SIZE) s.changes

/-- The map behind some calls of `Query`. -/
def runQueries (s : CodeMap) (addresses : List Nat) :
    CodeMap := addresses.foldl (moved sql w table) s

end

end CodeMap

/-! ## What a window has to tell -/

/-- The modules do not overlap and do not end at the top of the address space. -/
structure Workplace.Apart (w : Workplace) : Prop where
  le : ∀ m ∈ w.modules, m.address ≤ m.lastValidAddress
  lt : ∀ m ∈ w.modules, m.lastValidAddress + 1 < 2 ^ 64
  apart : w.modules.Pairwise fun m m' => m.lastValidAddress < m'.address ∨
    m'.lastValidAddress < m.address

/-- The address lies in a module. -/
def Workplace.InModule (w : Workplace) (address : Nat) :
    Prop := ∃ m ∈ w.modules, m.isInRange address = true

/-- The changes stored for other modules lie outside of the module. -/
def Foreign (table : List MetaRow) (info : WorkAddressRangeInfo) : Prop :=
  ∀ r ∈ table, r.metaType = g_database_type_armCodeMap → r.modId ≠ info.address →
    ∀ v, r.metaAddress = some v → info.isInRange (ofDb v) = false

/-- The window tells the kinds of `st` from its start to its end. -/
structure CodeMap.Tells (s : CodeMap) (st : Nat → Option ArmCodeKind) (base : ArmCodeKind) :
    Prop where
  first : Governs st base s.start s.first
  ascending : Ascending s.changes
  above : ∀ c ∈ s.changes, s.start < c.offset ∧ c.offset < s.stop
  mem : ∀ y kind, s.start < y → y < s.stop →
    (st y = some kind ↔ ∃ c ∈ s.changes, c.offset = y ∧ c.kind = kind)

/-- The window has no address of the module, or lies in the module and tells the kinds of `st`. -/
def CodeMap.Holds (s : CodeMap) (info : WorkAddressRangeInfo) (st : Nat → Option ArmCodeKind) :
    Prop :=
  (∀ x, s.start ≤ x → x < s.stop → info.isInRange x = false) ∨
    (s.moduleLast = info.lastValidAddress ∧ s.stop ≤ info.lastValidAddress + 1 ∧
      s.Tells st (getArmCodeKind info.dianaArch))

/-- The address lies in a module, the module at hand is given for it, or the window there ends
before that module. -/
def Workplace.Clear (w : Workplace) (info : WorkAddressRangeInfo) (address : Nat) : Prop :=
  w.InModule address ∨ w.getRangeInfo address = info ∨
    ∀ x, address ≤ x → x < CodeMap.windowEnd address (w.getRangeInfo address).lastValidAddress →
      info.isInRange x = false

section

variable {sql : MetaSqlite} {w : Workplace} {table : List MetaRow} {info m : WorkAddressRangeInfo}
  {address : Nat} {st : Nat → Option ArmCodeKind} {s : CodeMap}

theorem isInRange_iff {offset : Nat} :
    info.isInRange offset = true ↔ info.address ≤ offset ∧ offset ≤ info.lastValidAddress :=
  decide_eq_true_iff

theorem holds_new : CodeMap.new.Holds info st := Or.inl fun _ _ h => absurd h (Nat.not_lt_zero _)

/-- Two modules that have an address in common are one. -/
theorem Workplace.Apart.unique {m' : WorkAddressRangeInfo} (hw : w.Apart) (hm : m ∈ w.modules)
    (hm' : m' ∈ w.modules) (h : m.isInRange address = true) (h' : m'.isInRange address = true) :
    m = m' := by
  rw [isInRange_iff] at h h'
  rcases rel_of_pairwise hw.apart hm hm' with he | h1 | h1
  · exact he
  · omega
  · omega

theorem getRangeInfo_of_mem (hw : w.Apart) (hm : m ∈ w.modules) (h : m.isInRange address = true) :
    w.getRangeInfo address = m := by
  unfold Workplace.getRangeInfo
  cases hfind : w.modules.find? (·.isInRange address) with
  | none => exact absurd h (by simpa using List.find?_eq_none.1 hfind m hm)
  | some m' =>
    have hm' : m'.isInRange address = true := by simpa using List.find?_some hfind
    exact hw.unique (List.mem_of_find?_eq_some hfind) hm hm' h

/-- A file item gives its main module outside of the others, so no address is unclear for that
one. -/
theorem Workplace.clear_file (imageSources : List WorkAddressRangeInfo)
    (main : WorkAddressRangeInfo) (address : Nat) :
    (Workplace.file imageSources main).Clear main address := by
  by_cases h : (Workplace.file imageSources main).InModule address
  · exact Or.inl h
  · refine Or.inr (Or.inl ?_)
    have hnone : (Workplace.file imageSources main).modules.find? (·.isInRange address) = none :=
      List.find?_eq_none.2 fun m hm hin => h ⟨m, hm, hin⟩
    unfold Workplace.getRangeInfo
    rw [hnone]
    rfl

/-- The window at an address up to the end of a module ends behind it, and in the module. -/
theorem windowEnd_spec (hlt : m.lastValidAddress + 1 < 2 ^ 64) (h : address ≤ m.lastValidAddress) :
    address < CodeMap.windowEnd address m.lastValidAddress ∧
      CodeMap.windowEnd address m.lastValidAddress ≤ m.lastValidAddress + 1 := by
  unfold CodeMap.windowEnd CodeMap.windowSize
  rw [@add64_of_lt m.lastValidAddress 1 hlt]
  split
  · omega
  · rename_i hno
    unfold add64 at hno ⊢
    omega

/-! ## The two queries -/

theorem upTo_iff {t : Nat} (ha : address < 2 ^ 64) {r : MetaRow} :
    r.upTo t (toDb address) = true ↔ r.metaType = t ∧ ∃ v,
    r.metaAddress = some v ∧ ofDb v ≤ address := by
  unfold MetaRow.upTo
  rw [decide_eq_true_iff]
  simp only [Option.any_eq_true, decide_eq_true_eq, toInt_le_toInt, ofDb_toDb ha]

theorem within_iff {t lo hi : Nat} (hlo : lo < 2 ^ 64) (hhi : hi < 2 ^ 64) {r : MetaRow} :
    r.within t (toDb lo) (toDb hi) = true ↔
      r.metaType = t ∧ ∃ v, r.metaAddress = some v ∧ lo ≤ ofDb v ∧ ofDb v ≤ hi := by
  unfold MetaRow.within
  rw [decide_eq_true_iff]
  simp only [Option.any_eq_true, decide_eq_true_eq, toInt_le_toInt, ofDb_toDb hlo, ofDb_toDb hhi]

theorem address_of_some {r : MetaRow} {v : SqlInt} (h : r.metaAddress = some v) :
    r.address = ofDb v := by
  unfold MetaRow.address
  rw [h, Option.getD_some]

/-- A kind of the module has its row. -/
theorem Stores.row {y : Nat} {kind : ArmCodeKind} (hs : Stores table info.address st)
    (h : st y = some kind) :
    ∃ r ∈ table, r.Own info.address ∧ r.metaAddress = some (toDb y) ∧ ofDb (toDb y) = y := by
  obtain ⟨hlt, r, hr, hown, haddress⟩ := hs.complete y kind h
  exact ⟨r, hr, hown, haddress, ofDb_toDb hlt⟩

/-- The nearest row is the module's own if the module has one: those of other modules
lie below its start. -/
theorem governs_nearestKind (hs : Stores table info.address st) (hforeign : Foreign table info)
    (hinside : ∀ y kind, st y = some kind → info.isInRange y = true)
    (hin : info.isInRange address = true) (ha : address < 2 ^ 64) :
    Governs st (getArmCodeKind info.dianaArch) address
    (CodeMap.nearestKind sql table info address) := by
  have hmem : ∀ r, r ∈ sql.selectNearest table g_database_type_armCodeMap (toDb address) ↔
      r ∈ table ∧ r.metaType = g_database_type_armCodeMap ∧ ∃ v,
      r.metaAddress = some v ∧ ofDb v ≤ address := by
    intro r
    rw [(sql.nearest_perm _ _ _).mem_iff, List.mem_filter, upTo_iff ha]
  have hord := sql.nearest_ordered table g_database_type_armCodeMap (toDb address)
  -- a kind up to the address has a row among those that the query gives
  have hrow : ∀ y kind, y ≤ address → st y = some kind →
      ∃ r ∈ sql.selectNearest table g_database_type_armCodeMap (toDb address), r.address = y := by
    intro y kind hy hst
    obtain ⟨r, hr, hown, haddress, hofDb⟩ := hs.row hst
    exact ⟨r, (hmem r).2 ⟨hr, hown.2, _, haddress, by omega⟩,
      (address_of_some haddress).trans hofDb⟩
  unfold CodeMap.nearestKind
  cases hl : sql.selectNearest table g_database_type_armCodeMap (toDb address) with
  | nil =>
    rw [hl] at hrow
    refine Or.inr ⟨rfl, fun y hy => ?_⟩
    cases hst : st y with
    | none => rfl
    | some kind =>
      obtain ⟨r, hr, -⟩ := hrow y kind hy hst
      cases hr
  | cons r rest =>
    rw [hl] at hrow hord hmem
    obtain ⟨hr, htype, v, haddress, hle⟩ := (hmem r).1 List.mem_cons_self
    have hra := address_of_some haddress
    -- no kind lies between the row and the address
    have hnone : ∀ y kind, r.address < y → y ≤ address → st y ≠ some kind := by
      intro y kind hlt hy hst
      obtain ⟨r', hr', rfl⟩ := hrow y kind hy hst
      rcases List.mem_cons.1 hr' with rfl | hr'
      · exact absurd hlt (Nat.lt_irrefl _)
      · have := (List.pairwise_cons.1 hord).1 r' hr'
        omega
    rw [List.head?_cons]
    dsimp only
    by_cases hown : r.modId = info.address
    · obtain ⟨kind, hinfo, hst⟩ := hs.sound r hr ⟨hown, htype⟩ v haddress
      rw [if_pos hown, hinfo, findArmCodeKind_name, Option.getD_some]
      refine Or.inl ⟨ofDb v, hle, hst, fun y hlt hy => ?_⟩
      exact Option.eq_none_iff_forall_ne_some.2 fun kind => hnone y kind (by omega) hy
    · rw [if_neg hown]
      refine Or.inr ⟨rfl, fun y hy => Option.eq_none_iff_forall_ne_some.2 fun kind hst => ?_⟩
      have hout := hforeign r hr htype hown v haddress
      have hyin := isInRange_iff.1 (hinside y kind hst)
      rw [isInRange_iff] at hin
      by_cases hlt : r.address < y
      · exact hnone y kind hlt hy hst
      · have :=
          isInRange_iff.2 (show info.address ≤ ofDb v ∧ ofDb v ≤ info.lastValidAddress by omega)
        rw [hout] at this
        cases this

/-- Before the module there is no change of it. -/
theorem governs_before (hs : Stores table info.address st)
    (hinside : ∀ y kind, st y = some kind → info.isInRange y = true)
    (hbefore : address < info.address) (ha : address < 2 ^ 64) :
    Governs st (getArmCodeKind info.dianaArch) address
    (CodeMap.nearestKind sql table info address) := by
  have hnone : ∀ y ≤ address, st y = none :=
    fun y hy => Option.eq_none_iff_forall_ne_some.2 fun kind hst => by
    have := isInRange_iff.1 (hinside y kind hst)
    omega
  refine Or.inr ⟨?_, hnone⟩
  unfold CodeMap.nearestKind
  cases hl : sql.selectNearest table g_database_type_armCodeMap (toDb address) with
  | nil => rfl
  | cons r rest =>
    have hmem := (sql.nearest_perm table g_database_type_armCodeMap (toDb address)).mem_iff.1
        (hl ▸ List.mem_cons_self)
    obtain ⟨hr, hupTo⟩ := List.mem_filter.1 hmem
    obtain ⟨htype, v, haddress, hle⟩ := (upTo_iff ha).1 hupTo
    rw [List.head?_cons]
    dsimp only
    refine if_neg fun hown => ?_
    obtain ⟨kind, -, hst⟩ := hs.sound r hr ⟨hown, htype⟩ v haddress
    rw [hnone _ hle] at hst
    cases hst

theorem rowChange_eq_some (hs : Stores table info.address st) {r : MetaRow} (hr : r ∈ table)
    (htype : r.metaType = g_database_type_armCodeMap) {v : SqlInt}
    (haddress : r.metaAddress = some v) {c : ArmCodeChange} :
    CodeMap.rowChange info.address r = some c ↔
      r.modId = info.address ∧ c.offset = ofDb v ∧ st (ofDb v) = some c.kind := by
  unfold CodeMap.rowChange
  by_cases hown : r.modId = info.address
  · obtain ⟨kind, hinfo, hst⟩ := hs.sound r hr ⟨hown, htype⟩ v haddress
    rw [if_pos hown, hinfo, findArmCodeKind_name, Option.map_some, Option.some_inj,
      address_of_some haddress, hst, Option.some_inj]
    constructor
    · rintro rfl
      exact ⟨hown, rfl, rfl⟩
    · rintro ⟨-, ho, hk⟩
      rw [hk, ← ho]
  · rw [if_neg hown]
    exact iff_of_false nofun fun h => hown h.1

/-- Rows in the order of their addresses give the changes of the module that are among them. -/
theorem rowChanges_spec {rows : List MetaRow} {p : MetaRow → Bool} {P : Nat → Prop}
    (hs : Stores table info.address st) (hperm : rows.Perm (table.filter p))
    (hord : rows.Pairwise fun r r' => r.address ≤ r'.address) (hp : ∀ r, p r = true ↔
      r.metaType = g_database_type_armCodeMap ∧ ∃ v, r.metaAddress = some v ∧ P (ofDb v)) :
    Ascending (rows.filterMap (CodeMap.rowChange info.address)) ∧
      ∀ y kind, (∃ c ∈ rows.filterMap (CodeMap.rowChange info.address),
        c.offset = y ∧ c.kind = kind) ↔ P y ∧ st y = some kind := by
  have hmem : ∀ r, r ∈ rows ↔
      r ∈ table ∧ r.metaType = g_database_type_armCodeMap ∧ ∃ v,
      r.metaAddress = some v ∧ P (ofDb v) := by
    intro r
    rw [hperm.mem_iff, List.mem_filter, hp]
  constructor
  · have hunique : rows.Pairwise
        fun r r' => r.Own info.address → r'.Own info.address → r.metaAddress ≠ r'.metaAddress := by
      refine (hperm.pairwise_iff ?_).2 (hs.unique.filter _)
      exact fun h hown hown' => (h hown' hown).symm
    refine List.pairwise_filterMap.2 ?_
    refine (hord.and hunique).imp_of_mem fun {r r'} hr hr' hrel c hc c' hc' => ?_
    obtain ⟨hrt, htype, v, hv, -⟩ := (hmem r).1 hr
    obtain ⟨hrt', htype', v', hv', -⟩ := (hmem r').1 hr'
    obtain ⟨hown, ho, -⟩ := (rowChange_eq_some hs hrt htype hv).1 hc
    obtain ⟨hown', ho', -⟩ := (rowChange_eq_some hs hrt' htype' hv').1 hc'
    have hle := hrel.1
    rw [address_of_some hv, address_of_some hv'] at hle
    have hne : ofDb v ≠ ofDb v' := by
      intro he
      refine hrel.2 ⟨hown, htype⟩ ⟨hown', htype'⟩ ?_
      rw [hv, hv', ← toDb_ofDb v, ← toDb_ofDb v', he]
    omega
  · intro y kind
    constructor
    · rintro ⟨c, hc, rfl, rfl⟩
      obtain ⟨r, hr, hrc⟩ := List.mem_filterMap.1 hc
      obtain ⟨hrt, htype, v, hv, hP⟩ := (hmem r).1 hr
      obtain ⟨-, ho, hst⟩ := (rowChange_eq_some hs hrt htype hv).1 hrc
      rw [ho]
      exact ⟨hP, hst⟩
    · rintro ⟨hP, hst⟩
      obtain ⟨r, hr, hown, haddress, hofDb⟩ := hs.row hst
      have hrow : r ∈ rows := (hmem r).2 ⟨hr, hown.2, _, haddress, hofDb.symm ▸ hP⟩
      refine ⟨⟨y, kind⟩, List.mem_filterMap.2 ⟨r, hrow, ?_⟩, rfl, rfl⟩
      exact (rowChange_eq_some hs hr hown.2 haddress).2 ⟨hown.1, hofDb.symm, hofDb.symm ▸ hst⟩

/-- The range query gives the changes of the module behind the address. -/
theorem changesBetween_spec {stop : Nat} (hs : Stores table info.address st) (ha : address < stop)
    (hstop : stop < 2 ^ 64) :
    Ascending (CodeMap.changesBetween sql table info.address address stop) ∧
      (∀ c ∈ CodeMap.changesBetween sql table info.address address stop,
        address < c.offset ∧ c.offset < stop) ∧
        ∀ y kind, address < y → y < stop → (st y = some kind ↔
          ∃ c ∈ CodeMap.changesBetween sql table info.address address stop,
          c.offset = y ∧ c.kind = kind) := by
  unfold CodeMap.changesBetween
  rw [@add64_of_lt address 1 (by omega), @sub64_of_le stop 1 (by omega) hstop]
  by_cases hsome : stop > address + 1
  · rw [if_pos hsome]
    obtain ⟨hasc, hmem⟩ :=
      @rowChanges_spec table info st _ _ (fun y => address + 1 ≤ y ∧ y ≤ stop - 1) hs
      (sql.range_perm table g_database_type_armCodeMap (toDb (address + 1)) (toDb (stop - 1)))
      (sql.range_ordered _ _ _ _) fun r => within_iff (by omega) (by omega)
    refine ⟨hasc, fun c hc => ?_, fun y kind hlo hhi => ?_⟩
    · have := ((hmem c.offset c.kind).1 ⟨c, hc, rfl, rfl⟩).1
      omega
    · rw [hmem y kind]
      exact (and_iff_right (by omega)).symm
  · rw [if_neg hsome]
    refine ⟨List.Pairwise.nil, fun c hc => absurd hc List.not_mem_nil, fun y kind hlo hhi => ?_⟩
    omega

/-! ## Calls of `Query` -/

/-- What the database has of the module at hand, and where that is. -/
structure Saved (w : Workplace) (table : List MetaRow) (info : WorkAddressRangeInfo)
    (st : Nat → Option ArmCodeKind) : Prop where
  apart : w.Apart
  mem : info ∈ w.modules
  stores : Stores table info.address st
  inside : ∀ y kind, st y = some kind → info.isInRange y = true
  foreign : Foreign table info

/-- A window that is loaded for the module at hand. -/
theorem holds_load_of_info (h : Saved w table info st) (hinfo : w.getRangeInfo address = info) :
    (CodeMap.load sql w table address).Holds info st := by
  have hlast := h.apart.lt info h.mem
  have hstop : (CodeMap.load sql w table address).stop =
      CodeMap.windowEnd address info.lastValidAddress := by
    simp only [CodeMap.load, hinfo]
  by_cases hle : address ≤ info.lastValidAddress
  · obtain ⟨hlt, hend⟩ := @windowEnd_spec info address hlast hle
    have ha : address < 2 ^ 64 := by omega
    obtain ⟨hasc, habove, hmem⟩ := @changesBetween_spec sql table info address st
      (CodeMap.windowEnd address info.lastValidAddress) h.stores hlt (by omega)
    have hfirst : Governs st (getArmCodeKind info.dianaArch) address
        (CodeMap.nearestKind sql table info address) := by
      by_cases hin : info.address ≤ address
      · exact governs_nearestKind h.stores h.foreign h.inside (isInRange_iff.2 ⟨hin, hle⟩) ha
      · exact governs_before h.stores h.inside (Nat.lt_of_not_le hin) ha
    refine Or.inr ⟨congrArg WorkAddressRangeInfo.lastValidAddress hinfo, hstop.trans_le hend, ?_⟩
    simp only [CodeMap.load, hinfo]
    exact ⟨hfirst, hasc, habove, hmem⟩
  · -- behind the module the window is empty or has none of its addresses
    refine Or.inl fun x hlo _ => Bool.eq_false_iff.2 fun hx => ?_
    have hstart : (CodeMap.load sql w table address).start = address := rfl
    have := (isInRange_iff.1 hx).2
    omega

/-- A new window is in the module of the address. -/
theorem holds_load (h : Saved w table info st) (hclear : w.Clear info address) :
    (CodeMap.load sql w table address).Holds info st := by
  rcases hclear with ⟨m, hm, haddress⟩ | hinfo | hout
  · have hinfo := getRangeInfo_of_mem h.apart hm haddress
    by_cases hsame : m = info
    · exact holds_load_of_info h (hinfo.trans hsame)
    · have hrange := isInRange_iff.1 haddress
      have hend := (windowEnd_spec (h.apart.lt m hm) hrange.2).2
      refine Or.inl fun x hlo hhi => ?_
      simp only [CodeMap.load, hinfo] at hlo hhi
      refine Bool.eq_false_iff.2 fun hx => hsame ?_
      exact h.apart.unique hm h.mem (isInRange_iff.2 ⟨by omega, by omega⟩) hx
  · exact holds_load_of_info h hinfo
  · exact Or.inl hout

theorem holds_moved (h : Saved w table info st) (hs : s.Holds info st)
    (hclear : w.Clear info address) : (CodeMap.moved sql w table s address).Holds info st := by
  unfold CodeMap.moved
  split
  · exact holds_load h hclear
  · exact hs

/-- The window after a call holds the address. -/
theorem moved_window (hw : w.Apart) (hin : w.InModule address) :
    (CodeMap.moved sql w table s address).start ≤ address ∧
    address < (CodeMap.moved sql w table s address).stop := by
  unfold CodeMap.moved
  by_cases hmove : address < s.start ∨ address ≥ s.stop
  · obtain ⟨m, hm, haddress⟩ := hin
    rw [if_pos hmove]
    refine ⟨Nat.le_refl _, ?_⟩
    simp only [CodeMap.load, getRangeInfo_of_mem hw hm haddress]
    exact (windowEnd_spec (hw.lt m hm) (isInRange_iff.1 haddress).2).1
  · rw [if_neg hmove]
    rwa [not_or, Nat.not_lt, not_le] at hmove

/-- By induction on the calls. -/
theorem holds_runQueries (h : Saved w table info st) {addresses : List Nat}
    (hclear : ∀ a ∈ addresses, w.Clear info a) (hs : s.Holds info st) :
    (CodeMap.runQueries sql w table s addresses).Holds info st := by
  induction addresses generalizing s with
  | nil => exact hs
  | cons a addresses ih =>
    exact ih (fun b hb => hclear b (List.mem_cons_of_mem _ hb))
      (holds_moved h hs (hclear a List.mem_cons_self))

/-- The loop gives the value of the changes, and the first of them behind the address. -/
theorem scan_spec {first : ArmCodeKind} {next : Nat} {changes : List ArmCodeChange}
    (hasc : Ascending changes) :
    (CodeMap.scan address first next changes).1 = kindAt first changes address ∧
      ((∀ c ∈ changes, address < c.offset →
        (CodeMap.scan address first next changes).2 ≤ c.offset) ∧
        ((CodeMap.scan address first next changes).2 = next ∨
          ∃ c ∈ changes, c.offset = (CodeMap.scan address first next changes).2)) := by
  induction changes generalizing first with
  | nil => exact ⟨rfl, fun c hc => absurd hc List.not_mem_nil, Or.inl rfl⟩
  | cons c cs ih =>
    obtain ⟨hlt, hcs⟩ := List.pairwise_cons.1 hasc
    unfold CodeMap.scan
    by_cases hc : c.offset > address
    · rw [if_pos hc]
      refine ⟨(valueAt_cons_of_lt hc).symm, fun d hd _ => ?_, Or.inr ⟨c, List.mem_cons_self, rfl⟩⟩
      rcases List.mem_cons.1 hd with rfl | hd
      · exact Nat.le_refl _
      · exact Nat.le_of_lt (hlt d hd)
    · rw [if_neg hc]
      obtain ⟨hkind, hbelow, hnext⟩ := @ih c.kind hcs
      refine ⟨hkind.trans (kindAt_cons_of_le (Nat.not_lt.1 hc)).symm, fun d hd hda => ?_, ?_⟩
      · rcases List.mem_cons.1 hd with rfl | hd
        · exact absurd hda hc
        · exact hbelow d hd hda
      · exact hnext.imp_right fun ⟨d, hd, he⟩ => ⟨d, List.mem_cons_of_mem _ hd, he⟩

/-- A call for an address of the module gives its kind, and no kind changes before the
address that it returns. -/
theorem query_of_holds (h : Saved w table info st) (hs : s.Holds info st)
    (hin : info.isInRange address = true) :
    Governs st (getArmCodeKind info.dianaArch) address (CodeMap.query sql w table s address).1 ∧
      ∀ y, address < y → y < (CodeMap.query sql w table s address).2 → st y = none := by
  have hmodule : w.InModule address := ⟨info, h.mem, hin⟩
  have hholds := @holds_moved sql w table info address st s h hs (Or.inl hmodule)
  obtain ⟨hstart, hstop⟩ := @moved_window sql w table address s h.apart hmodule
  have hlt := h.apart.lt info h.mem
  unfold CodeMap.query
  dsimp only
  generalize CodeMap.moved sql w table s address = t at hholds hstart hstop
  rcases hholds with hout | ⟨hlast, hhi, hfirst, hasc, habove, hmem⟩
  · rw [hout address hstart hstop] at hin
    cases hin
  obtain ⟨hkind, hbelow, hnext⟩ := @scan_spec address t.first
    (if t.stop < add64 t.moduleLast 1 then t.stop else DI_MAX_OPERAND_SIZE) t.changes hasc
  rw [hkind]
  refine ⟨governs_valueAt hasc hfirst hmem (fun c hc => (habove c hc).1) hstart hstop,
    fun y hy hynext => ?_⟩
  refine Option.eq_none_iff_forall_ne_some.2 fun kind hst => ?_
  have hyin := isInRange_iff.1 (h.inside y kind hst)
  by_cases hywin : y < t.stop
  · obtain ⟨c, hc, rfl, -⟩ := (hmem y kind (by omega) hywin).1 hst
    have := hbelow c hc hy
    omega
  · -- behind the window: its end is returned unless it is that of the module
    rcases hnext with hdefault | ⟨c, hc, he⟩
    · rw [hdefault, hlast, add64_of_lt hlt] at hynext
      split at hynext <;> omega
    · have := (habove c hc).2
      omega

end

/-! ## An analysis saved and read -/

/-- The analysis result of an AArch32 module, with instructions and data marks at distinct
offsets. -/
structure ArmAnalysis (info : WorkAddressRangeInfo) where
  instructions : List ArmInstruction
  arm : isDianaArchArm32 info.dianaArch = true
  nodup : ((armEntries instructions).map ArmCodeChange.offset).Nodup
  offset_le : ∀ e ∈ armEntries instructions, info.address + e.offset ≤ info.lastValidAddress

namespace ArmAnalysis

variable {info : WorkAddressRangeInfo} (m : ArmAnalysis info)

/-- The instructions and data marks. -/
def entries : List ArmCodeChange := armEntries m.instructions

/-- `QueryArmCodeMap` -/
def changes : List ArmCodeChange := queryArmCodeMap info.dianaArch m.instructions

/-- No data ends at the end of the module or behind it. -/
def EndsInside : Prop := ArmCode.EndsInside (info.lastValidAddress + 1 - info.address) m.entries

theorem ascending_entries : Ascending m.entries := by
  have hperm :=
    ((sortEntries_perm (m.instructions.filterMap ArmInstruction.entry)).map
      ArmCodeChange.offset).nodup_iff
  exact ascending_sortEntries (hperm.1 m.nodup)

theorem changes_eq :
    m.changes = codeMapLoop (getArmCodeKind info.dianaArch)
    (getArmCodeKind info.dianaArch) m.entries := if_pos m.arm

theorem offset_lt {e : ArmCodeChange} (he : e ∈ m.entries) :
    e.offset < info.lastValidAddress + 1 - info.address := by
  have := m.offset_le e he
  omega

section

variable {m} (hlt : info.lastValidAddress + 1 < 2 ^ 64) (hends : m.EndsInside)

include hlt hends

theorem ascending_changes : Ascending m.changes := by
  rw [changes_eq]
  exact ascending_codeMapLoop m.ascending_entries hends (by omega)

theorem changes_offset_le {c : ArmCodeChange} (hc : c ∈ m.changes) :
    info.address + c.offset ≤ info.lastValidAddress := by
  rw [changes_eq] at hc
  have := offset_lt_of_mem_codeMapLoop (fun e he => m.offset_lt he) hends (by omega) hc
  omega

theorem kindAt_changes {e : ArmCodeChange} (he : e ∈ m.entries) :
    kindAt (getArmCodeKind info.dianaArch) m.changes e.offset = e.kind := by
  rw [changes_eq]
  exact kindAt_codeMapLoop m.ascending_entries hends (by omega) he

/-- What a database tells that had no code map of the module. -/
theorem storeChanges_changes {x : Nat} {kind : ArmCodeKind} :
    storeChanges info.address (fun _ => none) m.changes x = some kind ↔
      ∃ c ∈ m.changes, info.address + c.offset = x ∧ c.kind = kind := by
  have hfits : ∀ c ∈ m.changes, add64 info.address c.offset = info.address + c.offset := fun c hc =>
    add64_of_lt (by have := changes_offset_le hlt hends hc; omega)
  by_cases hmem : ∃ c ∈ m.changes, info.address + c.offset = x
  · obtain ⟨c, hc, hcx⟩ := hmem
    have hmax : x ≠ DI_MAX_OPERAND_SIZE := by
      have := changes_offset_le hlt hends hc
      unfold DI_MAX_OPERAND_SIZE
      omega
    have hoffset : ∀ d ∈ m.changes, add64 info.address d.offset = x ↔ d.offset = c.offset := by
      intro d hd
      rw [hfits d hd]
      omega
    rw [storeChanges_eq_some (ascending_changes hlt hends) hmax hoffset]
    constructor
    · rintro (⟨d, hd, he, hk⟩ | ⟨-, h⟩)
      · exact ⟨d, hd, by omega, hk⟩
      · cases h
    · rintro ⟨d, hd, he, hk⟩
      exact Or.inl ⟨d, hd, by omega, hk⟩
  · rw [storeChanges_of_ne fun c hc he => hmem ⟨c, hc, (hfits c hc).symm.trans he⟩]
    exact iff_of_false nofun fun ⟨c, hc, he, _⟩ => hmem ⟨c, hc, he⟩

/-- The kinds that were stored govern the instructions and data marks. -/
theorem governs_changes {e : ArmCodeChange} (he : e ∈ m.entries) :
    Governs (storeChanges info.address (fun _ => none) m.changes) (getArmCodeKind info.dianaArch)
      (info.address + e.offset) e.kind := by
  refine governs_shift (fun y hy v hst => ?_) ?_
  · obtain ⟨c, -, he, -⟩ := (storeChanges_changes hlt hends).1 hst
    omega
  · rw [← kindAt_changes hlt hends he]
    refine governs_valueAt_all (ascending_changes hlt hends) (fun y v _ => ?_)
      (Nat.lt_succ_self e.offset)
    rw [storeChanges_changes hlt hends]
    simp only [Nat.add_left_cancel_iff]

end

end ArmAnalysis

section

variable {table : List MetaRow} {info : WorkAddressRangeInfo}

/-- A save of one module leaves the rows of the others. -/
theorem mem_of_mem_saveArmCodeMap {base : Nat} {changes : List ArmCodeChange} {r : MetaRow}
    (hne : r.modId ≠ base) (hr : r ∈ saveArmCodeMap table base changes) : r ∈ table := by
  induction changes generalizing table with
  | nil => exact hr
  | cons c cs ih =>
    have hr : r ∈ insertMetaInfo table base g_database_type_armCodeMap (getArmCodeKindName c.kind)
        (add64 base c.offset) true := ih hr
    unfold insertMetaInfo at hr
    split at hr
    · obtain ⟨r', hr', rfl⟩ := List.mem_map.1 hr
      by_cases hat : r'.isAt base g_database_type_armCodeMap (metaKey (add64 base c.offset)) = true
      · rw [if_pos hat] at hne
        exact absurd (isAt_iff.1 hat).1.1 hne
      · rwa [if_neg hat]
    · rcases List.mem_append.1 hr with hr | hr
      · exact hr
      · rw [List.mem_singleton.1 hr] at hne
        exact absurd rfl hne

/-- After a save into a database that had no code map of the module, calls of `Query` give every
instruction and data mark its kind, and no stored change is skipped, when the stored changes lie in
their modules and no window reaches into the module from outside of the modules. -/
theorem query_armCodeMap (sql : MetaSqlite) {w : Workplace} (hw : w.Apart) (hmem : info ∈ w.modules)
    (m : ArmAnalysis info) (hnone : ∀ r ∈ table, ¬ r.Own info.address)
    (hforeign : Foreign table info) (hends : m.EndsInside) {addresses : List Nat}
    (hclear : ∀ a ∈ addresses, w.Clear info a) :
    let saved := saveArmCodeMap table info.address m.changes
    ∀ e ∈ m.entries,
      let answer :=
  (CodeMap.runQueries sql w saved CodeMap.new addresses).query sql w saved (info.address + e.offset)
      answer.1 = e.kind ∧ ∀ r ∈ saved, r.Own info.address → ∀ v, r.metaAddress = some v →
        ¬ (info.address + e.offset < ofDb v ∧ ofDb v < answer.2) := by
  intro saved e he answer
  have hlt := hw.lt info hmem
  have hstores : Stores saved info.address (storeChanges info.address (fun _ => none) m.changes) :=
    stores_saveArmCodeMap (stores_none hnone) m.changes
  have hsaved : Saved w saved info (storeChanges info.address (fun _ => none) m.changes) := by
    refine ⟨hw, hmem, hstores, fun y kind hst => ?_, fun r hr htype hne => ?_⟩
    · obtain ⟨c, hc, rfl, -⟩ := (ArmAnalysis.storeChanges_changes hlt hends).1 hst
      exact isInRange_iff.2 ⟨Nat.le_add_right _ _, ArmAnalysis.changes_offset_le hlt hends hc⟩
    · exact hforeign r (mem_of_mem_saveArmCodeMap hne hr) htype hne
  have hrange : info.isInRange (info.address + e.offset) = true :=
    isInRange_iff.2 ⟨Nat.le_add_right _ _, m.offset_le e he⟩
  obtain ⟨hkind, hquiet⟩ :=
    query_of_holds hsaved (@holds_runQueries sql _ _ _ _ _ hsaved addresses hclear holds_new) hrange
  refine ⟨hkind.unique (ArmAnalysis.governs_changes hlt hends he),
    fun r hr hown v hv hbetween => ?_⟩
  obtain ⟨kind, -, hst⟩ := hstores.sound r hr hown v hv
  rw [hquiet (ofDb v) hbetween.1 hbetween.2] at hst
  cases hst

end

/-! ## A database -/

/-- Rows with the same address in the order of an index: the later one first when it is read
backwards. -/
def indexedSqlite : MetaSqlite where
  selectNearest table t a :=
    (table.filter (MetaRow.upTo t a)).reverse.insertionSort fun r r' => r'.address ≤ r.address
  selectRange table t lo hi :=
    (table.filter (MetaRow.within t lo hi)).insertionSort fun r r' => r.address ≤ r'.address
  nearest_perm _ _ _ := (List.perm_insertionSort _ _).trans (List.reverse_perm _)
  nearest_ordered _ _ _ := by
    have : Std.Total fun r r' : MetaRow => r'.address ≤ r.address := ⟨fun r r' => Nat.le_total _ _⟩
    have : IsTrans MetaRow fun r r' => r'.address ≤ r.address :=
      ⟨fun _ _ _ h h' => Nat.le_trans h' h⟩
    exact List.pairwise_insertionSort _ _
  range_perm _ _ _ _ := List.perm_insertionSort _ _
  range_ordered _ _ _ _ := by
    have : Std.Total fun r r' : MetaRow => r.address ≤ r'.address := ⟨fun r r' => Nat.le_total _ _⟩
    have : IsTrans MetaRow fun r r' => r.address ≤ r'.address := ⟨fun _ _ _ => Nat.le_trans⟩
    exact List.pairwise_insertionSort _ _

/-- A module of a page, and its process. -/
def pageModule : WorkAddressRangeInfo := ⟨0x2000, 0x2fff, .arm32⟩

def pageWorkplace : Workplace := .process [pageModule] (2 ^ 32) .arm32

theorem pageModule_arm : isDianaArchArm32 pageModule.dianaArch := rfl

theorem pageWorkplace_apart : pageWorkplace.Apart :=
  ⟨by decide, by decide, List.pairwise_singleton _ _⟩

/-- T32 code at the start and a literal behind it. -/
def thumbLiteral : ArmAnalysis pageModule where
  instructions := [⟨0, false, false, false, false, false, true⟩,
    ⟨2, false, true, true, false, false, false⟩, ⟨4, false, true, true, false, false, false⟩]
  arm := rfl
  nodup := by decide
  offset_le := by decide

/-- A literal at the end. -/
def lastLiteral : ArmAnalysis pageModule where
  instructions :=
    [⟨0xffc, false, true, true, false, false, false⟩,
      ⟨0xffe, false, true, true, false, false, false⟩]
  arm := rfl
  nodup := by decide
  offset_le := by decide

example : thumbLiteral.changes = [⟨0, .t32⟩, ⟨2, .data⟩, ⟨6, .a32⟩] := by decide

theorem query_armCodeMap_page :
    (CodeMap.query indexedSqlite pageWorkplace
      (saveArmCodeMap [] pageModule.address thumbLiteral.changes)
      (CodeMap.runQueries indexedSqlite pageWorkplace
        (saveArmCodeMap [] pageModule.address thumbLiteral.changes) CodeMap.new [0x2800, 0x2004])
        (pageModule.address + 2)).1 = .data :=
  have hin : ∀ a ∈ [0x2800, 0x2004], pageModule.isInRange a = true := by decide
  (query_armCodeMap indexedSqlite pageWorkplace_apart (List.mem_singleton_self _) thumbLiteral
    (fun _ h => absurd h List.not_mem_nil) (fun _ h => absurd h List.not_mem_nil)
    (by unfold ArmAnalysis.EndsInside; decide)
    (fun a ha => Or.inl ⟨pageModule, List.mem_singleton_self _, hin a ha⟩)
    ⟨2, .data⟩ (by decide)).1

theorem not_query_armCodeMap :
    -- the window before the module reaches into it
    (CodeMap.query indexedSqlite pageWorkplace
      (saveArmCodeMap [] pageModule.address thumbLiteral.changes)
      (CodeMap.runQueries indexedSqlite pageWorkplace
        (saveArmCodeMap [] pageModule.address thumbLiteral.changes) CodeMap.new [0x1ff0])
        (pageModule.address + 0)).1 ≠ .t32 ∧
    -- the change behind the last literal is not found
    ∃ r ∈ saveArmCodeMap [] pageModule.address lastLiteral.changes, r.Own pageModule.address ∧
      r.metaAddress = some (toDb 0x3000) ∧ 0x2ffc < 0x3000 ∧
      0x3000 < (CodeMap.query indexedSqlite pageWorkplace
        (saveArmCodeMap [] pageModule.address lastLiteral.changes) CodeMap.new
        (pageModule.address + 0xffc)).2 := by
  refine ⟨by decide +kernel, ⟨0x2000, some (toDb 0x3000), 5, "a32"⟩, by decide +kernel, ⟨rfl, rfl⟩,
    rfl, by decide +kernel⟩

end Diana.Orthia.ArmCode
