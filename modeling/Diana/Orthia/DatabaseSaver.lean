import Diana.Analyze.Owner
import Diana.Lib.Indices
import Diana.Lib.SortedVec
import Diana.Orthia.FloatingCollect
import Mathlib.Data.List.Perm.Basic
import Mathlib.Data.List.Sort
import Mathlib.Data.Prod.Lex

/-!
# Saving an analysis

`CDatabaseSaver` goes through the instructions of an analyzed module and inserts a row of
`tbl_references` for every cross reference. A reference to an instruction of the module is found at
its target, a reference that leaves the module or goes to its data is found at its source.
`SaveWithDedup` leaves out the pairs that the table has already, by binary search in the pairs
sorted by source and in the pairs sorted by target.

* `Sqlite`: what the one `SELECT` of the pass gives;
* `DianaModule`: the analysis result;
* `saved_iff`: when the table has the pairs of the analysis result behind the pass.
-/

namespace Diana.Orthia.Saver

open Diana.Lib Diana.Analyze

/-- `std::pair<Address_type, Address_type>` with its order. -/
abbrev XRefPair := Address ×ₗ Address

/-! ## The table -/

/-- `sqlite3_int64`, compared as signed -/
abbrev SqlInt := BitVec 64

/-- `AddrToDb` -/
def addrToDb (a : Address) : SqlInt := BitVec.ofFin a ^^^ 0x8000000000000000#64

/-- `DbToAddr` -/
def dbToAddr (v : SqlInt) : Address := (v ^^^ 0x8000000000000000#64).toFin

/-- A row of `tbl_references` -/
structure ReferenceRow where
  refAddressFrom : SqlInt
  refAddressTo : SqlInt
  refKind : ReferenceKind
  deriving DecidableEq

/-- `ORDER BY ref_address_from, ref_address_to` -/
def ReferenceRow.le (r r' : ReferenceRow) : Prop :=
  r.refAddressFrom.toInt < r'.refAddressFrom.toInt ∨
    r.refAddressFrom = r'.refAddressFrom ∧ r.refAddressTo.toInt ≤ r'.refAddressTo.toInt

/-- `ref_address_from BETWEEN lo AND hi` -/
def ReferenceRow.between (lo hi : SqlInt) (r : ReferenceRow) : Bool :=
  lo.toInt ≤ r.refAddressFrom.toInt ∧ r.refAddressFrom.toInt ≤ hi.toInt

/-- SQLite as the statement `m_stmtSelectReferencesFromRange` uses it. The order of rows with the
same addresses is not said. -/
structure Sqlite where
  selectReferencesFromRange : List ReferenceRow → SqlInt → SqlInt → List ReferenceRow
  perm : ∀ table lo hi,
    (selectReferencesFromRange table lo hi).Perm (table.filter (ReferenceRow.between lo hi))
  ordered : ∀ table lo hi, (selectReferencesFromRange table lo hi).Pairwise ReferenceRow.le

/-- `InsertReference`: the table has no unique key, so `INSERT OR REPLACE` inserts. -/
def insertReference (table : List ReferenceRow) (refFrom refTo : Address) (kind : ReferenceKind) :
    List ReferenceRow :=
  table ++ [⟨addrToDb refFrom, addrToDb refTo, kind⟩]

/-- `CommonReferenceInfo` -/
structure CommonReferenceInfo where
  address : Address
  kind : ReferenceKind
  deriving DecidableEq

def insertReferencesToInstruction (table : List ReferenceRow) (offset : Address)
    (references : List CommonReferenceInfo) : List ReferenceRow :=
  references.foldl (fun table r => insertReference table r.address offset r.kind) table

def insertReferencesFromInstruction (table : List ReferenceRow) (offset : Address)
    (references : List CommonReferenceInfo) : List ReferenceRow :=
  references.foldl (fun table r => insertReference table offset r.address r.kind) table

/-- `QueryAllModuleReferences` with `ModuleReference` -/
def queryAllModuleReferences (sql : Sqlite) (table : List ReferenceRow) (base size : Address) :
    List Collect.ModuleReference :=
  if size = 0 then []
  else
    -- up to the last byte of the module
    (sql.selectReferencesFromRange table (addrToDb base) (addrToDb (base + size - 1))).map fun r =>
      ⟨dbToAddr r.refAddressFrom, dbToAddr r.refAddressTo, r.refKind⟩

/-- `QueryAllModuleReferences` with pairs -/
def queryAllModuleReferencePairs (sql : Sqlite) (table : List ReferenceRow) (base size : Address) :
    List XRefPair :=
  (queryAllModuleReferences sql table base size).map fun r => toLex (r.refFrom, r.refTo)

/-! ## The analysis result -/

/-- `CDianaModule` after its analysis. `instructionsVec` are the offsets of the instructions of
`m_pInstructionsVec`, in the order they were found. A reference to an instruction of the module has
neither of the flags `DI_XREF_EXTERNAL` and `DI_XREF_DATA`, a reference to an entry of the external
list has one. -/
structure DianaModule where
  address : Address
  size : Address
  owner : Owner
  instructionsVec : List Nat
  nodup : instructionsVec.Nodup
  mem_presenceVec : ∀ o ∈ instructionsVec, (owner.presenceVec o).isSome
  offset_lt : ∀ o ∈ instructionsVec, o < size.val
  source_mem : ∀ x ∈ owner.xrefs, x.source ∈ instructionsVec
  inside : ∀ x ∈ owner.xrefs, ∀ o, x.target = .inside o →
    o ∈ instructionsVec ∧ x.flags.external = false ∧ x.flags.data = false
  outside : ∀ x ∈ owner.xrefs, ∀ j, x.target = .outside j →
    x.flags.external = true ∨ x.flags.data = true

/-- `GetReferenceKind` -/
def getReferenceKind (x : XRef) : ReferenceKind :=
  if x.flags.data then .data else if x.flags.addressTaken then .address else .code

namespace DianaModule

variable (m : DianaModule)

/-- The instructions that the iterator stops at. -/
def isListed (o : Nat) : Bool :=
  match m.owner.presenceVec o with
  | some i => !(i.flags.external || i.flags.invalid)
  | none => false

/-- `CDianaInstructionIterator` -/
def instructions : List Nat := m.instructionsVec.filter m.isListed

/-- The address of an offset of the module -/
def absolute (o : Nat) : Address := Fin.ofNat (2 ^ 64) o + m.address

/-- `m_offset` of the target -/
def targetOffset (x : XRef) : Nat :=
  match x.target with
  | .inside o => o
  | .outside j => (m.owner.externals[j]?.map Instruction.offset).getD 0

/-- `QueryRefsToCurrentInstuction` -/
def queryRefsTo (o : Nat) : List CommonReferenceInfo :=
  (m.owner.xrefs.filter fun x => x.target = .inside o).filterMap fun x =>
    if x.flags.invalid then none else some ⟨m.absolute x.source, getReferenceKind x⟩

/-- `QueryRefsFromCurrentInstruction` -/
def queryRefsFrom (o : Nat) : List CommonReferenceInfo :=
  (m.owner.xrefs.filter fun x => x.source = o).filterMap fun x =>
    if x.flags.invalid then none
    else if x.flags.external then
      some ⟨Fin.ofNat (2 ^ 64) (m.targetOffset x), getReferenceKind x⟩
    else if x.flags.data then some ⟨m.absolute (m.targetOffset x), getReferenceKind x⟩
    else none

end DianaModule

/-! ## The saver -/

/-- `ExternalTargetFilter_type` -/
abbrev ExternalTargetFilter := Option (Address → Bool)

/-- `IsDropped` -/
def isDropped (filter : ExternalTargetFilter) (m : DianaModule) (ref : CommonReferenceInfo) :
    Bool :=
  match filter with
  | none => false
  | some f =>
    if ref.kind ≠ .address then false
    else if ref.address - m.address < m.size then false
    else !f ref.address

/-- `Save`, as it goes through one instruction -/
def saveInstruction (filter : ExternalTargetFilter) (m : DianaModule) (table : List ReferenceRow)
    (o : Nat) : List ReferenceRow :=
  let table := insertReferencesToInstruction table (m.absolute o) (m.queryRefsTo o)
  insertReferencesFromInstruction table (m.absolute o)
    ((m.queryRefsFrom o).filter fun r => !isDropped filter m r)

/-- `Save` -/
def save (filter : ExternalTargetFilter) (m : DianaModule) (table : List ReferenceRow) :
    List ReferenceRow :=
  m.instructions.foldl (saveInstruction filter m) table

/-- `std::sort` of pairs -/
def sortPairs (l : List XRefPair) : List XRefPair := l.insertionSort (· ≤ ·)

/-- `xrefExistsTo` and `xrefExistsFrom`: a binary search in sorted pairs -/
def xrefExists (sorted : List XRefPair) (key : XRefPair) : Bool :=
  (SortedVec.find id key sorted).isSome

/-- `SaveWithDedup`, as it goes through one instruction -/
def saveInstructionWithDedup (filter : ExternalTargetFilter) (m : DianaModule)
    (byFrom byTo : List XRefPair) (table : List ReferenceRow) (o : Nat) : List ReferenceRow :=
  let table := insertReferencesToInstruction table (m.absolute o)
    ((m.queryRefsTo o).filter fun r => !xrefExists byTo (toLex (m.absolute o, r.address)))
  insertReferencesFromInstruction table (m.absolute o)
    ((m.queryRefsFrom o).filter fun r =>
      !xrefExists byFrom (toLex (m.absolute o, r.address)) && !isDropped filter m r)

/-- `SaveWithDedup` -/
def saveWithDedup (sql : Sqlite) (filter : ExternalTargetFilter) (m : DianaModule)
    (table : List ReferenceRow) : List ReferenceRow :=
  let byFrom := queryAllModuleReferencePairs sql table m.address m.size
  let byTo := sortPairs (byFrom.map fun p => toLex ((ofLex p).2, (ofLex p).1))
  m.instructions.foldl (saveInstructionWithDedup filter m byFrom byTo) table

/-! ## Addresses in the table -/

@[simp] theorem dbToAddr_addrToDb (a : Address) : dbToAddr (addrToDb a) = a := by
  unfold dbToAddr addrToDb
  rw [BitVec.xor_assoc, BitVec.xor_self, BitVec.xor_zero]

theorem addrToDb_dbToAddr (v : SqlInt) : addrToDb (dbToAddr v) = v := by
  unfold addrToDb dbToAddr
  rw [show BitVec.ofFin (v ^^^ 0x8000000000000000#64).toFin = v ^^^ 0x8000000000000000#64 from rfl,
    BitVec.xor_assoc, BitVec.xor_self, BitVec.xor_zero]

theorem xor_two_pow_63_of_lt {n : Nat} (h : n < 2 ^ 63) : n ^^^ 2 ^ 63 = n + 2 ^ 63 := by
  apply Nat.eq_of_testBit_eq
  intro i
  rw [Nat.testBit_xor, Nat.testBit_two_pow, Nat.add_comm]
  rcases Nat.lt_trichotomy i 63 with hi | rfl | hi
  · simp [Nat.testBit_two_pow_add_gt hi, show 63 ≠ i by omega]
  · rw [Nat.testBit_two_pow_add_eq]
    simp
  · have hp : 2 ^ 64 ≤ 2 ^ i := Nat.pow_le_pow_right (by decide) hi
    rw [Nat.testBit_lt_two_pow (by omega), Nat.testBit_lt_two_pow (by omega)]
    simp
    omega

theorem xor_two_pow_63 {n : Nat} (h : n < 2 ^ 64) :
    n ^^^ 2 ^ 63 = if n < 2 ^ 63 then n + 2 ^ 63 else n - 2 ^ 63 := by
  split
  case isTrue hn => exact xor_two_pow_63_of_lt hn
  case isFalse hn =>
    obtain ⟨k, rfl⟩ := Nat.exists_eq_add_of_le' (Nat.not_lt.1 hn)
    rw [← xor_two_pow_63_of_lt (by omega), Nat.xor_assoc, Nat.xor_self, Nat.xor_zero,
      xor_two_pow_63_of_lt (by omega)]
    omega

/-- The sign flip takes the order of addresses to the signed order of the columns. -/
theorem addrToDb_toInt (a : Address) : (addrToDb a).toInt = (a.val : Int) - 2 ^ 63 := by
  have h := xor_two_pow_63 a.isLt
  have ht : (addrToDb a).toNat = a.val ^^^ 2 ^ 63 := rfl
  rw [BitVec.toInt_eq_toNat_cond, ht, h]
  split <;> split <;> omega

theorem toInt_eq (v : SqlInt) : v.toInt = ((dbToAddr v).val : Int) - 2 ^ 63 := by
  rw [← addrToDb_toInt, addrToDb_dbToAddr]

/-- The addresses of a row -/
def ReferenceRow.pair (r : ReferenceRow) : XRefPair :=
  toLex (dbToAddr r.refAddressFrom, dbToAddr r.refAddressTo)

theorem ReferenceRow.pair_le {r r' : ReferenceRow} (h : r.le r') : r.pair ≤ r'.pair := by
  rw [ReferenceRow.le, toInt_eq, toInt_eq, toInt_eq, toInt_eq] at h
  rw [Prod.Lex.le_iff]
  rcases h with h | ⟨h, h'⟩
  · exact .inl (Fin.lt_def.2 (by simp only [pair, ofLex_toLex]; omega))
  · exact .inr ⟨congrArg dbToAddr h, Fin.le_def.2 (by simp only [pair, ofLex_toLex]; omega)⟩

theorem between_addrToDb (lo hi : Address) (r : ReferenceRow) :
    r.between (addrToDb lo) (addrToDb hi) = true ↔
      lo ≤ dbToAddr r.refAddressFrom ∧ dbToAddr r.refAddressFrom ≤ hi := by
  rw [ReferenceRow.between, addrToDb_toInt, addrToDb_toInt, toInt_eq, decide_eq_true_iff,
    Fin.le_def, Fin.le_def]
  omega

/-! ## What the queries give -/

section Query

variable (sql : Sqlite) (table : List ReferenceRow) (m : DianaModule)

/-- The pairs of the table -/
def pairs (table : List ReferenceRow) : List XRefPair := table.map ReferenceRow.pair

/-- The address is in the module. -/
def DianaModule.inside? (m : DianaModule) (a : Address) : Bool := a - m.address < m.size

/-- The pairs from inside the module -/
def DianaModule.referencesFrom (m : DianaModule) (table : List ReferenceRow) : List XRefPair :=
  (pairs table).filter fun p => m.inside? (ofLex p).1

theorem queryPairs_eq (base size : Address) :
    queryAllModuleReferencePairs sql table base size =
      if size = 0 then []
      else (sql.selectReferencesFromRange table (addrToDb base)
        (addrToDb (base + size - 1))).map ReferenceRow.pair := by
  unfold queryAllModuleReferencePairs queryAllModuleReferences
  split
  · rfl
  · rw [List.map_map]
    rfl

theorem queryPairs_sorted (base size : Address) :
    (queryAllModuleReferencePairs sql table base size).Pairwise (· ≤ ·) := by
  rw [queryPairs_eq]
  split
  · exact List.Pairwise.nil
  · exact List.Pairwise.map _ (fun _ _ h => ReferenceRow.pair_le h) (sql.ordered _ _ _)

/-- The module ends before the address space does. -/
def DianaModule.Fits (m : DianaModule) : Prop := m.address.val + m.size.val ≤ 2 ^ 64

theorem between_iff_inside {base size a : Address} (h : base.val + size.val ≤ 2 ^ 64)
    (hs : size ≠ 0) : (base ≤ a ∧ a ≤ base + size - 1) ↔ a - base < size := by
  have hs' : size.val ≠ 0 := fun h => hs (Fin.ext h)
  have h1 : (base + size - 1).val = base.val + size.val - 1 := by
    rw [Fin.val_sub, Fin.val_add]
    have : (1 : Address).val = 1 := rfl
    omega
  have h2 := Fin.val_sub a base
  rw [Fin.le_def, Fin.le_def, Fin.lt_def, h1, h2]
  omega

theorem not_between_of_wraps {base size a : Address} (h : 2 ^ 64 < base.val + size.val) :
    ¬ (base ≤ a ∧ a ≤ base + size - 1) := by
  have h1 : (base + size - 1).val = base.val + size.val - 1 - 2 ^ 64 := by
    rw [Fin.val_sub, Fin.val_add]
    have : (1 : Address).val = 1 := rfl
    omega
  rw [Fin.le_def, Fin.le_def, h1]
  omega

theorem mem_queryPairs_iff (h : m.Fits) {p : XRefPair} :
    p ∈ queryAllModuleReferencePairs sql table m.address m.size ↔ p ∈ m.referencesFrom table := by
  rw [queryPairs_eq, DianaModule.referencesFrom, List.mem_filter, pairs]
  split
  case isTrue hs => simp [DianaModule.inside?, hs]
  case isFalse hs =>
    simp only [List.mem_map, (sql.perm _ _ _).mem_iff, List.mem_filter, between_addrToDb,
      between_iff_inside h hs, DianaModule.inside?, decide_eq_true_iff]
    constructor
    · rintro ⟨r, ⟨hr, hb⟩, rfl⟩
      exact ⟨⟨r, hr, rfl⟩, hb⟩
    · rintro ⟨⟨r, hr, rfl⟩, hb⟩
      exact ⟨r, ⟨hr, hb⟩, rfl⟩

theorem queryPairs_of_wraps (h : ¬ m.Fits) :
    queryAllModuleReferencePairs sql table m.address m.size = [] := by
  rw [queryPairs_eq]
  split
  · rfl
  · have hn := sql.perm table (addrToDb m.address) (addrToDb (m.address + m.size - 1))
    rw [List.filter_eq_nil_iff.2 fun r _ hb =>
      not_between_of_wraps (Nat.not_le.1 h) ((between_addrToDb _ _ r).1 hb)] at hn
    rw [hn.eq_nil, List.map_nil]

end Query

theorem xrefExists_iff {l : List XRefPair} {p : XRefPair} (hs : l.Pairwise (· ≤ ·)) :
    xrefExists l p = true ↔ p ∈ l := by
  have hs' : l.Pairwise fun a b => id a ≤ id b := hs
  rw [xrefExists, SortedVec.find_isSome_iff hs']
  simp

theorem xrefExists_byTo {byFrom : List XRefPair} {a b : Address} :
    xrefExists (sortPairs (byFrom.map fun p => toLex ((ofLex p).2, (ofLex p).1))) (toLex (b, a)) =
      true ↔ toLex (a, b) ∈ byFrom := by
  rw [sortPairs, xrefExists_iff (List.pairwise_insertionSort _ _),
    (List.perm_insertionSort _ _).mem_iff, List.mem_map]
  constructor
  · rintro ⟨p, hp, he⟩
    have h1 : (ofLex p).2 = b := congrArg (fun q : XRefPair => (ofLex q).1) he
    have h2 : (ofLex p).1 = a := congrArg (fun q : XRefPair => (ofLex q).2) he
    rwa [← h1, ← h2]
  · exact fun h => ⟨_, h, rfl⟩

/-! ## What the saver adds -/

theorem pairs_insertReferencesTo (table : List ReferenceRow) (o : Address)
    (refs : List CommonReferenceInfo) :
    pairs (insertReferencesToInstruction table o refs) =
      pairs table ++ refs.map fun r => toLex (r.address, o) := by
  induction refs generalizing table with
  | nil => simp [insertReferencesToInstruction]
  | cons r refs ih =>
    rw [show insertReferencesToInstruction table o (r :: refs) =
      insertReferencesToInstruction (insertReference table r.address o r.kind) o refs from rfl, ih]
    simp [pairs, insertReference, ReferenceRow.pair]

theorem pairs_insertReferencesFrom (table : List ReferenceRow) (o : Address)
    (refs : List CommonReferenceInfo) :
    pairs (insertReferencesFromInstruction table o refs) =
      pairs table ++ refs.map fun r => toLex (o, r.address) := by
  induction refs generalizing table with
  | nil => simp [insertReferencesFromInstruction]
  | cons r refs ih =>
    rw [show insertReferencesFromInstruction table o (r :: refs) =
      insertReferencesFromInstruction (insertReference table o r.address r.kind) o refs from rfl,
      ih]
    simp [pairs, insertReference, ReferenceRow.pair]

/-- The pairs found at one instruction -/
def DianaModule.pairsAt (m : DianaModule) (filter : ExternalTargetFilter) (o : Nat) :
    List XRefPair :=
  ((m.queryRefsTo o).map fun r => toLex (r.address, m.absolute o)) ++
    ((m.queryRefsFrom o).filter fun r => !isDropped filter m r).map fun r =>
      toLex (m.absolute o, r.address)

theorem pairs_saveInstruction (filter : ExternalTargetFilter) (m : DianaModule)
    (table : List ReferenceRow) (o : Nat) :
    pairs (saveInstruction filter m table o) = pairs table ++ m.pairsAt filter o := by
  rw [saveInstruction, pairs_insertReferencesFrom, pairs_insertReferencesTo, List.append_assoc,
    DianaModule.pairsAt]

theorem pairs_save (filter : ExternalTargetFilter) (m : DianaModule) (table : List ReferenceRow) :
    pairs (save filter m table) = pairs table ++ m.instructions.flatMap (m.pairsAt filter) := by
  unfold save
  induction m.instructions generalizing table with
  | nil => simp
  | cons o os ih => rw [List.foldl_cons, ih, pairs_saveInstruction, List.flatMap_cons,
      List.append_assoc]

theorem pairs_saveInstructionWithDedup (filter : ExternalTargetFilter) (m : DianaModule)
    {byFrom : List XRefPair} (hs : byFrom.Pairwise (· ≤ ·)) (table : List ReferenceRow) (o : Nat) :
    pairs (saveInstructionWithDedup filter m byFrom
        (sortPairs (byFrom.map fun p => toLex ((ofLex p).2, (ofLex p).1))) table o) =
      pairs table ++ (m.pairsAt filter o).filter fun p => p ∉ byFrom := by
  rw [saveInstructionWithDedup, pairs_insertReferencesFrom, pairs_insertReferencesTo,
    List.append_assoc, DianaModule.pairsAt, List.filter_append, List.filter_map, List.filter_map,
    List.filter_filter]
  congr 3
  · refine List.filter_congr fun r _ => ?_
    rw [Bool.eq_iff_iff]
    simp [xrefExists_byTo, ← Bool.not_eq_true]
  · refine List.filter_congr fun r _ => ?_
    rw [Bool.eq_iff_iff]
    simp [xrefExists_iff hs, ← Bool.not_eq_true]

theorem pairs_saveWithDedup (sql : Sqlite) (filter : ExternalTargetFilter) (m : DianaModule)
    (table : List ReferenceRow) :
    pairs (saveWithDedup sql filter m table) =
      pairs table ++ (m.instructions.flatMap (m.pairsAt filter)).filter fun p =>
        p ∉ queryAllModuleReferencePairs sql table m.address m.size := by
  have hs := queryPairs_sorted sql table m.address m.size
  unfold saveWithDedup
  generalize queryAllModuleReferencePairs sql table m.address m.size = byFrom at hs
  induction m.instructions generalizing table with
  | nil => simp
  | cons o os ih =>
    rw [List.foldl_cons, ih, pairs_saveInstructionWithDedup filter m hs, List.flatMap_cons,
      List.filter_append, List.append_assoc]

/-! ## The references of a result -/

namespace DianaModule

variable (m : DianaModule) (filter : ExternalTargetFilter)

/-- The instruction at which the saver finds a reference: its target, if that is an instruction of
the module, else its source. -/
def foundAt (x : XRef) : Nat :=
  match x.target with
  | .inside o => o
  | .outside _ => x.source

/-- The address a reference goes to -/
def targetAddress (x : XRef) : Address :=
  match x.target with
  | .inside o => m.absolute o
  | .outside _ =>
    if x.flags.external then Fin.ofNat (2 ^ 64) (m.targetOffset x)
      else m.absolute (m.targetOffset x)

def pairOf (x : XRef) : XRefPair := toLex (m.absolute x.source, m.targetAddress x)

/-- `IsDropped` says so of the reference. -/
def drops (x : XRef) : Bool := isDropped filter m ⟨m.targetAddress x, getReferenceKind x⟩

/-- The references of the result: the valid ones, to an instruction that is code or from one. -/
def references : List XRef :=
  m.owner.xrefs.filter fun x => !x.flags.invalid && m.isListed (foundAt x)

/-- The pairs of the result that are not dropped. -/
def resultPairs : List XRefPair := (m.references.filter fun x => !m.drops filter x).map m.pairOf

theorem foundAt_mem {x : XRef} (hx : x ∈ m.owner.xrefs) : foundAt x ∈ m.instructionsVec := by
  unfold foundAt
  split
  case h_1 o ho => exact (m.inside x hx o ho).1
  case h_2 => exact m.source_mem x hx

theorem inside_absolute {o : Nat} (h : o ∈ m.instructionsVec) :
    m.inside? (m.absolute o) = true := by
  have ho := m.offset_lt o h
  have hs := m.size.isLt
  have ha := m.address.isLt
  rw [inside?, decide_eq_true_iff, absolute, Fin.lt_def, Fin.val_sub, Fin.val_add, Fin.val_ofNat]
  omega

theorem isDropped_inside {ref : CommonReferenceInfo} (h : m.inside? ref.address = true) :
    isDropped filter m ref = false := by
  unfold isDropped
  have h' : ref.address - m.address < m.size := of_decide_eq_true h
  cases filter <;> simp [h']

theorem drops_inside {x : XRef} {o : Nat} (hx : x ∈ m.owner.xrefs) (ho : x.target = .inside o) :
    m.drops filter x = false := by
  refine m.isDropped_inside filter ?_
  simp only [targetAddress, ho]
  exact m.inside_absolute (m.inside x hx o ho).1

/-- The valid references found at an instruction that are not dropped -/
def keptAt (o : Nat) : List XRef :=
  m.owner.xrefs.filter fun x => !x.flags.invalid && !m.drops filter x && foundAt x = o

theorem pairsTo_eq (o : Nat) :
    ((m.queryRefsTo o).map fun r => toLex (r.address, m.absolute o)) =
      ((m.keptAt filter o).filter fun x => x.target = .inside o).map m.pairOf := by
  unfold queryRefsTo keptAt
  rw [List.filter_filter, List.map_filterMap, ← List.filterMap_eq_map, List.filterMap_filter,
    List.filterMap_filter]
  refine List.filterMap_congr fun x hx => ?_
  by_cases ht : x.target = .inside o
  · have hd := m.drops_inside filter hx ht
    by_cases hi : x.flags.invalid <;> simp [ht, hi, hd, foundAt, pairOf, targetAddress]
  · simp [ht]

theorem pairsFrom_eq (o : Nat) :
    (((m.queryRefsFrom o).filter fun r => !isDropped filter m r).map fun r =>
        toLex (m.absolute o, r.address)) =
      ((m.keptAt filter o).filter fun x => ¬ x.target = .inside o).map m.pairOf := by
  unfold queryRefsFrom keptAt
  rw [List.filter_filter, List.filter_filterMap, List.map_filterMap, ← List.filterMap_eq_map,
    List.filterMap_filter, List.filterMap_filter]
  refine List.filterMap_congr fun x hx => ?_
  cases ht : x.target with
  | inside o' =>
    -- found at its target, which is no entry of the external list
    obtain ⟨-, he, hd⟩ := m.inside x hx o' ht
    by_cases ho : o' = o <;> simp [ho, he, hd, foundAt, ht]
  | outside j =>
    have hf := m.outside x hx j ht
    by_cases ho : x.source = o
    · by_cases hi : x.flags.invalid <;> by_cases he : x.flags.external <;>
        simp_all [foundAt, drops, pairOf, targetAddress, Option.filter]
    · simp [ho, foundAt, ht]

theorem pairsAt_perm (o : Nat) :
    (m.pairsAt filter o).Perm ((m.keptAt filter o).map m.pairOf) := by
  rw [pairsAt, m.pairsTo_eq filter, pairsFrom_eq, ← List.map_append]
  have h := (m.keptAt filter o).filter_append_perm fun x => x.target = .inside o
  simp only [← decide_not] at h
  exact h.map _

theorem flatMap_keptAt_perm :
    (m.instructions.flatMap (m.keptAt filter)).Perm
      (m.references.filter fun x => !m.drops filter x) := by
  have h := flatMap_filter_perm foundAt
    (m.owner.xrefs.filter fun x => !x.flags.invalid && !m.drops filter x)
    (m.nodup.filter m.isListed)
  have ht : (m.references.filter fun x => !m.drops filter x) =
      (m.owner.xrefs.filter fun x => !x.flags.invalid && !m.drops filter x).filter
        fun x => foundAt x ∈ m.instructions := by
    rw [references, List.filter_filter, List.filter_filter]
    refine List.filter_congr fun x hx => ?_
    simp only [instructions, List.mem_filter, m.foundAt_mem hx, true_and]
    by_cases hi : x.flags.invalid <;> by_cases hd : m.drops filter x <;> simp [hi, hd]
  have hk : m.keptAt filter = fun o => (m.owner.xrefs.filter fun x =>
      !x.flags.invalid && !m.drops filter x).filter fun x => foundAt x = o := by
    funext o
    rw [keptAt, List.filter_filter]
    refine List.filter_congr fun x _ => ?_
    rw [Bool.and_comm]
  rw [ht, hk]
  exact h

/-- Every reference of the result is found once. -/
theorem flatMap_pairsAt_perm :
    (m.instructions.flatMap (m.pairsAt filter)).Perm (m.resultPairs filter) := by
  have h : (m.instructions.flatMap (m.pairsAt filter)).Perm
      (m.instructions.flatMap fun o => (m.keptAt filter o).map m.pairOf) :=
    List.Perm.flatMap_left _ fun o _ => m.pairsAt_perm filter o
  rw [← List.map_flatMap] at h
  exact h.trans ((m.flatMap_keptAt_perm filter).map _)

theorem resultPairs_inside {p : XRefPair} (h : p ∈ m.resultPairs filter) :
    m.inside? (ofLex p).1 = true := by
  obtain ⟨x, hx, rfl⟩ := List.mem_map.1 h
  have hm : x ∈ m.owner.xrefs := List.mem_of_mem_filter (List.mem_of_mem_filter hx)
  exact m.inside_absolute (m.source_mem x hm)

end DianaModule

/-! ## The saved references -/

section Saved

variable (sql : Sqlite) (filter : ExternalTargetFilter) (m : DianaModule)
  (table : List ReferenceRow)

/-- The pairs of the result that the table does not have -/
def newPairs : List XRefPair :=
  (m.resultPairs filter).filter fun p => p ∉ m.referencesFrom table

/-- What is saved of a result: the pairs from inside the module are the earlier ones and
those of the result, none twice; saving again adds nothing; without earlier references it is
what `Save` stores. -/
structure Saved : Prop where
  nodup : (m.referencesFrom (saveWithDedup sql filter m table)).Nodup
  mem_iff : ∀ p, p ∈ m.referencesFrom (saveWithDedup sql filter m table) ↔
    p ∈ m.referencesFrom table ∨ p ∈ m.resultPairs filter
  again : saveWithDedup sql filter m (saveWithDedup sql filter m table) =
    saveWithDedup sql filter m table
  same_as_save : m.referencesFrom table = [] →
    (m.referencesFrom (saveWithDedup sql filter m table)).Perm
    (m.referencesFrom (save filter m table))

/-- The pairs that the pass adds are from inside the module. -/
theorem flatMap_pairsAt_inside (q : XRefPair → Bool) :
    (((m.instructions.flatMap (m.pairsAt filter)).filter q).filter fun p =>
        m.inside? (ofLex p).1) = (m.instructions.flatMap (m.pairsAt filter)).filter q := by
  refine List.filter_eq_self.2 fun p hp => m.resultPairs_inside filter ?_
  exact (m.flatMap_pairsAt_perm filter).mem_iff.1 (List.mem_of_mem_filter hp)

theorem referencesFrom_saveWithDedup :
    (m.referencesFrom (saveWithDedup sql filter m table)).Perm
      (m.referencesFrom table ++ (m.resultPairs filter).filter fun p =>
        p ∉ queryAllModuleReferencePairs sql table m.address m.size) := by
  rw [DianaModule.referencesFrom, pairs_saveWithDedup, List.filter_append, flatMap_pairsAt_inside]
  exact ((m.flatMap_pairsAt_perm filter).filter _).append_left _

theorem referencesFrom_save :
    (m.referencesFrom (save filter m table)).Perm
      (m.referencesFrom table ++ m.resultPairs filter) := by
  have h := flatMap_pairsAt_inside filter m fun _ => true
  rw [List.filter_true] at h
  rw [DianaModule.referencesFrom, pairs_save, List.filter_append, h]
  exact (m.flatMap_pairsAt_perm filter).append_left _

/-- With a module that ends before the address space does, the pairs left out are those that the
table has from the module. -/
theorem referencesFrom_of_fits (h : m.Fits) :
    (m.referencesFrom (saveWithDedup sql filter m table)).Perm
      (m.referencesFrom table ++ newPairs filter m table) := by
  have hp := referencesFrom_saveWithDedup sql filter m table
  simp only [mem_queryPairs_iff sql table m h] at hp
  exact hp

theorem nodup_iff (h : m.Fits) (hn : (m.referencesFrom table).Nodup) :
    (m.referencesFrom (saveWithDedup sql filter m table)).Nodup ↔
      (newPairs filter m table).Nodup := by
  rw [(referencesFrom_of_fits sql filter m table h).nodup_iff, List.nodup_append]
  constructor
  · exact fun h => h.2.1
  · intro hnew
    refine ⟨hn, hnew, fun p hp q hq he => ?_⟩
    have := (List.mem_filter.1 hq).2
    simp_all

theorem insertReferencesTo_extends (table : List ReferenceRow) (o : Address)
    (refs : List CommonReferenceInfo) : table <+: insertReferencesToInstruction table o refs := by
  induction refs generalizing table with
  | nil => exact List.prefix_rfl
  | cons r refs ih => exact (List.prefix_append _ _).trans (ih _)

theorem insertReferencesFrom_extends (table : List ReferenceRow) (o : Address)
    (refs : List CommonReferenceInfo) : table <+: insertReferencesFromInstruction table o refs := by
  induction refs generalizing table with
  | nil => exact List.prefix_rfl
  | cons r refs ih => exact (List.prefix_append _ _).trans (ih _)

theorem saveWithDedup_extends : table <+: saveWithDedup sql filter m table := by
  unfold saveWithDedup
  generalize queryAllModuleReferencePairs sql table m.address m.size = byFrom
  induction m.instructions generalizing table with
  | nil => exact List.prefix_rfl
  | cons o os ih =>
    refine List.IsPrefix.trans ?_ (ih _)
    exact (insertReferencesTo_extends _ _ _).trans (insertReferencesFrom_extends _ _ _)

/-- The rows do not change when there is no pair to add. -/
theorem saveWithDedup_eq_self (h : ∀ p ∈ m.resultPairs filter,
      p ∈ queryAllModuleReferencePairs sql table m.address m.size) :
    saveWithDedup sql filter m table = table := by
  refine ((saveWithDedup_extends sql filter m table).eq_of_length ?_).symm
  have hp := congrArg List.length (pairs_saveWithDedup sql filter m table)
  rw [List.filter_eq_nil_iff.2, List.append_nil] at hp
  · simpa only [pairs, List.length_map] using hp.symm
  · intro p hp
    have := h p ((m.flatMap_pairsAt_perm filter).mem_iff.1 hp)
    simpa using this

theorem saveWithDedup_again (h : m.Fits) :
    saveWithDedup sql filter m (saveWithDedup sql filter m table) =
      saveWithDedup sql filter m table := by
  refine saveWithDedup_eq_self sql filter m _ fun p hp => ?_
  rw [mem_queryPairs_iff sql _ m h, (referencesFrom_of_fits sql filter m table h).mem_iff,
    List.mem_append, newPairs, List.mem_filter]
  by_cases ht : p ∈ m.referencesFrom table
  · exact .inl ht
  · exact .inr ⟨hp, by simpa using ht⟩

/-- A module that wraps around finds none of its own references, and adds them again. -/
theorem resultPairs_eq_nil_of_again (h : ¬ m.Fits)
    (ha : saveWithDedup sql filter m (saveWithDedup sql filter m table) =
      saveWithDedup sql filter m table) : m.resultPairs filter = [] := by
  have hp :=
    congrArg List.length (pairs_saveWithDedup sql filter m (saveWithDedup sql filter m table))
  rw [ha, queryPairs_of_wraps sql _ m h] at hp
  have hl : (m.instructions.flatMap (m.pairsAt filter)).length = 0 := by
    simpa using hp
  rw [List.length_eq_zero_iff] at hl
  exact (hl ▸ m.flatMap_pairsAt_perm filter).nil_eq.symm

theorem saved_of_fits (h : m.Fits) (hn : (m.referencesFrom table).Nodup)
    (hnew : (newPairs filter m table).Nodup) : Saved sql filter m table where
  nodup := (nodup_iff sql filter m table h hn).2 hnew
  mem_iff p := by
    rw [(referencesFrom_of_fits sql filter m table h).mem_iff, List.mem_append, newPairs,
      List.mem_filter]
    by_cases ht : p ∈ m.referencesFrom table <;> simp [ht]
  again := saveWithDedup_again sql filter m table h
  same_as_save ht := by
    have h1 := referencesFrom_of_fits sql filter m table h
    have h2 := referencesFrom_save filter m table
    have h3 : newPairs filter m table = m.resultPairs filter := by
      rw [newPairs, ht]
      simp
    rw [ht, h3] at h1
    rw [ht] at h2
    exact h1.trans h2.symm

theorem saved_of_nil (hn : (m.referencesFrom table).Nodup) (h : m.resultPairs filter = []) :
    Saved sql filter m table := by
  have hs : saveWithDedup sql filter m table = table :=
    saveWithDedup_eq_self sql filter m table (by simp [h])
  have h2 := referencesFrom_save filter m table
  rw [h, List.append_nil] at h2
  refine ⟨?_, fun p => ?_, ?_, fun _ => ?_⟩
  · rwa [hs]
  · simp [hs, h]
  · rw [hs, hs]
  · rw [hs]
    exact h2.symm

/-- A result is saved as it should be when no two of its new references join the same two addresses,
in a module that does not wrap around. -/
theorem saved_iff (hn : (m.referencesFrom table).Nodup) :
    Saved sql filter m table ↔
      (m.Fits ∨ m.resultPairs filter = []) ∧ (newPairs filter m table).Nodup := by
  constructor
  · intro hs
    by_cases h : m.Fits
    · exact ⟨.inl h, (nodup_iff sql filter m table h hn).1 hs.nodup⟩
    · have hr := resultPairs_eq_nil_of_again sql filter m table h hs.again
      exact ⟨.inr hr, by simp [newPairs, hr]⟩
  · rintro ⟨h | h, hnew⟩
    · exact saved_of_fits sql filter m table h hn hnew
    · exact saved_of_nil sql filter m table hn h

end Saved

/-! ## One instruction with two references -/

instance ReferenceRow.decidableLe : DecidableRel ReferenceRow.le :=
  fun _ _ => inferInstanceAs (Decidable (_ ∨ _))

theorem ReferenceRow.le_total (r r' : ReferenceRow) : r.le r' ∨ r'.le r := by
  unfold ReferenceRow.le
  rcases Int.lt_trichotomy r.refAddressFrom.toInt r'.refAddressFrom.toInt with h | h | h
  · exact .inl (.inl h)
  · rw [BitVec.toInt_inj] at h
    rcases Int.le_total r.refAddressTo.toInt r'.refAddressTo.toInt with h' | h'
    · exact .inl (.inr ⟨h, h'⟩)
    · exact .inr (.inr ⟨h.symm, h'⟩)
  · exact .inr (.inl h)

theorem ReferenceRow.le_trans {r₁ r₂ r₃ : ReferenceRow} (h : r₁.le r₂) (h' : r₂.le r₃) :
    r₁.le r₃ := by
  unfold ReferenceRow.le at *
  rcases h with h | ⟨h, hle⟩ <;> rcases h' with h' | ⟨h', hle'⟩
  · exact .inl (Int.lt_trans h h')
  · exact .inl (h' ▸ h)
  · exact .inl (h ▸ h')
  · exact .inr ⟨h.trans h', Int.le_trans hle hle'⟩

/-- Rows with the same addresses stay in the order of the table. -/
def sortedRows : Sqlite where
  selectReferencesFromRange table lo hi :=
    (table.filter (ReferenceRow.between lo hi)).insertionSort ReferenceRow.le
  perm _ _ _ := List.perm_insertionSort _ _
  ordered _ _ _ := by
    have : Std.Total ReferenceRow.le := ⟨ReferenceRow.le_total⟩
    have : IsTrans ReferenceRow ReferenceRow.le := ⟨fun _ _ _ => ReferenceRow.le_trans⟩
    exact List.pairwise_insertionSort _ _

/-- An instruction at the start of a region of `0x1000` bytes at `0x400000`, with references to the
addresses `targets` outside it, each with its flags. -/
def oneInstruction (targets : List (Nat × XRefFlags)) : DianaModule where
  address := 0x400000
  size := 0x1000
  owner :=
    { Owner.init 0x1000 0x10000 with
      presenceVec := fun o => if o = 0 then some ⟨0, {}⟩ else none
      externals := targets.map fun t => ⟨t.1, { external := true }⟩
      xrefs := targets.mapIdx fun i t => ⟨0, .outside i, { t.2 with external := true }⟩ }
  instructionsVec := [0]
  nodup := by simp
  mem_presenceVec := by simp
  offset_lt := by decide
  source_mem := by
    intro x hx
    obtain ⟨i, hi, rfl⟩ := List.mem_mapIdx.1 hx
    exact List.mem_singleton.2 rfl
  inside := by
    intro x hx o ho
    obtain ⟨i, hi, rfl⟩ := List.mem_mapIdx.1 hx
    cases ho
  outside := by
    intro x hx j _
    obtain ⟨i, hi, rfl⟩ := List.mem_mapIdx.1 hx
    exact .inl rfl

/-- `mov eax, [500000h]` -/
theorem saved_one : Saved sortedRows none (oneInstruction [(0x500000, { data := true })]) [] :=
  (saved_iff sortedRows none _ [] (by simp [DianaModule.referencesFrom, pairs])).2
    ⟨.inl (by unfold DianaModule.Fits oneInstruction; decide), by decide⟩

/-- `mov dword ptr [500000h], 500000h`: the instruction writes to an address and takes it. -/
theorem not_saved_twice :
    ¬ ∀ (sql : Sqlite) (filter : ExternalTargetFilter) (m : DianaModule) (table :
      List ReferenceRow), (m.referencesFrom table).Nodup → Saved sql filter m table := by
  intro h
  have hs := h sortedRows none
    (oneInstruction [(0x500000, { data := true }), (0x500000, { addressTaken := true })]) []
    (by simp [DianaModule.referencesFrom, pairs])
  have hn := (nodup_iff sortedRows none _ []
    (by unfold DianaModule.Fits oneInstruction; decide)
    (by simp [DianaModule.referencesFrom, pairs])).1 hs.nodup
  revert hn
  decide

end Diana.Orthia.Saver
