import Diana.Pe.Imports
import Diana.Pe.ProcAddress
import Mathlib.Data.BitVec

/-!
# Enumerating the exports of an image

`DianaPeFile_QueryExports`: every name is reported with the function of its ordinal, then the
functions without a name are reported by their ordinals. What the observer is called with is kept as
a list of reports.

* `exportAt`, `slotAt`: what is read for a name and for a slot;
* `queryNames`, `queryOrdinals`, `queryExports`: the enumeration;
* `queryNames_ok`, `queryOrdinals_run`: its loops with an observer that always answers.
-/

namespace Diana.Pe

open Diana.Lib

/-- A call of the observer. A report by name comes with the counter of the loop, which the observer
does not see. -/
inductive Report where
  /-- `reportInfo_fnc` -/
  | info (functionPtr : Value)
  /-- `queryFunctionByName` -/
  | name (i : Nat) (functionName : List Byte) (hint : BitVec 32) (address : BitVec 32)
  /-- `queryFunctionByOrdinal` -/
  | ordinal (i : BitVec 16) (address : BitVec 32)
  deriving DecidableEq, Repr

/-- `DianaPeFile_LinkImports_Observer`, as the enumeration uses it: its answer to the last of the
calls made so far. -/
structure ExportObserver where
  reportsInfo : Bool
  answer : List Report → Except Status Unit

/-- The observer that takes every report. -/
def ExportObserver.obliging (reportsInfo : Bool) : ExportObserver := ⟨reportsInfo, fun _ => .ok ()⟩

/-- The enumeration: the file, the stream with the image, and what `malloc` returns filled with. -/
structure ExportQuery where
  fileMode : Bool
  directory : DataDirectory
  /-- `pRandomRead`: the bytes that it delivers -/
  read : (address : Value) → (size : Nat) → Except Status (List Byte)
  pageSize : Int
  heap : Nat → Byte

/-- `DIANA_IMAGE_EXPORT_DIRECTORY` -/
structure ExportDirectory where
  numberOfFunctions : BitVec 32
  numberOfNames : BitVec 32
  addressOfFunctions : BitVec 32
  addressOfNames : BitVec 32
  addressOfNameOrdinals : BitVec 32
  deriving DecidableEq, Repr

/-- A name with the function that it designates. -/
structure NamedExport where
  name : List Byte
  functionPtr : Value
  hint : BitVec 32
  address : BitVec 32
  deriving DecidableEq, Repr

/-- A running enumeration. -/
abbrev Query := EStateM Stop (List Report)

namespace ExportQuery

variable (Q : ExportQuery)

def normalNameSize : Nat := 128

/-- `maxNameSize` -/
def maxNameSize : Int := min Q.pageSize 2047

/-- `sizeof(DIANA_IMAGE_EXPORT_DIRECTORY)` -/
def exportDirectorySize : Nat := 40

/-- `pCapturedExportDirectory` -/
def captureDirectory : Except Status ExportDirectory := do
  let bytes ← Q.read (Q.directory.virtualAddress.setWidth 64) exportDirectorySize
  if bytes.length ≠ exportDirectorySize then .error .error
  else
    let field (offset : Nat) : BitVec 32 := BitVec.ofNat 32 (numberAt bytes offset 4)
    .ok ⟨field 20, field 24, field 28, field 32, field 36⟩

/-- The name at an address: the turns of the loop over `u` that are left, and the page as the last
turn left it. Both turns ask for `normalNameSize` bytes: `sizeToUse` is set and not used. -/
def captureName (functionNameOffset : BitVec 32) :
    Nat → List Byte → Except Status (Option (List Byte))
  | 0, page => .ok (some (cString page.dropLast))
  | u + 1, _ => do
    let page ← Q.read (functionNameOffset.setWidth 64) normalNameSize
    if page = [] then .ok none
    else if 0 ∈ page then .ok (some (cString page))
    else captureName functionNameOffset u page

/-- The function is forwarded: it lies in the export directory. -/
def Forwarded (functionValue : BitVec 32) : Prop :=
  Q.directory.virtualAddress ≤ functionValue ∧
    functionValue < Q.directory.virtualAddress + Q.directory.size

instance (functionValue : BitVec 32) :
    Decidable (Q.Forwarded functionValue) := inferInstanceAs (Decidable (_ ∧ _))

/-- The bytes that are delivered, over a variable that was 0. -/
def readNumber (address : Value) (size : Nat) : Except Status Nat := do
  let bytes ← Q.read address size
  .ok (leNat bytes)

def functionPtr (d : ExportDirectory) (ordinal : BitVec 16) : Value :=
  BitVec.ofNat 64 (d.addressOfFunctions.toNat + ordinal.toNat * 4)

/-- The slot of a function. -/
def slotAt (d : ExportDirectory) (ordinal : BitVec 16) : Except Status (BitVec 32) := do
  let functionValue ← Q.readNumber (functionPtr d ordinal) 4
  .ok (BitVec.ofNat 32 functionValue)

/-- `functionNameOffset` -/
def nameOffsetAt (d : ExportDirectory) (i : Nat) : Except Status (BitVec 32) := do
  let bytes ← Q.read (BitVec.ofNat 64 (d.addressOfNames.toNat + i * 4)) 4
  if bytes.length ≠ 4 then .error .error else .ok (BitVec.ofNat 32 (leNat bytes))

/-- `ordinalValue`; the offset of the ordinal is a 32-bit product. -/
def ordinalAt (d : ExportDirectory) (i : Nat) : Except Status (BitVec 16) := do
  let ordinalPtr :=
    BitVec.ofNat 64 (d.addressOfNameOrdinals.toNat + (BitVec.ofNat 32 (i * 2)).toNat)
  let ordinalValue ← Q.readNumber ordinalPtr 2
  .ok (BitVec.ofNat 16 ordinalValue)

/-- A name with its function, or with where that is forwarded. -/
def namedExport (functionName : List Byte) (functionPtr : Value) (functionValue : BitVec 32) :
    NamedExport :=
  if Q.Forwarded functionValue then ⟨functionName, functionPtr, functionValue, 0⟩
  else ⟨functionName, functionPtr, 0, functionValue⟩

@[simp] theorem name_namedExport (functionName : List Byte) (functionPtr : Value)
    (functionValue : BitVec 32) :
    (Q.namedExport functionName functionPtr functionValue).name = functionName := by
  unfold namedExport
  split <;> rfl

/-- What is read for a name; nothing, where there are no bytes at its address. -/
def exportAt (d : ExportDirectory) (i : Nat) : Except Status (Option NamedExport) := do
  let functionNameOffset ← Q.nameOffsetAt d i
  match ← Q.captureName functionNameOffset 2 [] with
  | none => .ok none
  | some functionName =>
    let ordinalValue ← Q.ordinalAt d i
    let functionValue ← Q.slotAt d ordinalValue
    .ok (some (Q.namedExport functionName (functionPtr d ordinalValue) functionValue))

/-- `pCapturedAddresses`. How much was read is not looked at. -/
def captureOrdinals (d : ExportDirectory) : Except Status (List (BitVec 16)) := do
  let bytes ← Q.read (d.addressOfNameOrdinals.setWidth 64) (d.numberOfNames * 2).toNat
  let byte (k : Nat) : Byte := if k < bytes.length then bytes.getD k 0 else Q.heap k
  .ok ((List.range d.numberOfNames.toNat).map fun k => BitVec.ofNat 16
    (leNat [byte (2 * k), byte (2 * k + 1)]))

end ExportQuery

/-! ## The enumeration -/

namespace ExportObserver

variable (O : ExportObserver)

def call (r : Report) : Query Unit := do
  modify fun reports => reports ++ [r]
  orFail (O.answer (← get))

def reportInfo (functionPtr : Value) : Query Unit :=
  if O.reportsInfo then O.call (.info functionPtr) else pure ()

/-- A report, behind that of its slot. -/
def report (functionPtr : Value) (r : Report) : Query Unit := do
  O.reportInfo functionPtr
  O.call r

/-- The report for a name. -/
def reportName (i : Nat) : Option NamedExport → Query Unit
  | none => pure ()
  | some e => O.report e.functionPtr (.name i e.name e.hint e.address)

/-- The calls for a report. -/
def calls (functionPtr : Value) (r : Report) : List Report :=
  if O.reportsInfo then [.info functionPtr, r] else [r]

end ExportObserver

namespace ExportQuery

variable (Q : ExportQuery) (O : ExportObserver) (d : ExportDirectory)

/-- The loop over the names. -/
def queryNames : List Nat → Query Unit
  | [] => pure ()
  | i :: rest => do
    let e ← orFail (Q.exportAt d i)
    O.reportName i e
    queryNames rest

/-- The function is not delivered by its ordinal. -/
def Skipped (captured : List (BitVec 16)) (i : BitVec 16) (functionValue : BitVec 32) : Prop :=
  functionValue = 0 ∨ Q.Forwarded functionValue ∨ i ∈ captured

instance (captured : List (BitVec 16)) (i : BitVec 16) (functionValue : BitVec 32) :
    Decidable (Q.Skipped captured i functionValue) := inferInstanceAs (Decidable (_ ∨ _ ∨ _))

/-- The loop over the functions, for `fuel` turns at most. The array of captured ordinals is sorted
and searched. -/
def queryOrdinals (captured : List (BitVec 16)) : Nat → BitVec 16 → BitVec 32 → Query Unit
  | 0, _, _ => throw .outOfFuel
  | fuel + 1, i, ordinalsToSearch =>
    if i.setWidth 32 < d.numberOfFunctions then do
      let functionValue ← orFail (Q.slotAt d i)
      if Q.Skipped captured i functionValue then
        queryOrdinals captured fuel (i + 1) ordinalsToSearch
      else do
        O.report (functionPtr d i) (.ordinal i functionValue)
        if ordinalsToSearch - 1 = 0 then pure ()
        else queryOrdinals captured fuel (i + 1) (ordinalsToSearch - 1)
    else pure ()

/-- The part behind the names. -/
def deliverOrdinals (fuel : Nat) : Query Unit :=
  if d.numberOfNames < d.numberOfFunctions then do
    let captured ← orFail (Q.captureOrdinals d)
    Q.queryOrdinals O d captured fuel 0 (d.numberOfFunctions - d.numberOfNames)
  else pure ()

/-- The enumeration of a captured directory. -/
def queryDirectory (fuel : Nat) : Query Unit := do
  Q.queryNames O d (List.range d.numberOfNames.toNat)
  Q.deliverOrdinals O d fuel

/-- `DianaPeFile_QueryExports` -/
def queryExports (fuel : Nat) : Query Unit :=
  if Q.pageSize < normalNameSize then throw (.failed .invalidConfiguration)
  else if Q.fileMode then throw (.failed .invalidInput)
  else if Q.directory.virtualAddress = 0 ∨ Q.directory.size = 0 then pure ()
  else do
    let d ← orFail Q.captureDirectory
    Q.queryDirectory O d fuel

end ExportQuery

/-! ## An observer that takes every report -/

/-- Every call is answered. -/
def ExportObserver.Obliging (O : ExportObserver) : Prop := ∀ reports, O.answer reports = .ok ()

section

variable {Q : ExportQuery} {O : ExportObserver} {d : ExportDirectory} {captured : List (BitVec 16)}
  {reports : List Report} {fuel i k m : Nat}

theorem ExportObserver.call_ok (hO : O.Obliging) (r : Report) :
    O.call r reports = .ok () (reports ++ [r]) := by
  unfold ExportObserver.call
  rw [modify_bind, get_bind, hO]
  rfl

theorem ExportObserver.report_ok (hO : O.Obliging) (functionPtr : Value) (r : Report) :
    O.report functionPtr r reports = .ok () (reports ++ O.calls functionPtr r) := by
  unfold ExportObserver.report ExportObserver.reportInfo ExportObserver.calls
  cases O.reportsInfo
  · exact O.call_ok hO r
  · refine (bind_of_ok (O.call_ok hO (.info functionPtr))).trans ((O.call_ok hO r).trans ?_)
    rw [List.append_assoc]
    rfl

namespace ExportQuery

/-- The calls for a name. -/
def nameCalls (Q : ExportQuery) (O : ExportObserver) (d : ExportDirectory) (i : Nat) :
    List Report :=
  match Q.exportAt d i with
  | .ok (some e) => O.calls e.functionPtr (.name i e.name e.hint e.address)
  | _ => []

/-- The calls for a function without a name. -/
def ordinalCalls (Q : ExportQuery) (O : ExportObserver) (d : ExportDirectory) (i : Nat) :
    List Report :=
  match Q.slotAt d (BitVec.ofNat 16 i) with
  | .ok functionValue =>
    O.calls (functionPtr d (BitVec.ofNat 16 i)) (.ordinal (BitVec.ofNat 16 i) functionValue)
  | .error _ => []

/-- The function is delivered by its ordinal. -/
def Delivers (Q : ExportQuery) (d : ExportDirectory) (captured : List (BitVec 16)) (i : Nat) :
    Bool :=
  match Q.slotAt d (BitVec.ofNat 16 i) with
  | .ok functionValue => ¬ Q.Skipped captured (BitVec.ofNat 16 i) functionValue
  | .error _ => false

/-- Those of the `k` functions from `i` on that are delivered by their ordinals. -/
def deliveredFrom (Q : ExportQuery) (d : ExportDirectory) (captured : List (BitVec 16))
    (i k : Nat) : List Nat :=
  (List.range' i k).filter (Q.Delivers d captured)

theorem queryNames_ok (hO : O.Obliging) {is : List Nat}
    (his : ∀ i ∈ is, ∃ e, Q.exportAt d i = .ok e) :
    Q.queryNames O d is reports = .ok () (reports ++ is.flatMap (Q.nameCalls O d)) := by
  induction is generalizing reports with
  | nil => rw [List.flatMap_nil, List.append_nil]; rfl
  | cons i is ih =>
    obtain ⟨e, he⟩ := his i (List.mem_cons_self ..)
    have ih := @ih (reports ++ Q.nameCalls O d i) fun j hj => his j (List.mem_cons_of_mem _ hj)
    rw [List.append_assoc, ← List.flatMap_cons] at ih
    rw [← ih]
    have hname : O.reportName i e reports = .ok () (reports ++ Q.nameCalls O d i) := by
      unfold nameCalls
      rw [he]
      cases e with
      | none => exact congrArg _ (List.append_nil _).symm
      | some e => exact O.report_ok hO _ _
    change (orFail (Q.exportAt d i) >>= _) reports = _
    rw [he]
    exact bind_of_ok hname

theorem deliveredFrom_succ : Q.deliveredFrom d captured i (k + 1) =
    if Q.Delivers d captured i then i :: Q.deliveredFrom d captured (i + 1) k
    else Q.deliveredFrom d captured (i + 1) k := by
  unfold deliveredFrom
  rw [List.range'_succ, List.filter_cons]

theorem queryOrdinals_succ {i : BitVec 16} {ordinalsToSearch : BitVec 32} :
    Q.queryOrdinals O d captured (fuel + 1) i ordinalsToSearch =
      if i.setWidth 32 < d.numberOfFunctions then do
        let functionValue ← orFail (Q.slotAt d i)
        if Q.Skipped captured i functionValue then
          Q.queryOrdinals O d captured fuel (i + 1) ordinalsToSearch
        else do
          O.report (functionPtr d i) (.ordinal i functionValue)
          if ordinalsToSearch - 1 = 0 then pure ()
          else Q.queryOrdinals O d captured fuel (i + 1) (ordinalsToSearch - 1)
      else pure () := rfl

theorem ofNat_succ (i : Nat) : BitVec.ofNat 16 i + 1 = BitVec.ofNat 16 (i + 1) := by
  apply BitVec.eq_of_toNat_eq
  simp

theorem counter_lt (hi : i < min d.numberOfFunctions.toNat (2 ^ 16)) :
    (BitVec.ofNat 16 i).setWidth 32 < d.numberOfFunctions := by
  rw [BitVec.lt_def, BitVec.toNat_setWidth, BitVec.toNat_ofNat]
  omega

/-- One less to search. -/
theorem toSearch_pred (hm : 1 < m) (hm32 : m < 2 ^ 32) :
    BitVec.ofNat 32 m - 1 = BitVec.ofNat 32 (m - 1) ∧ BitVec.ofNat 32 (m - 1) ≠ 0 := by
  constructor
  · apply BitVec.eq_of_toNat_eq
    rw [BitVec.toNat_sub, BitVec.toNat_ofNat, BitVec.toNat_ofNat]
    change (2 ^ 32 - 1 + m % 2 ^ 32) % 2 ^ 32 = _
    omega
  · intro h
    have := congrArg BitVec.toNat h
    rw [BitVec.toNat_ofNat] at this
    change (m - 1) % 2 ^ 32 = 0 at this
    omega

theorem delivers_of_slotAt {v : BitVec 32} (hv : Q.slotAt d (BitVec.ofNat 16 i) = .ok v) :
    Q.Delivers d captured i = true ↔ ¬ Q.Skipped captured (BitVec.ofNat 16 i) v := by
  unfold Delivers
  rw [hv]
  exact decide_eq_true_iff

variable (captured fuel reports) in
/-- `k` turns of the loop over the functions, the ones it is entered with left to deliver. -/
theorem queryOrdinals_run (hO : O.Obliging) (hik : i + k ≤ min d.numberOfFunctions.toNat (2 ^ 16))
    (hslots : ∀ j, i ≤ j → j < i + k → ∃ v, Q.slotAt d (BitVec.ofNat 16 j) = .ok v) (hm : 0 < m)
    (hm32 : m < 2 ^ 32) :
    Q.queryOrdinals O d captured (fuel + k) (BitVec.ofNat 16 i) (BitVec.ofNat 32 m) reports =
      if m ≤ (Q.deliveredFrom d captured i k).length then
        .ok () (reports ++ ((Q.deliveredFrom d captured i k).take m).flatMap (Q.ordinalCalls O d))
      else
        Q.queryOrdinals O d captured fuel (BitVec.ofNat 16 (i + k))
          (BitVec.ofNat 32 (m - (Q.deliveredFrom d captured i k).length))
          (reports ++ (Q.deliveredFrom d captured i k).flatMap (Q.ordinalCalls O d)) := by
  induction k generalizing i m reports with
  | zero =>
    have hnil : Q.deliveredFrom d captured i 0 = [] := rfl
    rw [hnil, if_neg (by rw [List.length_nil]; omega), List.flatMap_nil, List.append_nil]
    rfl
  | succ k ih =>
    obtain ⟨v, hv⟩ := hslots i (Nat.le_refl i) (by omega)
    have hslots' : ∀ j, i + 1 ≤ j → j < i + 1 + k → ∃ v, Q.slotAt d (BitVec.ofNat 16 j) = .ok v :=
      fun j hij hj => hslots j (by omega) (by omega)
    have hadd : i + (k + 1) = i + 1 + k := by omega
    have ih {n : Nat} {reports : List Report} := @ih reports (i + 1) n (by omega) hslots'
    rw [← Nat.add_assoc, queryOrdinals_succ, if_pos (counter_lt (by omega)), hv, ofNat_succ, hadd]
    refine (bind_of_ok rfl).trans ?_
    by_cases hskip : Q.Skipped captured (BitVec.ofNat 16 i) v
    · have hrest : Q.deliveredFrom d captured i (k + 1) = Q.deliveredFrom d captured (i + 1) k := by
        rw [deliveredFrom_succ]
        exact if_neg fun h => (delivers_of_slotAt hv).1 h hskip
      rw [if_pos hskip, hrest]
      exact ih hm hm32
    · have hrest : Q.deliveredFrom d captured i (k + 1) =
          i :: Q.deliveredFrom d captured (i + 1) k := by
        rw [deliveredFrom_succ]
        exact if_pos ((delivers_of_slotAt hv).2 hskip)
      have hcalls : O.calls (functionPtr d (BitVec.ofNat 16 i)) (.ordinal (BitVec.ofNat 16 i) v) =
          Q.ordinalCalls O d i := by
        unfold ordinalCalls
        rw [hv]
      rw [if_neg hskip, hrest]
      refine (bind_of_ok (O.report_ok hO _ _)).trans ?_
      rw [hcalls]
      by_cases hone : m = 1
      · subst hone
        rw [if_pos (by decide), if_pos (by rw [List.length_cons]; omega)]
        simp
      · obtain ⟨hpred, hne⟩ := toSearch_pred (m := m) (by omega) hm32
        obtain ⟨m, rfl⟩ : ∃ n, m = n + 1 := ⟨m - 1, by omega⟩
        rw [hpred, if_neg hne, Nat.add_sub_cancel, ih (by omega) (by omega)]
        simp only [List.length_cons, Nat.add_le_add_iff_right, List.take_succ_cons,
          List.flatMap_cons, List.append_assoc, Nat.add_sub_add_right]

end ExportQuery

end

end Diana.Pe
