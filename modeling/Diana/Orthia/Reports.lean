import Diana.Orthia.Overlay
import Mathlib.Data.List.Chain

/-!
# Reporting memory ranges

`CMemoryStorageOfModifiedData::ReportRegions` goes over a range: the modified pages are reported
with their data, and the space of the reader between them is probed.
`VmMemoryRangesTargetGrouppedProxy` joins neighbours.

* `testAndReport`, `reportRegions`, `grouped`: the functions;
* `Tiles`: ranges that follow each other without gaps;
* `reportRegions_spec`, `grouped_spec`: what is reported.
-/

namespace Diana.Orthia

open Diana.Lib

/-- `VmMemoryRangeInfoWithData` -/
structure MemoryRange where
  address : Nat
  size : Nat
  /-- With `flags_hasData` -/
  data : Option (List Byte)
  deriving DecidableEq, Repr

/-- `HasData` -/
def MemoryRange.hasData (r : MemoryRange) : Bool := r.data.isSome

/-- `COutputWriteHelper` with a target: what the target got is `ranges`. -/
structure OutputWriteHelper where
  currentOffset : Nat
  bytesToWrite : Nat
  ranges : List MemoryRange

namespace OutputWriteHelper

variable (w : OutputWriteHelper)

/-- `OnRange` of the target, and the steps behind it. -/
def onRange (delta : Nat) (data : Option (List Byte)) : OutputWriteHelper :=
  { currentOffset := w.currentOffset + delta
    bytesToWrite := w.bytesToWrite - delta
    ranges := w.ranges ++ [⟨w.currentOffset, delta, data⟩] }

/-- `WriteInvalidRegion` -/
def writeInvalidRegion (size : Nat) : OutputWriteHelper := w.onRange (min size w.bytesToWrite) none

/-- `Write` -/
def write (data : List Byte) : OutputWriteHelper :=
  w.onRange (min data.length w.bytesToWrite) (some (data.take (min data.length w.bytesToWrite)))

/-- What both return. -/
def Done : Prop := w.bytesToWrite = 0

instance : Decidable w.Done := inferInstanceAs (Decidable (_ = _))

end OutputWriteHelper

def optimisticPageSize : Nat := 64 * 1024

def pessimisticPageSize : Nat := 0x1000

/-- The size of the bad data that is reported behind a read from `currentOffset` on. -/
def pessimisticSizeToReport (currentOffset badDataSize : Nat) : Nat :=
  min badDataSize
    (if currentOffset % pessimisticPageSize ≠ 0 then
      pessimisticPageSize - currentOffset % pessimisticPageSize
    else pessimisticPageSize)

/-- The loop of `TestAndReportReaderSpace`, at most `n` turns of it: `none` if it has
not come to an end. -/
def probeSpace (R : Reader) :
    (n : Nat) → (dataTransferMode : Bool) → (sizeToReport : Nat) → OutputWriteHelper →
    Option OutputWriteHelper
  | 0, _, _, _ => none
  | n + 1, dataTransferMode, sizeToReport, w =>
    if sizeToReport = 0 then some w
    else
      let currentBytesToRead :=
        min sizeToReport (if dataTransferMode then optimisticPageSize else pessimisticPageSize)
      let read := R.read w.currentOffset currentBytesToRead
      let written := if read = [] then w else w.write read
      if read ≠ [] ∧ (written.Done ∨ sizeToReport - read.length = 0) then some written
      else if read.length = currentBytesToRead then
        probeSpace R n true (sizeToReport - read.length) written
      else
        let size := pessimisticSizeToReport w.currentOffset (currentBytesToRead - read.length)
        let reported := written.writeInvalidRegion size
        if reported.Done then some reported
        else probeSpace R n false (sizeToReport - read.length - size) reported

/-- `TestAndReportReaderSpace`. Whether it returns `true` is whether everything is written. -/
def testAndReport (R : Reader) (includeReaderSpace : Bool) (n size : Nat) (w : OutputWriteHelper) :
    Option OutputWriteHelper :=
  if includeReaderSpace then probeSpace R n true (min size w.bytesToWrite) w
    else some (w.writeInvalidRegion size)

/-- The loop of `ReportRegions` over the pages from an iterator on. -/
def reportPages (R : Reader) (includeReaderSpace : Bool) (ps n : Nat) :
    List (Nat × List Byte) → OutputWriteHelper → Option (Except Failure OutputWriteHelper)
  | [], w => some (.ok w)
  | (k, d) :: rest, w =>
    if w.currentOffset < k ∨ ps ≤ w.currentOffset - k then some (.error .internalError)
    else
      let written := w.write (d.drop (w.currentOffset - k))
      if written.Done then some (.ok written)
      else
        let rangeBetweenPages :=
          match rest with
          | [] => written.bytesToWrite
          | (k', _) :: _ => k' - ps - k
        if rangeBetweenPages = 0 then reportPages R includeReaderSpace ps n rest written
        else
          match testAndReport R includeReaderSpace n rangeBetweenPages written with
          | none => none
          | some reported =>
            if reported.Done then some (.ok reported)
              else reportPages R includeReaderSpace ps n rest reported

/-- `ReportRegions`: the ranges that the target gets. -/
def Storage.reportRegions {ps : PageSize} (R : Reader) (s : Storage ps) (includeReaderSpace : Bool)
    (n startAddress size : Nat) : Option (Except Failure (List MemoryRange)) :=
  let w : OutputWriteHelper := ⟨startAddress, size, []⟩
  if size = 0 then some (.ok [])
  else
    match s.pages.lowerBound (ps.start startAddress) with
    | [] => (testAndReport R includeReaderSpace n size w).map fun w => .ok w.ranges
    | (k, d) :: rest =>
      let before :=
        if startAddress < k then testAndReport R includeReaderSpace n (min (k - startAddress) size)
          w else some w
      match before with
      | none => none
      | some w =>
        if startAddress < k ∧ w.Done then some (.ok w.ranges)
        else (reportPages R includeReaderSpace ps.bytes n ((k, d) :: rest) w).map fun r =>
          r.map fun w => w.ranges

/-! ## Joined ranges -/

/-- `OnRange` of `VmMemoryRangesTargetGrouppedProxy` without a limit: the range that is held back,
and what is passed on. -/
def groupOnRange (prevRange : Option MemoryRange) (r : MemoryRange) :
    Except Failure (Option MemoryRange × List MemoryRange) :=
  match prevRange with
  | none => .ok (some r, [])
  | some p =>
    if p.hasData = r.hasData then
      if p.address + p.size ≠ r.address then .error .internalError
      else .ok (some ⟨p.address, p.size + r.size, p.data.map (· ++ r.data.getD [])⟩, [])
    else .ok (some r, [p])

/-- The ranges one after the other, and `ReportOnce` at the end. -/
def grouped (prevRange : Option MemoryRange) : List MemoryRange → Except Failure (List MemoryRange)
  | [] => .ok prevRange.toList
  | r :: rest => do
    let (prevRange, out) ← groupOnRange prevRange r
    (out ++ ·) <$> grouped prevRange rest

/-! ## Tiles -/

/-- The range shows the content: no byte of it is there, or all are. -/
structure MemoryRange.Shows (V : Nat → Option Byte) (r : MemoryRange) : Prop where
  length : ∀ d ∈ r.data, d.length = r.size
  content : ∀ i < r.size, V (r.address + i) = r.data.bind (·[i]?)

/-- Ranges with a property that follow each other from `a` to `b`. -/
def Tiles (P : MemoryRange → Prop) : (a b : Nat) → List MemoryRange → Prop
  | a, b, [] => a = b
  | a, b, r :: rest => r.address = a ∧ 0 < r.size ∧ P r ∧ Tiles P (a + r.size) b rest

section

variable {P Q : MemoryRange → Prop} {a b c : Nat} {l l' : List MemoryRange}

theorem Tiles.append (h : Tiles P a b l) (h' : Tiles P b c l') : Tiles P a c (l ++ l') := by
  induction l generalizing a with
  | nil =>
    obtain rfl : a = b := h
    exact h'
  | cons r l ih =>
    obtain ⟨haddress, hsize, hP, hrest⟩ := h
    exact ⟨haddress, hsize, hP, ih hrest⟩

theorem tiles_singleton {r : MemoryRange} (hsize : 0 < r.size) (hP : P r) :
    Tiles P r.address (r.address + r.size) [r] := ⟨rfl, hsize, hP, rfl⟩

theorem Tiles.imp (himp : ∀ r, 0 < r.size → P r → Q r) (h : Tiles P a b l) : Tiles Q a b l := by
  induction l generalizing a with
  | nil => exact h
  | cons r l ih =>
    obtain ⟨haddress, hsize, hP, hrest⟩ := h
    exact ⟨haddress, hsize, himp r hsize hP, ih hrest⟩

end

/-- Whether a byte can be read is the same for a page of 4 KB. -/
def PageWise (R : Reader) : Prop :=
  ∀ a b, a / pessimisticPageSize = b / pessimisticPageSize → (R.byte a).isSome = (R.byte b).isSome

/-! ## The space of the reader -/

section

variable {R : Reader} {off n : Nat}

/-- The data of a read. -/
theorem shows_read (R : Reader) (off n : Nat) :
    MemoryRange.Shows R.byte ⟨off, (R.read off n).length, some (R.read off n)⟩ where
  length := by
    intro d hd
    rw [Option.mem_some_iff.1 hd]
  content := by
    intro i hi
    change R.byte (off + i) = (R.read off n)[i]?
    rw [List.getElem?_eq_getElem hi]
    exact getElem?_readFrom (List.getElem?_eq_getElem hi)

/-- What is reported as bad behind a read lies in one page, which cannot be read. -/
theorem shows_bad (hR : PageWise R) (hshort : (R.read off n).length < n) :
    MemoryRange.Shows R.byte ⟨off + (R.read off n).length,
      pessimisticSizeToReport off (n - (R.read off n).length), none⟩ where
  length := nofun
  content := by
    intro i hi
    have hstop : R.byte (off + (R.read off n).length) = none := readFrom_stops hshort
    change i < pessimisticSizeToReport off (n - (R.read off n).length) at hi
    have hpage : (off + (R.read off n).length + i) / pessimisticPageSize =
        (off + (R.read off n).length) / pessimisticPageSize := by
      have hsmall : i < pessimisticPageSize - off % pessimisticPageSize ∨
          off % pessimisticPageSize = 0 ∧ i < pessimisticPageSize := by
        unfold pessimisticSizeToReport pessimisticPageSize at hi
        unfold pessimisticPageSize
        split at hi <;> omega
      have hle : i < pessimisticPageSize := by omega
      by_cases hzero : (R.read off n).length = 0
      · rw [hzero]
        unfold pessimisticPageSize at hsmall hle ⊢
        omega
      · -- the byte before the first bad one can be read, so a page starts there
        have hlt : (R.read off n).length - 1 < (R.read off n).length := by omega
        have hlast : R.byte (off + ((R.read off n).length - 1)) =
            some ((R.read off n)[(R.read off n).length - 1]) :=
          getElem?_readFrom (List.getElem?_eq_getElem hlt)
        have hborder : (off + (R.read off n).length) % pessimisticPageSize = 0 := by
          by_contra hne
          have hsame := hR (off + ((R.read off n).length - 1)) (off + (R.read off n).length) (by
            unfold pessimisticPageSize at hne ⊢
            omega)
          rw [hlast, hstop] at hsame
          cases hsame
        unfold pessimisticPageSize at hborder hle ⊢
        omega
    have hsome := hR _ _ hpage
    rw [hstop] at hsome
    change R.byte (off + (R.read off n).length + i) = none
    exact Option.isNone_iff_eq_none.1 (by rw [← Option.not_isSome, hsome]; rfl)

/-- What a step writes: ranges with a property, `size` bytes of what is wanted. -/
structure Writes (P : MemoryRange → Prop) (w : OutputWriteHelper) (size : Nat)
    (w' : OutputWriteHelper) : Prop where
  ranges : ∃ new, w'.ranges = w.ranges ++ new ∧ Tiles P w.currentOffset (w.currentOffset + size) new
  offset : w'.currentOffset = w.currentOffset + size
  bytes : w'.bytesToWrite = w.bytesToWrite - size

variable {P : MemoryRange → Prop} {w w' w'' : OutputWriteHelper} {size size' : Nat}

theorem writes_nothing (P : MemoryRange → Prop) (w : OutputWriteHelper) : Writes P w 0 w :=
  ⟨⟨[], (List.append_nil _).symm, rfl⟩, rfl, rfl⟩

theorem Writes.trans (h : Writes P w size w') (h' : Writes P w' size' w'') :
    Writes P w (size + size') w'' := by
  obtain ⟨new, hnew, htiles⟩ := h.ranges
  obtain ⟨new', hnew', htiles'⟩ := h'.ranges
  refine ⟨⟨new ++ new', ?_, ?_⟩, ?_, ?_⟩
  · rw [hnew', hnew, List.append_assoc]
  · rw [h.offset, Nat.add_assoc] at htiles'
    exact htiles.append htiles'
  · rw [h'.offset, h.offset, Nat.add_assoc]
  · rw [h'.bytes, h.bytes, Nat.sub_sub]

theorem writes_onRange {delta : Nat} {data : Option (List Byte)} (hpos : 0 < delta)
    (hP : P ⟨w.currentOffset, delta, data⟩) : Writes P w delta (w.onRange delta data) :=
  ⟨⟨_, rfl, tiles_singleton (r := ⟨w.currentOffset, delta, data⟩) hpos hP⟩, rfl, rfl⟩

theorem pessimistic_pos (off : Nat) {bad : Nat} (hbad : 0 < bad) :
    0 < pessimisticSizeToReport off bad := by
  unfold pessimisticSizeToReport pessimisticPageSize
  split <;> omega

theorem pessimistic_le (off bad : Nat) :
    pessimisticSizeToReport off bad ≤ bad := Nat.min_le_left _ _

/-- The space is probed to its end, and every range shows what the reader has. -/
theorem probeSpace_spec (hR : PageWise R) {lo hi : Nat}
    (hP : ∀ r : MemoryRange, r.Shows R.byte → r.size ≤ optimisticPageSize → lo ≤ r.address →
      r.address + r.size ≤ hi → P r)
    {mode : Bool} (hn : size < n) (hlo : lo ≤ w.currentOffset) (hhi : w.currentOffset + size = hi)
    (hsize : size ≤ w.bytesToWrite) :
    ∃ w', probeSpace R n mode size w = some w' ∧ Writes P w size w' := by
  induction n generalizing mode size w with
  | zero => exact absurd hn (Nat.not_lt_zero _)
  | succ n ih =>
    unfold probeSpace
    by_cases hzero : size = 0
    · rw [if_pos hzero, hzero]
      exact ⟨w, rfl, writes_nothing P w⟩
    · rw [if_neg hzero]
      dsimp only
      generalize htoRead : min size (if mode = true then optimisticPageSize
        else pessimisticPageSize) = toRead
      have htoReadLe : toRead ≤ size ∧ toRead ≤ optimisticPageSize ∧ 0 < toRead := by
        rw [← htoRead]
        unfold optimisticPageSize pessimisticPageSize
        split <;> omega
      have hlength : (R.read w.currentOffset toRead).length ≤ toRead := length_readFrom_le _ _ _
      generalize hread : R.read w.currentOffset toRead = read at hlength
      generalize hwritten : (if read = [] then w else w.write read) = written
      have hdata : Writes P w read.length written := by
        rw [← hwritten]
        by_cases hempty : read = []
        · rw [if_pos hempty, hempty]
          exact writes_nothing P w
        · have hpos : 0 < read.length := List.length_pos_iff.2 hempty
          have hwrite : w.write read = w.onRange read.length (some read) := by
            unfold OutputWriteHelper.write
            rw [Nat.min_eq_left (by omega), List.take_length]
          rw [if_neg hempty, hwrite]
          refine writes_onRange hpos (hP _ ?_ (by dsimp only; omega) hlo (by dsimp only; omega))
          rw [← hread]
          exact shows_read R w.currentOffset toRead
      have hbytes := hdata.bytes
      have hoffset := hdata.offset
      by_cases hend : size - read.length = 0
      · have hne : read ≠ [] := by
          rintro rfl
          exact hzero hend
        rw [if_pos ⟨hne, .inr hend⟩, show size = read.length by omega]
        exact ⟨written, rfl, hdata⟩
      · have hnotDone : ¬ written.Done := by
          unfold OutputWriteHelper.Done
          omega
        rw [if_neg fun h => h.2.elim hnotDone hend]
        by_cases hfull : read.length = toRead
        · -- everything that was asked for could be read
          rw [if_pos hfull]
          obtain ⟨w', hw', hwrites⟩ :=
            @ih written (size - read.length) true (by omega) (by omega) (by omega)
            (by omega)
          refine ⟨w', hw', ?_⟩
          have h := hdata.trans hwrites
          rwa [Nat.add_sub_cancel' (by omega)] at h
        · rw [if_neg hfull]
          have hbadPos := @pessimistic_pos w.currentOffset (toRead - read.length) (by omega)
          have hbadLe := pessimistic_le w.currentOffset (toRead - read.length)
          have hshows := @shows_bad R w.currentOffset toRead hR (by rw [hread]; omega)
          rw [hread] at hshows
          generalize pessimisticSizeToReport w.currentOffset (toRead - read.length) =
            bad at hbadPos hbadLe hshows ⊢
          have hinvalid : written.writeInvalidRegion bad = written.onRange bad none := by
            unfold OutputWriteHelper.writeInvalidRegion
            rw [Nat.min_eq_left (by omega)]
          have hreported : Writes P w (read.length + bad) (written.writeInvalidRegion bad) := by
            rw [hinvalid]
            refine hdata.trans (writes_onRange hbadPos
              (hP _ ?_ (by dsimp only; omega) (by dsimp only; omega) (by dsimp only; omega)))
            rw [hoffset]
            exact hshows
          generalize written.writeInvalidRegion bad = reported at hreported ⊢
          have hbytes' := hreported.bytes
          have hoffset' := hreported.offset
          by_cases hdone : reported.Done
          · rw [if_pos hdone]
            unfold OutputWriteHelper.Done at hdone
            rw [show size = read.length + bad by omega]
            exact ⟨reported, rfl, hreported⟩
          · rw [if_neg hdone]
            obtain ⟨w', hw', hwrites⟩ :=
              @ih reported (size - read.length - bad) false (by omega) (by omega)
              (by omega) (by omega)
            refine ⟨w', hw', ?_⟩
            have h := hreported.trans hwrites
            rwa [Nat.sub_sub, Nat.add_sub_cancel' (by omega)] at h

theorem testAndReport_spec (hR : PageWise R) {hi : Nat}
    (hP : ∀ r : MemoryRange, r.Shows R.byte → r.size ≤ optimisticPageSize →
      w.currentOffset ≤ r.address → r.address + r.size ≤ hi → P r)
    (hn : w.bytesToWrite < n) (hhi : w.currentOffset + min size w.bytesToWrite = hi) :
    ∃ w', testAndReport R true n size w = some w' ∧ Writes P w (min size w.bytesToWrite) w' := by
  unfold testAndReport
  rw [if_pos rfl]
  exact probeSpace_spec hR hP (by omega) le_rfl hhi (Nat.min_le_right _ _)

end

/-! ## All regions -/

namespace Storage

variable {ps : PageSize} (R : Reader) (s : Storage ps)

/-- A range that is reported: it lies in a modified page, or it meets none and has been read at
once. -/
structure Reported (r : MemoryRange) : Prop where
  content : r.Shows (s.content R)
  place : (∃ k d, s.pages.find k = some d ∧ k ≤ r.address ∧ r.address + r.size ≤ k + ps.bytes) ∨
    (r.size ≤ optimisticPageSize ∧
      ∀ k d, s.pages.find k = some d → r.address + r.size ≤ k ∨ k + ps.bytes ≤ r.address)

variable {R s} {n : Nat} {w : OutputWriteHelper}

/-- Between the pages the content is the reader's. -/
theorem reported_of_gap {lo hi : Nat}
    (hgap : ∀ k d, s.pages.find k = some d → hi ≤ k ∨ k + ps.bytes ≤ lo) (r : MemoryRange)
    (hshows : r.Shows R.byte) (hsize : r.size ≤ optimisticPageSize) (hlo : lo ≤ r.address)
    (hhi : r.address + r.size ≤ hi) : s.Reported R r where
  content := by
    refine ⟨hshows.length, fun i hi' => ?_⟩
    rw [← hshows.content i hi']
    refine content_of_find_none ?_
    cases hfind : s.pages.find (ps.start (r.address + i)) with
    | none => rfl
    | some d =>
      have h1 := ps.start_le (r.address + i)
      have h2 := ps.lt_start (r.address + i)
      rcases hgap _ d hfind with h | h <;> omega
  place := .inr ⟨hsize, fun k d hk => by rcases hgap k d hk with h | h <;> omega⟩

/-- The rest of a page is reported, as far as it is wanted. -/
theorem writes_page {k : Nat} {d : List Byte} (hfind : s.pages.find k = some d)
    (hk : k ≤ w.currentOffset) (hlt : w.currentOffset < k + ps.bytes) (hwant : 0 < w.bytesToWrite) :
    Writes (s.Reported R) w (min (k + ps.bytes - w.currentOffset) w.bytesToWrite)
    (w.write (d.drop (w.currentOffset - k))) := by
  have hd := (s.page k d hfind).2
  have hlength : (d.drop (w.currentOffset - k)).length = k + ps.bytes - w.currentOffset := by
    rw [List.length_drop, hd]
    omega
  unfold OutputWriteHelper.write
  rw [hlength]
  refine writes_onRange (by omega) ⟨⟨?_, ?_⟩, .inl ⟨k, d, hfind, hk, by dsimp only; omega⟩⟩
  · intro d' hd'
    cases hd'
    rw [List.length_take, hlength]
    exact Nat.min_eq_left (Nat.min_le_left _ _)
  · intro i hi
    change i < min _ _ at hi
    change s.content R (w.currentOffset + i) = ((d.drop (w.currentOffset - k)).take _)[i]?
    rw [content_of_find hfind (by omega) (by omega), List.getElem?_take_of_lt hi,
      List.getElem?_drop]
    congr 1
    omega

/-- The loop over the pages writes everything that is wanted. -/
theorem reportPages_spec (hR : PageWise R) {k : Nat} {d : List Byte} {L : List (Nat × List Byte)}
    (hsorted : ((k, d) :: L).Pairwise fun e e' => e.1 < e'.1)
    (hfind : ∀ e ∈ (k, d) :: L, s.pages.find e.1 = some e.2)
    (hpages : ∀ j e, s.pages.find j = some e → (j, e) ∈ (k, d) :: L ∨
      j + ps.bytes ≤ w.currentOffset)
    (hk : k ≤ w.currentOffset) (hlt : w.currentOffset < k + ps.bytes) (hwant : 0 < w.bytesToWrite)
    (hn : w.bytesToWrite < n) :
    ∃ w', reportPages R true ps.bytes n ((k, d) :: L) w = some (.ok w') ∧ Writes
    (s.Reported R) w w.bytesToWrite w' := by
  induction L generalizing k d w with
  | nil =>
    have hpage := writes_page (R := R) (hfind (k, d) List.mem_cons_self) hk hlt hwant
    have hbytes := hpage.bytes
    have hoffset := hpage.offset
    unfold reportPages
    rw [if_neg (by omega)]
    dsimp only
    generalize w.write (d.drop (w.currentOffset - k)) = written at hpage hbytes hoffset ⊢
    by_cases hdone : written.Done
    · rw [if_pos hdone]
      unfold OutputWriteHelper.Done at hdone
      rw [show min (k + ps.bytes - w.currentOffset) w.bytesToWrite =
        w.bytesToWrite by omega] at hpage
      exact ⟨written, rfl, hpage⟩
    · unfold OutputWriteHelper.Done at hdone
      have hgap : ∀ j e, s.pages.find j = some e →
          written.currentOffset + written.bytesToWrite ≤ j ∨
          j + ps.bytes ≤ written.currentOffset := by
        intro j e hj
        rcases hpages j e hj with hmem | hle
        · obtain ⟨rfl, rfl⟩ := Prod.mk.inj (List.mem_singleton.1 hmem)
          exact .inr (by omega)
        · exact .inr (by omega)
      obtain ⟨w', hw', hwrites⟩ := @testAndReport_spec R n _ written written.bytesToWrite hR _
        (reported_of_gap hgap) (by omega) (by rw [Nat.min_self])
      rw [Nat.min_self] at hwrites
      have hall := hpage.trans hwrites
      have hbytes' := hall.bytes
      rw [if_neg (show ¬ written.Done from hdone), if_neg hdone, hw']
      dsimp only
      rw [if_pos (show w'.Done by unfold OutputWriteHelper.Done; omega)]
      rw [show min (k + ps.bytes - w.currentOffset) w.bytesToWrite + written.bytesToWrite =
        w.bytesToWrite by omega] at hall
      exact ⟨w', rfl, hall⟩
  | cons e L ih =>
    obtain ⟨k', d'⟩ := e
    have hpage := writes_page (R := R) (hfind (k, d) List.mem_cons_self) hk hlt hwant
    have hbytes := hpage.bytes
    have hoffset := hpage.offset
    obtain ⟨hfirst, hsorted'⟩ := List.pairwise_cons.1 hsorted
    have hnext : k + ps.bytes ≤ k' := by
      have h1 := (s.page k d (hfind (k, d) List.mem_cons_self)).1
      have h2 := (s.page k' d' (hfind (k', d') (List.mem_cons_of_mem _ List.mem_cons_self))).1
      exact PageSize.add_le h1 h2 (hfirst _ List.mem_cons_self)
    have hpos := ps.pos
    unfold reportPages
    rw [if_neg (by omega)]
    dsimp only
    generalize w.write (d.drop (w.currentOffset - k)) = written at hpage hbytes hoffset ⊢
    by_cases hdone : written.Done
    · rw [if_pos hdone]
      unfold OutputWriteHelper.Done at hdone
      rw [show min (k + ps.bytes - w.currentOffset) w.bytesToWrite =
        w.bytesToWrite by omega] at hpage
      exact ⟨written, rfl, hpage⟩
    · have hnotDone : written.bytesToWrite ≠ 0 := hdone
      rw [if_neg hdone]
      -- the pages that are left lie at the next one or behind it
      have hpages' : ∀ j e, s.pages.find j = some e → (j, e) ∈ (k', d') :: L ∨
          j + ps.bytes ≤ written.currentOffset := by
        intro j e hj
        rcases hpages j e hj with hmem | hle
        · rcases List.mem_cons.1 hmem with heq | hmem
          · obtain ⟨rfl, rfl⟩ := Prod.mk.inj heq
            exact .inr (by omega)
          · exact .inl hmem
        · exact .inr (by omega)
      have hrec : ∀ {u : OutputWriteHelper} {size : Nat},
        Writes (s.Reported R) w size u → u.currentOffset = k' →
          0 < u.bytesToWrite → ∃ w',
          reportPages R true ps.bytes n ((k', d') :: L) u = some (.ok w') ∧
            Writes (s.Reported R) w w.bytesToWrite w' := by
        intro u size hu hat hleft
        have hubytes := hu.bytes
        have huoffset := hu.offset
        obtain ⟨w', hw', hwrites⟩ :=
          ih (w := u) hsorted' (fun e he => hfind e (List.mem_cons_of_mem _ he))
          (fun j e hj => (hpages' j e hj).imp_right fun h => by omega) (by omega)
          (by omega) hleft (by omega)
        have hall := hu.trans hwrites
        rw [show size + u.bytesToWrite = w.bytesToWrite by omega] at hall
        exact ⟨w', hw', hall⟩
      by_cases hzero : k' - ps.bytes - k = 0
      · rw [if_pos hzero]
        exact hrec hpage (by omega) (by omega)
      · rw [if_neg hzero]
        have hgap : ∀ j e, s.pages.find j = some e →
            written.currentOffset + min (k' - ps.bytes - k) written.bytesToWrite ≤ j ∨
              j + ps.bytes ≤ written.currentOffset := by
          intro j e hj
          rcases hpages' j e hj with hmem | hle
          · left
            rcases List.mem_cons.1 hmem with heq | hmem
            · obtain ⟨rfl, rfl⟩ := Prod.mk.inj heq
              omega
            · have := (List.pairwise_cons.1 hsorted').1 _ hmem
              dsimp only at this
              omega
          · exact .inr hle
        obtain ⟨w', hw', hwrites⟩ := @testAndReport_spec R n _ written (k' - ps.bytes - k) hR _
          (reported_of_gap hgap) (by omega) rfl
        have hall := hpage.trans hwrites
        have hbytes' := hall.bytes
        have hoffset' := hall.offset
        rw [hw']
        dsimp only
        by_cases hdone' : w'.Done
        · rw [if_pos hdone']
          unfold OutputWriteHelper.Done at hdone'
          rw [show min (k + ps.bytes - w.currentOffset) w.bytesToWrite +
            min (k' - ps.bytes - k) written.bytesToWrite = w.bytesToWrite by omega] at hall
          exact ⟨w', rfl, hall⟩
        · rw [if_neg hdone']
          unfold OutputWriteHelper.Done at hdone'
          exact hrec hall (by omega) (by omega)

/-- The ranges that are reported follow each other from the start to the end. -/
theorem tiles_reportRegions (hR : PageWise R) (s : Storage ps) (startAddress size : Nat)
    (hn : size < n) : ∃ ranges, s.reportRegions R true n startAddress size = some (.ok ranges) ∧
      Tiles (s.Reported R) startAddress (startAddress + size) ranges := by
  have hfrom : ∀ {w' : OutputWriteHelper}, Writes (s.Reported R) ⟨startAddress, size, []⟩ size w' →
      Tiles (s.Reported R) startAddress (startAddress + size) w'.ranges := by
    intro w' h
    obtain ⟨new, hnew, htiles⟩ := h.ranges
    rw [hnew]
    exact htiles
  have h1 := ps.start_le startAddress
  have h2 := ps.lt_start startAddress
  unfold reportRegions
  dsimp only
  by_cases hzero : size = 0
  · rw [if_pos hzero, hzero]
    exact ⟨[], rfl, rfl⟩
  rw [if_neg hzero]
  -- a page below the first one ends before the start
  have hbelow : ∀ j e, s.pages.find j = some e →
      (j, e) ∈ s.pages.lowerBound (ps.start startAddress) ∨ j + ps.bytes ≤ startAddress := by
    intro j e hj
    by_cases hle : ps.start startAddress ≤ j
    · exact .inl (s.pages.mem_lowerBound.2 ⟨hj, hle⟩)
    · have := PageSize.add_le (s.page j e hj).1 (ps.dvd_start startAddress) (Nat.lt_of_not_le hle)
      exact .inr (by omega)
  have hsorted := s.pages.sorted_lowerBound (ps.start startAddress)
  have hfind : ∀ e ∈ s.pages.lowerBound (ps.start startAddress),
      s.pages.find e.1 = some e.2 ∧ ps.start startAddress ≤ e.1 :=
    fun e he => s.pages.mem_lowerBound.1 he
  cases hL : s.pages.lowerBound (ps.start startAddress) with
  | nil =>
    rw [hL] at hbelow
    obtain ⟨w', hw', hwrites⟩ :=
      @testAndReport_spec R n (s.Reported R) ⟨startAddress, size, []⟩ size hR
      (startAddress + size) (reported_of_gap fun j e hj =>
        .inr ((hbelow j e hj).resolve_left List.not_mem_nil)) hn (by rw [Nat.min_self])
    rw [Nat.min_self] at hwrites
    rw [hw']
    exact ⟨w'.ranges, rfl, hfrom hwrites⟩
  | cons e L =>
    obtain ⟨k, d⟩ := e
    rw [hL] at hbelow hsorted hfind
    have hfirst := hfind (k, d) List.mem_cons_self
    dsimp only at hfirst ⊢
    by_cases hlt : startAddress < k
    · rw [if_pos hlt]
      have hgap : ∀ j e, s.pages.find j = some e →
          startAddress + min (min (k - startAddress) size) size ≤ j ∨
          j + ps.bytes ≤ startAddress := by
        intro j e hj
        refine (hbelow j e hj).imp_left fun hmem => ?_
        rcases List.mem_cons.1 hmem with heq | hmem
        · obtain ⟨rfl, rfl⟩ := Prod.mk.inj heq
          omega
        · have := (List.pairwise_cons.1 hsorted).1 _ hmem
          dsimp only at this
          omega
      obtain ⟨w, hw, hwrites⟩ :=
        @testAndReport_spec R n _ ⟨startAddress, size, []⟩ (min (k - startAddress) size)
        hR _ (reported_of_gap hgap) hn rfl
      have hbytes : w.bytesToWrite = size - min (min (k - startAddress) size) size := hwrites.bytes
      have hoffset : w.currentOffset = startAddress + min (min (k - startAddress) size) size :=
        hwrites.offset
      rw [hw]
      dsimp only
      by_cases hdone : w.Done
      · rw [if_pos ⟨hlt, hdone⟩]
        unfold OutputWriteHelper.Done at hdone
        change Writes _ _ (min (min (k - startAddress) size) size) w at hwrites
        rw [show min (min (k - startAddress) size) size = size by omega] at hwrites
        exact ⟨w.ranges, rfl, hfrom hwrites⟩
      · rw [if_neg fun h => hdone h.2]
        unfold OutputWriteHelper.Done at hdone
        have hpos := ps.pos
        obtain ⟨w', hw', hrest⟩ :=
          reportPages_spec (w := w) (n := n) hR hsorted (fun e he => (hfind e he).1)
          (fun j e hj => (hbelow j e hj).imp_right fun h => by omega) (by omega) (by omega)
          (by omega) (by omega)
        have hall := hwrites.trans hrest
        change Writes _ _ (min (min (k - startAddress) size) size + _) w' at hall
        rw [show min (min (k - startAddress) size) size + w.bytesToWrite = size by omega] at hall
        rw [hw']
        exact ⟨w'.ranges, rfl, hfrom hall⟩
    · rw [if_neg hlt]
      dsimp only
      rw [if_neg fun h => hlt h.1]
      obtain ⟨w', hw', hrest⟩ :=
        reportPages_spec (w := ⟨startAddress, size, []⟩) (n := n) hR hsorted
        (fun e he => (hfind e he).1) hbelow (Nat.le_of_not_lt hlt) (by dsimp only; omega)
        (Nat.pos_of_ne_zero hzero) hn
      rw [hw']
      exact ⟨w'.ranges, rfl, hfrom hrest⟩

/-- A byte of the content is one of a modified page or of the reader. -/
theorem isSome_content (R : Reader) (s : Storage ps) (a : Nat) :
    (s.content R a).isSome ↔ (s.pages.find (ps.start a)).isSome ∨ (R.byte a).isSome := by
  cases hfind : s.pages.find (ps.start a) with
  | none =>
    rw [content_of_find_none hfind]
    simp
  | some d =>
    have h1 := ps.start_le a
    have h2 := ps.lt_start a
    have hd := (s.page _ d hfind).2
    rw [content_of_find hfind h1 h2, List.getElem?_eq_getElem (by omega)]
    simp

/-- `Read` gives the data of a range that is reported. -/
theorem Reported.read {r : MemoryRange} (h : s.Reported R r) (hsize : 0 < r.size) :
    (s.read R r.address r.size).1 = .ok (r.data.getD []) := by
  have hps := ps.lt
  have hmax : r.size + ps.bytes ≤ maxSize := by
    unfold maxSize
    rcases h.place with ⟨k, d, -, h1, h2⟩ | ⟨hle, -⟩
    · omega
    · unfold optimisticPageSize at hle
      omega
  have hfit : s.CrossedGapsFit r.address r.size := by
    intro k k' hk _ _ _ hlo hhi
    obtain ⟨e, he⟩ := Option.isSome_iff_exists.1 hk
    rcases h.place with ⟨j, d, hj, h1, h2⟩ | ⟨-, hpages⟩
    · -- a page that ends in another one
      have hdvd := (s.page k e he).1
      have hdvd' := (s.page j d hj).1
      rcases Nat.lt_trichotomy k j with hlt | rfl | hlt
      · have := PageSize.add_le hdvd hdvd' hlt
        omega
      · omega
      · have := PageSize.add_le hdvd' hdvd hlt
        omega
    · rcases hpages k e he with h | h <;> omega
  rw [(read_spec hmax hfit).1]
  have hcontent := h.content.content
  cases hdata : r.data with
  | none =>
    rw [hdata] at hcontent
    obtain ⟨n, hn⟩ : ∃ n, r.size = n + 1 := ⟨r.size - 1, by omega⟩
    rw [hn, readFrom_of_none (show s.content R r.address = none from hcontent 0 hsize)]
    rfl
  | some d =>
    have hlength := h.content.length d hdata
    rw [hdata] at hcontent
    rw [← hlength, readFrom_eq_of_get _ d fun i b hb => ?_]
    · rfl
    · have hi : i < r.size := by
        rw [← hlength]
        exact (List.getElem?_eq_some_iff.1 hb).1
      exact (hcontent i hi).trans hb

end Storage

/-! ## Groups -/

section

variable {V : Nat → Option Byte} {a b : Nat}

/-- Two ranges of one kind that follow each other are joined. -/
theorem shows_joined {p r : MemoryRange} (hp : p.Shows V) (hr : r.Shows V)
    (hkind : p.hasData = r.hasData) (haddress : r.address = p.address + p.size) :
    MemoryRange.Shows V ⟨p.address, p.size + r.size, p.data.map (· ++ r.data.getD [])⟩ := by
  unfold MemoryRange.hasData at hkind
  have hcontent : ∀ i < p.size + r.size,
      p.size ≤ i → V (p.address + i) = r.data.bind (·[i - p.size]?) := by
    intro i hi hle
    have h := hr.content (i - p.size) (by omega)
    rwa [haddress, Nat.add_assoc, Nat.add_sub_cancel' hle] at h
  cases hpd : p.data with
  | none =>
    have hrd : r.data = none :=
      Option.isNone_iff_eq_none.1 (by rw [← Option.not_isSome, ← hkind, hpd]; rfl)
    refine ⟨nofun, fun i hi => ?_⟩
    change V (p.address + i) = none
    by_cases hlt : i < p.size
    · rw [hp.content i hlt, hpd]
      rfl
    · rw [hcontent i hi (by omega), hrd]
      rfl
  | some dp =>
    rw [hpd] at hkind
    obtain ⟨dr, hrd⟩ := Option.isSome_iff_exists.1 hkind.symm
    have hlp := hp.length dp hpd
    have hlr := hr.length dr hrd
    refine ⟨fun d hd => ?_, fun i hi => ?_⟩
    · rw [hrd] at hd
      cases hd
      rw [Option.getD_some, List.length_append, hlp, hlr]
    · change V (p.address + i) = (dp ++ r.data.getD [])[i]?
      rw [hrd, Option.getD_some]
      by_cases hlt : i < p.size
      · rw [hp.content i hlt, hpd, List.getElem?_append_left (by omega)]
        rfl
      · rw [hcontent i hi (by omega), hrd, List.getElem?_append_right (by omega), hlp]
        rfl

/-- Neighbours differ in having data. -/
def Maximal (l : List MemoryRange) : Prop := l.IsChain fun r r' => r.hasData ≠ r'.hasData

theorem grouped_some {p : MemoryRange} {l : List MemoryRange} (hp : p.Shows V) (hsize : 0 < p.size)
    (h : Tiles (MemoryRange.Shows V) (p.address + p.size) b l) :
    ∃ groups, grouped (some p) l = .ok groups ∧ Tiles (MemoryRange.Shows V) p.address b groups ∧
    Maximal groups ∧
      ∀ g ∈ groups.head?, g.hasData = p.hasData := by
  induction l generalizing p with
  | nil =>
    obtain rfl : p.address + p.size = b := h
    exact ⟨[p], rfl, tiles_singleton hsize hp, List.isChain_singleton _,
      fun g hg => by rw [Option.mem_some_iff.1 hg]⟩
  | cons r rest ih =>
    obtain ⟨haddress, hrsize, hr, hrest⟩ := h
    unfold grouped groupOnRange
    dsimp only
    by_cases hkind : p.hasData = r.hasData
    · rw [if_pos hkind, if_neg (not_not_intro haddress.symm)]
      obtain ⟨groups, hgroups, htiles, hmaximal, hhead⟩ :=
        ih (p := ⟨p.address, p.size + r.size, p.data.map (· ++ r.data.getD [])⟩)
        (shows_joined hp hr hkind haddress) (Nat.add_pos_left hsize _)
        (by rwa [Nat.add_assoc] at hrest)
      refine ⟨groups, ?_, htiles, hmaximal, fun g hg => ?_⟩
      · change (([] ++ ·) <$> grouped _ rest) = _
        rw [hgroups]
        rfl
      · rw [hhead g hg]
        exact Option.isSome_map
    · rw [if_neg hkind]
      obtain ⟨groups, hgroups, htiles, hmaximal, hhead⟩ := ih hr hrsize (by rwa [haddress])
      refine ⟨p :: groups, ?_, ⟨rfl, hsize, hp, by rwa [haddress] at htiles⟩, ?_,
        fun g hg => by rw [Option.mem_some_iff.1 hg]⟩
      · change (([p] ++ ·) <$> grouped _ rest) = _
        rw [hgroups]
        rfl
      · exact List.isChain_cons.2 ⟨fun g hg => by rw [hhead g hg]; exact hkind, hmaximal⟩

/-- The groups show what the ranges do, and are maximal. -/
theorem grouped_spec {l : List MemoryRange} (h : Tiles (MemoryRange.Shows V) a b l) :
    ∃ groups, grouped none l = .ok groups ∧ Tiles (MemoryRange.Shows V) a b groups ∧
    Maximal groups := by
  cases l with
  | nil => exact ⟨[], rfl, h, List.isChain_nil⟩
  | cons r rest =>
    obtain ⟨rfl, hsize, hr, hrest⟩ := h
    obtain ⟨groups, hgroups, htiles, hmaximal, -⟩ := grouped_some hr hsize hrest
    refine ⟨groups, ?_, htiles, hmaximal⟩
    change (([] ++ ·) <$> grouped (some r) rest) = _
    rw [hgroups]
    rfl

end

/-- Over a reader whose readability is constant on pages of 4 KB `ReportRegions` comes to an end.
Its ranges tile the range, show the content and are what `Read` gives; the groups tile it too, and
neighbours differ. -/
theorem reportRegions_spec {ps : PageSize} {R : Reader} (hR : PageWise R) (s : Storage ps)
    (startAddress size : Nat) :
    ∃ n ranges, s.reportRegions R true n startAddress size = some (.ok ranges) ∧
      Tiles (fun r => r.Shows (s.content R) ∧ (s.read R r.address r.size).1 = .ok (r.data.getD []))
      startAddress
        (startAddress + size) ranges ∧
      (∀ a, (s.content R a).isSome ↔ (s.pages.find (ps.start a)).isSome ∨ (R.byte a).isSome) ∧
      ∃ groups, grouped none ranges = .ok groups ∧
        Tiles (MemoryRange.Shows (s.content R)) startAddress (startAddress + size) groups ∧
        Maximal groups := by
  obtain ⟨ranges, hranges, htiles⟩ :=
    Storage.tiles_reportRegions hR s startAddress size (Nat.lt_succ_self size)
  refine ⟨size + 1, ranges, hranges, ?_, Storage.isSome_content R s,
    grouped_spec (htiles.imp fun r _ h => h.content)⟩
  exact htiles.imp fun r hsize h => ⟨h.content, h.read hsize⟩

/-- The first page of 4 KB can be read. -/
def onePage : Reader where
  byte a := if a < pessimisticPageSize then some 7 else none
  byte_eq_none a h := if_neg (by unfold pessimisticPageSize; omega)

theorem pageWise_onePage : PageWise onePage := by
  intro a b h
  unfold onePage
  dsimp only
  by_cases ha : a < pessimisticPageSize
  · rw [if_pos ha, if_pos (by unfold pessimisticPageSize at *; omega)]
  · rw [if_neg ha, if_neg (by unfold pessimisticPageSize at *; omega)]

/-- Two bytes were written behind it. -/
def writtenPage : Storage page16 :=
  ((Storage.empty page16 false).write onePage true 0x1004 [1, 2]).1

/-- A readable page, the written one and one that cannot be read. -/
theorem reportRegions_spec_onePage : ∃ n ranges,
    writtenPage.reportRegions onePage true n 0xFF0 0x30 = some (.ok ranges) ∧
      Tiles (fun r => r.Shows (writtenPage.content onePage) ∧
        (writtenPage.read onePage r.address r.size).1 = .ok (r.data.getD [])) 0xFF0
        (0xFF0 + 0x30) ranges ∧
      (∀ a, (writtenPage.content onePage a).isSome ↔
        (writtenPage.pages.find (page16.start a)).isSome ∨ (onePage.byte a).isSome) ∧
      ∃ groups, grouped none ranges = .ok groups ∧
        Tiles (MemoryRange.Shows (writtenPage.content onePage)) 0xFF0 (0xFF0 + 0x30) groups ∧
        Maximal groups :=
  reportRegions_spec pageWise_onePage writtenPage 0xFF0 0x30

example : (writtenPage.content onePage 0x1005, writtenPage.content onePage 0x1010) =
    (some 2, none) := by decide

end Diana.Orthia
