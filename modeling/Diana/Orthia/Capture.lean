import Mathlib.Logic.Function.Basic
import Diana.Lib.Copies
import Diana.Orthia.FloatingCollect
import Diana.Orthia.FolderFiles

/-!
# Captures into one folder

`orthia_capture.cpp`: `CaptureProcess` and `CaptureRange` write the bytes of memory regions to files
of the folder, one after the other, then merge the regions into the index of the folder and remove
the files that the index no longer names. Several of them may run at once; an index step is atomic.

* `State`, `step`: the folder and the runs in progress, one step of one of them;
* `Sound`: what an index has to be;
* `Allowed`: the steps that keep it so, `sound_of_allAllowed` the runs of them.

A file is named by the base and the size of its region, so two runs write the same files. An index
step that removes a file may remove one that another run has just written and will name;
`CaptureRange` writes back a flag that it read before; and the merge does not replace what ends with
the address space.
-/

namespace Diana.Orthia

/-! ## Memory maps -/

namespace Collect.MemoryRegionInfo

/-- The address behind the region, up to `2 ^ 64`. -/
def stop (info : MemoryRegionInfo) : Nat := info.regionBase.val + info.regionSize.val

/-- The region is not empty and lies inside of the address space. -/
structure Fits (info : MemoryRegionInfo) : Prop where
  pos : 0 < info.regionSize.val
  le : info.stop ≤ 2 ^ 64

/-- `IsReadable` -/
def isReadable (info : MemoryRegionInfo) : Bool :=
  info.committed && (info.protect % 2 == 1 || info.exec)

end Collect.MemoryRegionInfo

namespace Capture

open Collect (MemoryRegionInfo)
open Folder (Text CapturedRegion CapturedThread CaptureIndex mergeCapturedRegions)

/-- The memory map of a process, as a run sees it. -/
structure MemoryMap where
  regions : List MemoryRegionInfo
  fits : ∀ info ∈ regions, info.Fits
  apart : regions.Pairwise fun info other => info.stop ≤ other.regionBase.val

/-- `QueryMemoryRegion` -/
def MemoryMap.query (map : MemoryMap) (address : Address) : Option MemoryRegionInfo :=
  map.regions.find? fun info => info.regionBase ≤ address ∧ address.val < info.stop

/-! ## Files -/

/-- `<base>_<size>.bin` -/
def fileName (base size : Address) : Text where
  val := toHex base.val ++ 95 :: (toHex size.val ++ 46 :: ascii "bin")
  property := by
    have hbin : (0 : Byte) ∉ ascii "bin" := by decide
    simp only [List.mem_append, List.mem_cons, zero_notMem_toHex, hbin, false_or, or_false, not_or]
    exact ⟨by decide, by decide⟩

theorem fileName_ne_empty (base size : Address) : fileName base size ≠ Text.empty := by
  intro h
  have hval := congrArg Subtype.val h
  simp [fileName, Text.empty] at hval

/-- A name is that of one base and one size. -/
theorem fileName_inj {base size base' size' : Address}
    (h : fileName base size = fileName base' size') : base = base' ∧ size = size' := by
  have hval : toHex base.val ++ 95 :: (toHex size.val ++ 46 :: ascii "bin") =
      toHex base'.val ++ 95 :: (toHex size'.val ++ 46 :: ascii "bin") := congrArg Subtype.val h
  have hbase := congrArg readHex hval
  rw [readHex_toHex base.isLt (by decide), readHex_toHex base'.isLt (by decide), Prod.mk.injEq,
    List.cons.injEq] at hbase
  have hsize := congrArg readHex hbase.2.2
  rw [readHex_toHex size.isLt (by decide), readHex_toHex size'.isLt (by decide),
    Prod.mk.injEq] at hsize
  exact ⟨Fin.ext hbase.1, Fin.ext hsize.1⟩

/-- `ToCaptured`, and what `SaveRegionBytes` adds when the bytes are saved. The index keeps a name
up to its first zero. -/
def toCaptured (info : MemoryRegionInfo) (saved : Bool) (missing : Address) : CapturedRegion where
  base := info.regionBase
  size := info.regionSize
  allocationBase := info.allocationBase
  protect := info.protect
  committed := info.committed
  type := info.type
  name := ⟨info.mappedName.takeWhile (· ≠ 0), fun h => by simpa using List.mem_takeWhile_imp h⟩
  file := if saved then fileName info.regionBase info.regionSize else Text.empty
  missing := if saved then missing else 0

/-! ## Runs -/

/-- A capture in progress, with the regions it has gone through. -/
inductive Run where
  /-- `CaptureProcess`, with the rest of the map -/
  | process (left : List MemoryRegionInfo) (regions : List CapturedRegion) (complete : Bool)
  /-- the loop of `CaptureRange` -/
  | range (map : MemoryMap) (address stop : Address) (regions : List CapturedRegion)
  /-- `CaptureRange` behind its loop, with the flag it has read -/
  | flagged (regions : List CapturedRegion) (complete : Bool)

def Run.regions : Run → List CapturedRegion
  | .process _ regions _ => regions
  | .range _ _ _ regions => regions
  | .flagged regions _ => regions

structure State where
  /-- the files of the folder and their sizes -/
  files : Text → Option Nat
  index : CaptureIndex
  /-- the captures in progress -/
  runs : Nat → Option Run
  /-- the latest `CaptureProcess` that stored its index was cancelled -/
  cancelled : Bool

/-- An empty folder. -/
def State.empty : State where
  files _ := none
  index := { createdUnix := 0, complete := true, regions := [], hasThreads := false, threads := [] }
  runs _ := none
  cancelled := false

inductive Event where
  | startProcess (id : Nat) (map : MemoryMap)
  | startRange (id : Nat) (map : MemoryMap) (base size : Address)
  /-- a region, what `progress` answers, and how many of the bytes can't be read -/
  | next (id : Nat) (go : Bool) (missing : Address)
  /-- `CaptureRange` leaves its loop and reads the index -/
  | readFlag (id : Nat)
  /-- `StoreCapture`, at a time and with the threads of the process -/
  | store (id : Nat) (now : Int) (threads : List CapturedThread)
  /-- an exception -/
  | fail (id : Nat)

/-- `c_readChunk` -/
def readChunk : Nat := 0x10000

/-- The loop of `SaveRegionBytes` comes to its end: its offset does not go past `2 ^ 64`. -/
def saves (info : MemoryRegionInfo) : Prop := info.regionSize.val ≤ 2 ^ 64 - readChunk

instance (info : MemoryRegionInfo) : Decidable (saves info) :=
  inferInstanceAs (Decidable (_ ≤ _))

/-- The bytes of a region go to its file. -/
def State.save (s : State) (info : MemoryRegionInfo) (saved : Bool) : Text → Option Nat :=
  if saved then
    Function.update s.files (fileName info.regionBase info.regionSize) (some info.regionSize.val)
  else s.files

def State.setRun (s : State) (id : Nat) (run : Option Run) : State :=
  { s with runs := Function.update s.runs id run }

theorem State.setRun_self (s : State) (id : Nat) (run : Option Run) :
    (s.setRun id run).runs id = run := Function.update_self ..

theorem State.setRun_ne (s : State) {id id' : Nat} (run : Option Run) (h : id' ≠ id) :
    (s.setRun id run).runs id' = s.runs id' := Function.update_of_ne h ..

/-- What `CaptureRange` takes from the index. -/
def flag (index : CaptureIndex) : Bool :=
  if index.regions = [] then true else index.complete

/-- The regions after `StoreCapture`. -/
def State.merged (s : State) (regions : List CapturedRegion) : List CapturedRegion :=
  mergeCapturedRegions s.index.regions regions

/-- `RemoveReplacedFiles` removes the file. -/
def State.removes (s : State) (regions : List CapturedRegion) (f : Text) : Prop :=
  (∃ old ∈ s.index.regions, old.file ≠ Text.empty ∧ old.file = f) ∧
    ∀ r ∈ s.merged regions, r.file ≠ f

instance (s : State) (regions : List CapturedRegion) (f : Text) :
    Decidable (s.removes regions f) := inferInstanceAs (Decidable (_ ∧ _))

/-- `StoreCapture` -/
def State.storeCapture (s : State) (regions : List CapturedRegion)
    (threads : Option (List CapturedThread)) (complete : Bool) (now : Int) : State :=
  { s with
    index :=
      { createdUnix := now
        complete := complete
        regions := s.merged regions
        hasThreads := threads.isSome || s.index.hasThreads
        threads := threads.getD s.index.threads }
    files := fun f => if s.removes regions f then none else s.files f }

def step (s : State) : Event → Option State
  | .startProcess id map =>
    match s.runs id with
    | some _ => none
    | none => some (s.setRun id (some (.process map.regions [] true)))
  | .startRange id map base size =>
    match s.runs id with
    | some _ => none
    | none => some (s.setRun id (some (.range map base (base + size) [])))
  | .next id go missing =>
    match s.runs id with
    | some (.process (info :: left) regions complete) =>
      let saved := complete && info.isReadable
      if saved = true → saves info then
        some ({ s with files := s.save info saved }.setRun id
          -- the map is still saved whole; the bytes stop here
          (some (.process left (regions ++ [toCaptured info saved missing])
            (complete && !(saved && !go)))))
      else none
    | some (.range map address stop regions) =>
      match map.query address with
      | none => none
      | some info =>
        -- a region that ends with the address space ends the loop
        if address < stop ∧ address < info.regionBase + info.regionSize ∧
            (info.isReadable = true → saves info) then
          some ({ s with files := s.save info info.isReadable }.setRun id
            (some (.range map (info.regionBase + info.regionSize) stop
              (regions ++ [toCaptured info info.isReadable missing]))))
        else none
    | _ => none
  | .readFlag id =>
    match s.runs id with
    | some (.range map address stop regions) =>
      if address < stop ∧ ∃ info ∈ map.query address,
        address < info.regionBase + info.regionSize then
        none
      else if regions = [] then some (s.setRun id none)
      else some (s.setRun id (some (.flagged regions (flag s.index))))
    | _ => none
  | .store id now threads =>
    match s.runs id with
    | some (.process [] regions complete) =>
      let threads := if complete then some threads else none
      some { s.storeCapture regions threads complete now with
        runs := Function.update s.runs id none, cancelled := !complete }
    | some (.flagged regions complete) =>
      some { s.storeCapture regions none complete now with
        runs := Function.update s.runs id none }
    | _ => none
  | .fail id =>
    match s.runs id with
    | some _ => some (s.setRun id none)
    | none => none

/-! ## What the index has to be -/

structure Sound (s : State) : Prop where
  /-- a region that names a file names one that is there, of its size -/
  named : ∀ r ∈ s.index.regions, r.file ≠ Text.empty → s.files r.file = some r.size.val
  apart : s.index.regions.Pairwise fun r r' => ¬r.Overlaps r'
  cancelled : s.cancelled = true → s.index.complete = false

/-- An index step
* removes no file that another run has written and not yet stored;
* does not write back a flag that has turned false since it was read;
* replaces every region that its regions overlap. -/
structure MayStore (s : State) (id : Nat) (run : Run) : Prop where
  keeps : ∀ f, s.removes run.regions f → ∀ id' ≠ id, ∀ run', s.runs id' = some run' →
    ∀ r ∈ run'.regions, r.file ≠ f
  flag : ∀ regions, run = .flagged regions true → flag s.index = true
  replaceable : Folder.Replaceable s.index.regions run.regions

def Allowed (s : State) : Event → Prop
  | .store id _ _ => ∀ run, s.runs id = some run → MayStore s id run
  | _ => True

def runSteps (s : State) : List Event → Option State
  | [] => some s
  | e :: es => (step s e).bind (runSteps · es)

/-- Every step of the run is allowed. -/
def AllAllowed (s : State) : List Event → Prop
  | [] => True
  | e :: es => Allowed s e ∧ ∀ s', step s e = some s' → AllAllowed s' es

theorem mergeCapturedRegions_ne_nil {base captured : List CapturedRegion} (h : captured ≠ []) :
    mergeCapturedRegions base captured ≠ [] := by
  obtain ⟨r, hr⟩ := List.exists_mem_of_ne_nil _ h
  exact List.ne_nil_of_mem (Folder.mem_mergeCapturedRegions.2 (.inr hr))

/-! ## The invariant -/

/-- The region is one of an address space, and a file that it names is there. -/
structure HasFile (files : Text → Option Nat) (r : CapturedRegion) : Prop where
  fits : r.Fits
  named : r.file ≠ Text.empty → r.file = fileName r.base r.size ∧ files r.file = some r.size.val

/-- The regions of a run lie apart, also from those it will come to. -/
def Run.Ordered : Run → Prop
  | .process left regions complete =>
    (∀ info ∈ left, info.Fits) ∧
      left.Pairwise (fun info other => info.stop ≤ other.regionBase.val) ∧
      (∀ r ∈ regions, ∀ info ∈ left, r.stop ≤ info.regionBase.val) ∧
      (complete = false → regions ≠ [])
  | .range map address _ regions =>
    ∀ r ∈ regions, r.stop ≤ address.val ∧
      ∃ info ∈ map.regions, r.base = info.regionBase ∧ r.size = info.regionSize
  | .flagged regions _ => regions ≠ []

/-- What holds of a run in progress. -/
structure RunInv (files : Text → Option Nat) (run : Run) : Prop where
  hasFile : ∀ r ∈ run.regions, HasFile files r
  apart : run.regions.Pairwise fun r r' => ¬r.Overlaps r'
  ordered : run.Ordered

structure Inv (s : State) : Prop where
  hasFile : ∀ r ∈ s.index.regions, HasFile s.files r
  apart : s.index.regions.Pairwise fun r r' => ¬r.Overlaps r'
  cancelled : s.cancelled = true → s.index.complete = false ∧ s.index.regions ≠ []
  runs : ∀ id run, s.runs id = some run → RunInv s.files run

theorem Inv.sound {s : State} (h : Inv s) : Sound s where
  named r hr hf := ((h.hasFile r hr).named hf).2
  apart := h.apart
  cancelled hc := (h.cancelled hc).1

theorem inv_empty : Inv State.empty where
  hasFile _ hr := absurd hr List.not_mem_nil
  apart := List.Pairwise.nil
  cancelled h := absurd h (by decide)
  runs _ _ h := nomatch h

section Steps

variable {s s' : State} {id : Nat}

/-- A file of a region is written again with the same size. -/
theorem HasFile.save {r : CapturedRegion} (h : HasFile s.files r) (info : MemoryRegionInfo)
    (saved : Bool) : HasFile (s.save info saved) r := by
  refine ⟨h.fits, fun hf => ?_⟩
  obtain ⟨hname, hfile⟩ := h.named hf
  refine ⟨hname, ?_⟩
  unfold State.save
  split
  · by_cases heq : r.file = fileName info.regionBase info.regionSize
    · rw [heq, Function.update_self, (fileName_inj (hname.symm.trans heq)).2]
    · rwa [Function.update_of_ne heq]
  · exact hfile

/-- The region that has just been gone through names a file that is there. -/
theorem hasFile_toCaptured {info : MemoryRegionInfo} (hfits : info.Fits) (saved : Bool)
    (missing : Address) : HasFile (s.save info saved) (toCaptured info saved missing) := by
  refine ⟨⟨hfits.pos, hfits.le⟩, fun hf => ?_⟩
  cases saved with
  | false => exact absurd rfl hf
  | true => exact ⟨rfl, Function.update_self ..⟩

/-- A run that comes to a region behind those it has gone through. -/
theorem RunInv.next {run run' : Run} (h : RunInv s.files run) {info : MemoryRegionInfo}
    (hfits : info.Fits) {saved : Bool} {missing : Address}
    (hregions : run'.regions = run.regions ++ [toCaptured info saved missing])
    (hbelow : ∀ r ∈ run.regions, r.stop ≤ info.regionBase.val) (hordered : run'.Ordered) :
    RunInv (s.save info saved) run' := by
  refine ⟨?_, ?_, hordered⟩
  · rw [hregions]
    intro r hr
    rcases List.mem_append.1 hr with hr | hr
    · exact (h.hasFile r hr).save info saved
    · rw [List.mem_singleton.1 hr]
      exact hasFile_toCaptured hfits saved missing
  · rw [hregions, List.pairwise_append]
    refine ⟨h.apart, List.pairwise_singleton _ _, fun r hr c hc => ?_⟩
    rw [List.mem_singleton.1 hc]
    rintro ⟨a, hra, hca⟩
    have hle : r.stop ≤ info.regionBase.val := hbelow r hr
    have hlt : a < r.stop := hra.2
    have hge : info.regionBase.val ≤ a := hca.1
    omega

/-- A run that starts, goes on without the folder, or ends. -/
theorem Inv.setRun (h : Inv s) {run : Option Run}
    (hrun : ∀ r, run = some r → RunInv s.files r) : Inv (s.setRun id run) := by
  refine ⟨h.hasFile, h.apart, h.cancelled, fun id' run' h' => ?_⟩
  by_cases heq : id' = id
  · subst heq
    rw [State.setRun_self] at h'
    exact hrun run' h'
  · rw [State.setRun_ne s run heq] at h'
    exact h.runs id' run' h'

/-- Writing a file keeps the invariant. -/
theorem Inv.save (h : Inv s) (info : MemoryRegionInfo) (saved : Bool) :
    Inv { s with files := s.save info saved } where
  hasFile r hr := (h.hasFile r hr).save info saved
  apart := h.apart
  cancelled := h.cancelled
  runs id run hr :=
    ⟨fun r hmem => ((h.runs id run hr).hasFile r hmem).save info saved, (h.runs id run hr).apart,
      (h.runs id run hr).ordered⟩

/-- An index step leaves the files that it does not remove. -/
theorem HasFile.storeCapture {r : CapturedRegion} (h : HasFile s.files r)
    {regions : List CapturedRegion} (hstay : ¬s.removes regions r.file)
    (threads : Option (List CapturedThread)) (complete : Bool) (now : Int) :
    HasFile (s.storeCapture regions threads complete now).files r := by
  refine ⟨h.fits, fun hf => ⟨(h.named hf).1, ?_⟩⟩
  have hsame : (s.storeCapture regions threads complete now).files r.file = s.files r.file :=
    if_neg hstay
  exact hsame.trans (h.named hf).2

/-- A run of the state after another one has ended. -/
theorem runs_update_none {id' : Nat} {run : Run}
    (h : Function.update s.runs id none id' = some run) : id' ≠ id ∧ s.runs id' = some run := by
  by_cases heq : id' = id
  · rw [heq, Function.update_self] at h
    cases h
  · rw [Function.update_of_ne heq] at h
    exact ⟨heq, h⟩

/-- What an index step does to the folder. -/
theorem Inv.storeCapture (h : Inv s) {run : Run} (hr : s.runs id = some run)
    (hmay : MayStore s id run) {threads : Option (List CapturedThread)} {complete cancelled : Bool}
    {now : Int} (hc : cancelled = true → complete = false ∧ run.regions ≠ []) :
    Inv { s.storeCapture run.regions threads complete now with
      runs := Function.update s.runs id none, cancelled := cancelled } := by
  have hrun := h.runs id run hr
  refine ⟨?_, ?_, ?_, ?_⟩
  · -- a file that the new index names is not removed
    intro r hmem
    refine HasFile.storeCapture ?_ (fun hrem => hrem.2 r hmem rfl) threads complete now
    rcases Folder.mem_mergeCapturedRegions.1 hmem with ⟨hold, -⟩ | hnew
    · exact h.hasFile r hold
    · exact hrun.hasFile r hnew
  · have hbatch : Folder.Batch run.regions := ⟨fun r hmem => (hrun.hasFile r hmem).fits, hrun.apart⟩
    exact (Folder.apart_mergeCapturedRegions (fun r hmem => (h.hasFile r hmem).fits) h.apart
      hbatch).2 hmay.replaceable
  · exact fun hcancel => ⟨(hc hcancel).1, mergeCapturedRegions_ne_nil (hc hcancel).2⟩
  · intro id' run' h'
    obtain ⟨hne, hrun'⟩ := runs_update_none h'
    have hinv := h.runs id' run' hrun'
    refine ⟨fun r hmem => ?_, hinv.apart, hinv.ordered⟩
    exact (hinv.hasFile r hmem).storeCapture
      (fun hrem => hmay.keeps r.file hrem id' hne run' hrun' r hmem rfl) threads complete now

theorem MemoryMap.mem_of_query {map : MemoryMap} {address : Address} {info : MemoryRegionInfo}
    (hq : map.query address = some info) :
    info ∈ map.regions ∧ info.regionBase ≤ address ∧ address.val < info.stop :=
  ⟨List.mem_of_find?_eq_some hq, by simpa using List.find?_some hq⟩

/-- The region at an address starts behind the regions of the map that end before the address. -/
theorem MemoryMap.le_of_query {map : MemoryMap} {address : Address} {info other : MemoryRegionInfo}
    (hq : map.query address = some info) (ho : other ∈ map.regions)
    (hle : other.stop ≤ address.val) : other.stop ≤ info.regionBase.val := by
  obtain ⟨hmem, hcov⟩ := MemoryMap.mem_of_query hq
  have hbase : other.regionBase.val ≤ other.stop := Nat.le_add_right ..
  rcases Lib.rel_of_pairwise map.apart ho hmem with rfl | h | h
  · omega
  · exact h
  · omega

/-- A region that the loop of `CaptureRange` goes past ends before the address space does. -/
theorem val_add_of_lt {info : MemoryRegionInfo} (hfits : info.Fits) {address : Address}
    (hbase : info.regionBase ≤ address) (hlt : address < info.regionBase + info.regionSize) :
    (info.regionBase + info.regionSize).val = info.stop := by
  have hle := hfits.le
  rw [Fin.lt_def, Fin.val_add] at hlt
  rw [Fin.le_def] at hbase
  rw [Fin.val_add]
  unfold Collect.MemoryRegionInfo.stop at hle ⊢
  omega

/-- A region of the loop of `CaptureRange`. -/
theorem inv_range (h : Inv s) {map : MemoryMap} {address stop : Address}
    {regions : List CapturedRegion} (hrun : s.runs id = some (.range map address stop regions))
    {info : MemoryRegionInfo} (hq : map.query address = some info)
    (hlt : address < info.regionBase + info.regionSize) (missing : Address) :
    Inv ({ s with files := s.save info info.isReadable }.setRun id
      (some (.range map (info.regionBase + info.regionSize) stop
        (regions ++ [toCaptured info info.isReadable missing])))) := by
  have hinv := h.runs id _ hrun
  obtain ⟨hmem, hbase, -⟩ := MemoryMap.mem_of_query hq
  have hbelow : ∀ r ∈ regions, r.stop ≤ info.regionBase.val := by
    intro r hr
    obtain ⟨hle, other, hother, heq, hsize⟩ := hinv.ordered r hr
    have hstop : r.stop = other.stop := by
      unfold CapturedRegion.stop Collect.MemoryRegionInfo.stop
      rw [heq, hsize]
    rw [hstop] at hle ⊢
    exact MemoryMap.le_of_query hq hother hle
  refine (h.save info _).setRun ?_
  rintro _ ⟨⟩
  refine hinv.next (map.fits info hmem) rfl hbelow fun r hr => ?_
  rw [val_add_of_lt (map.fits info hmem) hbase hlt]
  rcases List.mem_append.1 hr with hr | hr
  · exact ⟨(hbelow r hr).trans (Nat.le_add_right ..), (hinv.ordered r hr).2⟩
  · rw [List.mem_singleton.1 hr]
    exact ⟨Nat.le_refl _, info, hmem, rfl, rfl⟩

/-- A region of `CaptureProcess`. -/
theorem inv_process (h : Inv s) {info : MemoryRegionInfo} {left : List MemoryRegionInfo}
    {regions : List CapturedRegion} {complete : Bool}
    (hrun : s.runs id = some (.process (info :: left) regions complete)) (saved goOn : Bool)
    (missing : Address) :
    Inv ({ s with files := s.save info saved }.setRun id
      (some (.process left (regions ++ [toCaptured info saved missing]) goOn))) := by
  have hinv := h.runs id _ hrun
  obtain ⟨hfits, hleft, hbelow, -⟩ := hinv.ordered
  obtain ⟨hinfo, hleft⟩ := List.pairwise_cons.1 hleft
  refine (h.save info _).setRun ?_
  rintro _ ⟨⟩
  refine hinv.next (hfits info List.mem_cons_self) rfl
    (fun r hr => hbelow r hr info List.mem_cons_self) ?_
  refine ⟨fun other hother => hfits other (List.mem_cons_of_mem _ hother), hleft, ?_, by simp⟩
  intro r hr other hother
  rcases List.mem_append.1 hr with hr | hr
  · exact hbelow r hr other (List.mem_cons_of_mem _ hother)
  · rw [List.mem_singleton.1 hr]
    exact hinfo other hother

/-- Every allowed step keeps the invariant. -/
theorem inv_step (h : Inv s) {e : Event} (ha : Allowed s e) (hs : step s e = some s') : Inv s' := by
  cases e with
  | startProcess id map =>
    simp only [step] at hs
    split at hs
    · cases hs
    · cases hs
      refine h.setRun ?_
      rintro _ ⟨⟩
      exact ⟨nofun, List.Pairwise.nil, map.fits, map.apart, nofun, nofun⟩
  | startRange id map base size =>
    simp only [step] at hs
    split at hs
    · cases hs
    · cases hs
      refine h.setRun ?_
      rintro _ ⟨⟩
      exact ⟨nofun, List.Pairwise.nil, nofun⟩
  | next id go missing =>
    simp only [step] at hs
    split at hs
    · next info left regions complete hrun =>
      split at hs
      · cases hs
        exact inv_process h hrun _ _ missing
      · cases hs
    · next map address stop regions hrun =>
      split at hs
      · cases hs
      · next info hq =>
        split at hs
        · next hgo =>
          cases hs
          exact inv_range h hrun hq hgo.2.1 missing
        · cases hs
    · cases hs
  | readFlag id =>
    simp only [step] at hs
    split at hs
    · next map address stop regions hrun =>
      have hinv := h.runs id _ hrun
      split_ifs at hs with hloop hnil
      · cases hs
        exact h.setRun nofun
      · cases hs
        refine h.setRun ?_
        rintro _ ⟨⟩
        exact ⟨hinv.hasFile, hinv.apart, hnil⟩
    · cases hs
  | store id now threads =>
    simp only [step] at hs
    split at hs
    · next regions complete hrun =>
      cases hs
      refine h.storeCapture hrun (ha _ hrun) fun hc => ?_
      have hfalse : complete = false := by simpa using hc
      exact ⟨hfalse, (h.runs id _ hrun).ordered.2.2.2 hfalse⟩
    · next regions complete hrun =>
      cases hs
      refine h.storeCapture hrun (ha _ hrun) fun hc => ?_
      obtain ⟨hstored, hne⟩ := h.cancelled hc
      refine ⟨?_, (h.runs id _ hrun).ordered⟩
      cases complete with
      | false => rfl
      | true =>
        have hflag := (ha _ hrun).flag regions rfl
        rw [flag, if_neg hne, hstored] at hflag
        cases hflag
    · cases hs
  | fail id =>
    simp only [step] at hs
    split at hs
    · cases hs
      exact h.setRun nofun
    · cases hs

/-- By induction on the events. -/
theorem inv_runSteps {es : List Event} (h : Inv s) (ha : AllAllowed s es)
    (hs : runSteps s es = some s') : Inv s' := by
  induction es generalizing s with
  | nil =>
    cases hs
    exact h
  | cons e es ih =>
    rw [runSteps, Option.bind_eq_some_iff] at hs
    obtain ⟨s₁, hstep, hrest⟩ := hs
    exact ih (inv_step h ha.1 hstep) (ha.2 s₁ hstep) hrest

end Steps

/-- In every state that captures into an empty folder reach by allowed steps, in whatever order, the
index is sound. -/
theorem sound_of_allAllowed {es : List Event} {s : State} (ha : AllAllowed State.empty es)
    (hs : runSteps State.empty es = some s) : Sound s :=
  (inv_runSteps inv_empty ha hs).sound

/-! ## Orders of steps -/

/-- A committed region that can be read. -/
def readable (base size : Address) : MemoryRegionInfo where
  allocationBase := base
  allocationSize := size
  regionBase := base
  regionSize := size
  protect := 1
  committed := true
  type := 0
  mappedName := []

/-- A map of one region. -/
def oneRegion (info : MemoryRegionInfo) (h : info.Fits) : MemoryMap where
  regions := [info]
  fits := by simpa using h
  apart := List.pairwise_singleton _ _

def onePage : MemoryMap := oneRegion (readable 0x1000 0x1000) ⟨by decide, by decide⟩
def twoPages : MemoryMap := oneRegion (readable 0x1000 0x2000) ⟨by decide, by decide⟩

/-- The last page of the address space. -/
def lastPage : MemoryMap := oneRegion (readable (-0x1000) 0x1000) ⟨by decide, by decide⟩

/-- The region grows while the process is captured: both runs have written their files when the
first one stores its index, and the second one replaces the region and removes the file. -/
def overlapping : List Event :=
  [.startProcess 0 onePage, .startRange 1 twoPages 0x1000 0x2000, .next 0 true 0, .next 1 true 0,
    .store 0 1 [], .readFlag 1, .store 1 2 []]

theorem sound_overlapping :
    ∃ s, runSteps .empty overlapping = some s ∧
      s.index.regions = [toCaptured (readable 0x1000 0x2000) true 0] ∧
      s.files (fileName 0x1000 0x1000) = none ∧ Sound s := by
  have hallowed : AllAllowed .empty overlapping := by
    refine ⟨trivial, ?_⟩
    rintro _ ⟨⟩
    refine ⟨trivial, ?_⟩
    rintro _ ⟨⟩
    refine ⟨trivial, ?_⟩
    rintro _ ⟨⟩
    refine ⟨trivial, ?_⟩
    rintro _ ⟨⟩
    refine ⟨?_, ?_⟩
    · rintro run ⟨⟩
      refine ⟨?_, nofun, ?_⟩
      · rintro f ⟨⟨old, hold, -⟩, -⟩
        cases hold
      · intro old hold
        cases hold
    rintro _ ⟨⟩
    refine ⟨trivial, ?_⟩
    rintro _ ⟨⟩
    refine ⟨?_, fun _ _ => trivial⟩
    rintro run ⟨⟩
    refine ⟨?_, fun _ _ => rfl, ?_⟩
    · -- no other run is left
      intro f _ id' hne run' hrun'
      rcases id' with _ | _ | id'
      · cases hrun'
      · exact absurd rfl hne
      · cases hrun'
    · intro old hold hover
      obtain rfl : old = toCaptured (readable 0x1000 0x1000) true 0 := List.mem_singleton.1 hold
      refine ⟨toCaptured (readable 0x1000 0x2000) true 0, List.mem_cons_self,
        ?_, by decide, by decide⟩
      exact ⟨0x1000, ⟨by decide, by decide⟩, ⟨by decide, by decide⟩⟩
  exact ⟨_, rfl, by decide, by decide, sound_of_allAllowed hallowed rfl⟩

/-- A file is written while the index names it, the region grows, and the step that stores the
larger region removes the file before it is stored again. -/
def lostFile : List Event :=
  [.startProcess 0 onePage, .next 0 true 0, .store 0 1 [], .startProcess 1 onePage, .next 1 true 0,
    .startProcess 2 twoPages, .next 2 true 0, .store 2 2 [], .store 1 3 []]

/-- `CaptureRange` reads the flag, a `CaptureProcess` is cancelled and stores, and the flag is
written back. -/
def staleFlag : List Event :=
  [.startProcess 0 onePage, .next 0 true 0, .store 0 1 [], .startRange 1 onePage 0x1000 0x1000,
    .next 1 true 0, .readFlag 1, .startProcess 2 onePage, .next 2 false 0, .store 2 2 [],
    .store 1 3 []]

/-- One capture after the other. -/
def capturedTwice : List Event :=
  [.startProcess 0 lastPage, .next 0 true 0, .store 0 1 [], .startProcess 1 lastPage,
    .next 1 true 0, .store 1 2 []]

theorem captures_unsound :
    (∃ s, runSteps .empty lostFile = some s ∧
      toCaptured (readable 0x1000 0x1000) true 0 ∈ s.index.regions ∧
      s.files (fileName 0x1000 0x1000) = none ∧ ¬Sound s) ∧
    (∃ s, runSteps .empty staleFlag = some s ∧ s.cancelled = true ∧ s.index.complete = true ∧
      ¬Sound s) ∧
    ∃ s r, runSteps .empty capturedTwice = some s ∧ s.index.regions = [r, r] ∧ ¬Sound s := by
  refine ⟨⟨_, rfl, by decide, by decide, fun h => ?_⟩, ⟨_, rfl, rfl, rfl, fun h => ?_⟩,
    ⟨_, toCaptured (readable (-0x1000) 0x1000) true 0, rfl, by decide, fun h => ?_⟩⟩
  · have hnamed := h.named (toCaptured (readable 0x1000 0x1000) true 0) (by decide)
      (fileName_ne_empty _ _)
    exact absurd hnamed (by decide)
  · exact absurd (h.cancelled rfl) (by decide)
  · have hapart := List.pairwise_pair.1 h.apart
    exact hapart ⟨_, ⟨Nat.le_refl _, by decide⟩, ⟨Nat.le_refl _, by decide⟩⟩

end Capture

end Diana.Orthia
