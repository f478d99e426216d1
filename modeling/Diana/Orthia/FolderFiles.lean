import Diana.Orthia.CapturedRegions

/-!
# `capture.xml` and `modules.xml`

The index of a capture and the module list of a process folder are written as one XML document each,
and read back when the folder is opened. `FormatCaptureIndex` and `ParseCaptureIndex` of
`orthia_capture.cpp`, `FormatSavedModules` and `ParseSavedModules` of `orthia_saved_process.cpp`.

* `parseCaptureIndex_formatCaptureIndex`: the index comes back;
* `parseSavedModules_formatSavedModules`: the module list comes back, as far as
  `modules.xml` holds it.
-/

namespace Diana.Orthia.Folder

open Diana.Lib

/-! ## `capture.xml` -/

structure CapturedThread where
  tid : Address
  startAddress : Address
  startTime : Text
  stack : List Address
  deriving DecidableEq, Repr

structure CaptureIndex where
  createdUnix : Int
  /-- false: cancelled half way -/
  complete : Bool
  regions : List CapturedRegion
  hasThreads : Bool
  threads : List CapturedThread
  deriving DecidableEq, Repr

def c_captureVersion : Int := 1

def regionElement (r : CapturedRegion) : Element :=
  .mk "region"
    ([("base", hexOf r.base.val), ("size", hexOf r.size.val),
      ("allocation", hexOf r.allocationBase.val),
        ("protect", intOf r.protect), ("committed", flagOf r.committed), ("type", intOf r.type)] ++
      (if r.name = Text.empty then [] else [("name", r.name)]) ++
      if r.file = Text.empty then [] else [("file", r.file), ("missing", hexOf r.missing.val)])
    []

def stackOf (stack : List Address) : Text := ⟨hexList stack, zero_notMem_hexList stack⟩

def threadElement (t : CapturedThread) : Element :=
  .mk "thread"
    ([("tid", hexOf t.tid.val), ("start", hexOf t.startAddress.val)] ++
      (if t.startTime = Text.empty then [] else [("created", t.startTime)]) ++
      if stackOf t.stack = Text.empty then [] else [("stack", stackOf t.stack)])
    []

def captureElement (index : CaptureIndex) : Element :=
  .mk "capture"
    [("format_version", intOf c_captureVersion), ("created", intOf index.createdUnix),
      ("complete", flagOf index.complete)]
    (index.regions.map regionElement ++
      if index.hasThreads then [.mk "threads" [] (index.threads.map threadElement)] else [])

def formatCaptureIndex (X : DocumentXml) (index : CaptureIndex) :
    List Byte := X.print [captureElement index]

/-- A `region` element, unless its size is zero. -/
def parseRegion (e : Element) : Option CapturedRegion :=
  if e.hexAttribute "size" = 0 then none
  else some
    { base := e.hexAttribute "base"
      size := e.hexAttribute "size"
      allocationBase := e.hexAttribute "allocation"
      protect := e.intAttribute "protect" 0
      committed := e.intAttribute "committed" 0 != 0
      type := e.intAttribute "type" 0
      name := e.textAttribute "name"
      file := e.textAttribute "file"
      missing := e.hexAttribute "missing" }

def parseThread (e : Element) : CapturedThread where
  tid := e.hexAttribute "tid"
  startAddress := e.hexAttribute "start"
  startTime := e.textAttribute "created"
  stack := (words (e.textAttribute "stack").val).map strtoull

/-- The `capture` element. -/
def parseCapture (root : Element) : Option CaptureIndex :=
  if root.intAttribute "format_version" 0 ≤ 0 then none
  else do
    let regions ← (childElements root.children "region").mapM parseRegion
    let threads := firstChildElement root.children "threads"
    some
      { createdUnix := root.intAttribute "created" 0
        complete := root.intAttribute "complete" 1 != 0
        regions := regions.insertionSort fun a b => a.base ≤ b.base
        hasThreads := threads.isSome
        threads := match threads with
          | none => []
          | some threads => (childElements threads.children "thread").map parseThread }

/-- Nothing where the function answers false. -/
def parseCaptureIndex (X : DocumentXml) (text : List Byte) : Option CaptureIndex := do
  let doc ← X.parse text
  let root ← firstChildElement doc "capture"
  parseCapture root

section Capture

/-- Elements of one name, with no other one of it behind them. -/
theorem childElements_map {α : Type} {f : α → Element} {name : String} (hf : ∀ a, (f a).name = name)
    {others : List Element} (hothers : ∀ e ∈ others, e.name ≠ name) (l : List α) :
    childElements (l.map f ++ others) name = l.map f := by
  unfold childElements
  rw [List.filter_append, List.filter_eq_self.2, List.filter_eq_nil_iff.2, List.append_nil]
  · intro e he
    simpa using hothers e he
  · intro e he
    obtain ⟨a, -, rfl⟩ := List.mem_map.1 he
    simpa using hf a

theorem mapM_map {α β : Type} {f : α → Element} {g : Element → Option β} {s : α → β} {l : List α}
    (h : ∀ a ∈ l, g (f a) = some (s a)) : (l.map f).mapM g = some (l.map s) := by
  induction l with
  | nil => rfl
  | cons a l ih =>
    rw [List.map_cons, List.mapM_cons, h a List.mem_cons_self,
      ih fun b hb => h b (List.mem_cons_of_mem _ hb)]
    rfl

theorem parseRegion_regionElement {r : CapturedRegion} (hsize : r.size ≠ 0)
    (hmissing : r.file = Text.empty → r.missing = 0) : parseRegion (regionElement r) = some r := by
  have hb : (regionElement r).hexAttribute "base" = r.base := Element.hexAttribute_of_eq rfl
  have hs : (regionElement r).hexAttribute "size" = r.size := Element.hexAttribute_of_eq rfl
  have ha : (regionElement r).hexAttribute "allocation" = r.allocationBase :=
    Element.hexAttribute_of_eq rfl
  have hp : (regionElement r).intAttribute "protect" 0 = r.protect :=
    Element.intAttribute_of_eq rfl 0
  have hc : ((regionElement r).intAttribute "committed" 0 != 0) = r.committed :=
    Element.flagAttribute_of_eq rfl 0
  have ht : (regionElement r).intAttribute "type" 0 = r.type := Element.intAttribute_of_eq rfl 0
  have hn : (regionElement r).textAttribute "name" = r.name := by
    by_cases hname : r.name = Text.empty
    · have hnone : (regionElement r).attr "name" = none := by
        unfold regionElement
        rw [if_pos hname]
        split <;> rfl
      rw [Element.textAttribute_of_none hnone, hname]
    · refine Element.textAttribute_of_eq ?_
      unfold regionElement
      rw [if_neg hname]
      rfl
  have hf : (regionElement r).textAttribute "file" = r.file ∧
      (regionElement r).hexAttribute "missing" = r.missing := by
    by_cases hfile : r.file = Text.empty
    · have hnone : (regionElement r).attr "file" = none ∧
          (regionElement r).attr "missing" = none := by
        unfold regionElement
        rw [if_pos hfile]
        split <;> exact ⟨rfl, rfl⟩
      rw [Element.textAttribute_of_none hnone.1, Element.hexAttribute_of_none hnone.2, hfile,
        hmissing hfile]
      exact ⟨rfl, rfl⟩
    · have hboth : (regionElement r).attr "file" = some r.file ∧
          (regionElement r).attr "missing" = some (hexOf r.missing.val) := by
        unfold regionElement
        rw [if_neg hfile]
        split <;> exact ⟨rfl, rfl⟩
      exact ⟨Element.textAttribute_of_eq hboth.1, Element.hexAttribute_of_eq hboth.2⟩
  unfold parseRegion
  rw [hb, hs, ha, hp, hc, ht, hn, hf.1, hf.2, if_neg hsize]

theorem parseThread_threadElement (t : CapturedThread) : parseThread (threadElement t) = t := by
  have hi : (threadElement t).hexAttribute "tid" = t.tid := Element.hexAttribute_of_eq rfl
  have hs : (threadElement t).hexAttribute "start" = t.startAddress :=
    Element.hexAttribute_of_eq rfl
  have hc : (threadElement t).textAttribute "created" = t.startTime := by
    by_cases htime : t.startTime = Text.empty
    · have hnone : (threadElement t).attr "created" = none := by
        unfold threadElement
        rw [if_pos htime]
        split <;> rfl
      rw [Element.textAttribute_of_none hnone, htime]
    · refine Element.textAttribute_of_eq ?_
      unfold threadElement
      rw [if_neg htime]
      rfl
  have hk : (threadElement t).textAttribute "stack" = stackOf t.stack := by
    by_cases hstack : stackOf t.stack = Text.empty
    · have hnone : (threadElement t).attr "stack" = none := by
        unfold threadElement
        rw [if_pos hstack]
        split <;> rfl
      rw [Element.textAttribute_of_none hnone, hstack]
    · refine Element.textAttribute_of_eq ?_
      unfold threadElement
      rw [if_neg hstack]
      split <;> rfl
  have hwords : (words (stackOf t.stack).val).map strtoull = t.stack := words_hexList t.stack
  unfold parseThread
  rw [hi, hs, hc, hk, hwords]

/-- Regions by base and not empty, no unread bytes without a file, and no threads that were not
captured. -/
structure CaptureIndex.Regular (index : CaptureIndex) : Prop where
  sorted : index.regions.Pairwise fun r r' => r.base < r'.base
  size_ne : ∀ r ∈ index.regions, r.size ≠ 0
  missing : ∀ r ∈ index.regions, r.file = Text.empty → r.missing = 0
  threads : index.hasThreads = false → index.threads = []

theorem parseCapture_captureElement {index : CaptureIndex} (h : index.Regular) :
    parseCapture (captureElement index) = some index := by
  have hv : (captureElement index).intAttribute "format_version" 0 = c_captureVersion :=
    Element.intAttribute_of_eq rfl 0
  have hc : (captureElement index).intAttribute "created" 0 = index.createdUnix :=
    Element.intAttribute_of_eq rfl 0
  have hf : ((captureElement index).intAttribute "complete" 1 != 0) = index.complete :=
    Element.flagAttribute_of_eq rfl 1
  have hregions : childElements (captureElement index).children "region" =
      index.regions.map regionElement := by
    refine @childElements_map _ regionElement "region" (fun _ => rfl) _ (fun e he => ?_) _
    split at he
    · rw [List.mem_singleton.1 he]
      show "threads" ≠ "region"
      decide
    · cases he
  have hmap : (index.regions.map regionElement).mapM parseRegion = some (index.regions.map id) :=
    mapM_map fun r hr => parseRegion_regionElement (h.size_ne r hr) (h.missing r hr)
  rw [List.map_id] at hmap
  have hsort : (index.regions.insertionSort fun a b => a.base ≤ b.base) = index.regions :=
    (h.sorted.imp fun hlt => le_of_lt hlt).insertionSort_eq
  have hfirst : firstChildElement (captureElement index).children "threads" =
      if index.hasThreads then some (.mk "threads" [] (index.threads.map threadElement))
      else none := by
    have hnone : (index.regions.map regionElement).find? (fun e => e.name = "threads") = none := by
      rw [List.find?_eq_none]
      intro e he
      obtain ⟨r, -, rfl⟩ := List.mem_map.1 he
      exact of_decide_eq_false rfl
    unfold firstChildElement captureElement Element.children
    rw [List.find?_append, hnone, Option.none_or]
    split <;> rfl
  have hthreads : (childElements (index.threads.map threadElement) "thread").map parseThread =
      index.threads := by
    have hall := @childElements_map _ threadElement "thread" (fun _ => rfl) []
        (fun _ h => absurd h List.not_mem_nil)
      index.threads
    rw [List.append_nil] at hall
    rw [hall, List.map_map]
    exact (List.map_congr_left fun t _ => parseThread_threadElement t).trans (List.map_id _)
  unfold parseCapture
  rw [hv, hc, hf, hregions, hmap, hfirst, if_neg (by decide)]
  simp only [Option.bind_eq_bind, Option.bind_some]
  rw [hsort]
  cases hhas : index.hasThreads
  · rw [if_neg Bool.false_ne_true]
    dsimp only
    rw [← h.threads hhas, Option.isSome_none, ← hhas]
  · rw [if_pos rfl]
    dsimp only
    rw [Element.children, hthreads, Option.isSome_some, ← hhas]

/-- The index comes back. -/
theorem parseCaptureIndex_formatCaptureIndex {X : DocumentXml} {index : CaptureIndex}
    (h : index.Regular) (hX : X.Returns [captureElement index]) :
    parseCaptureIndex X (formatCaptureIndex X index) = some index := by
  have hroot : firstChildElement [captureElement index] "capture" = some (captureElement index) :=
    rfl
  unfold parseCaptureIndex formatCaptureIndex
  rw [hX]
  simp only [Option.bind_eq_bind, Option.bind_some]
  rw [hroot, Option.bind_some, parseCapture_captureElement h]

end Capture

/-! ## `modules.xml` -/

/-- `DIANA_UUID` as the bytes of the memory. -/
abbrev Guid := { bytes : List Byte // bytes.length = 16 }

def Guid.zero : Guid := ⟨List.replicate 16 0, List.length_replicate⟩

def format_Unknown : Int := 0
def format_Pe : Int := 1
def format_Elf : Int := 2

structure ImageIdentity where
  format : Int
  timeDateStamp : Fin (2 ^ 32)
  sizeOfImage : Fin (2 ^ 32)
  hasGuid : Bool
  guid : Guid
  age : Fin (2 ^ 32)
  buildIdHex : Text
  /-- of the raw file; a caller who has its bytes fills it -/
  sha1Hex : Text
  deriving DecidableEq, Repr

/-- `ImageIdentity()` -/
def ImageIdentity.new : ImageIdentity :=
  ⟨format_Unknown, 0, 0, false, Guid.zero, 0, Text.empty, Text.empty⟩

/-- `IsValid` -/
def ImageIdentity.isValid (i : ImageIdentity) : Bool := i.format ≠ format_Unknown

/-- `orthia::ModuleInfo`. `flags` says what is known about the module, such as `flags_analyzeDone`;
the image source is set for the items that have a table of them. -/
structure ModuleInfo where
  address : Address
  lastValidAddress : Address
  entryPoint : Address
  size : Address
  dianaMode : Int
  dianaArch : Int
  fullName : Text
  flags : Int := 0
  builtInFlags : Int
  name : Text
  /-- the region and its entry points, with `builtInFlags_floating` -/
  floating : Option FloatingRegionInfo := none
  imageSourceKnown : Bool := false
  imageSourceKind : Int := 0
  imageState : Int := 0
  imageStateReason : Text := Text.empty
  deriving DecidableEq, Repr

structure SavedModuleInfo where
  module : ModuleInfo
  identity : ImageIdentity
  deriving DecidableEq, Repr

structure SavedModuleList where
  mainModule : Address
  modules : List SavedModuleInfo
  deriving DecidableEq, Repr

def c_savedModulesVersion : Int := 1

/-- `BytesToHex` -/
def bytesToHex (bytes : List Byte) : List Byte :=
  bytes.flatMap fun b => [hexByte (b.toNat / 16), hexByte (b.toNat % 16)]

/-- `HexToBytes`, also nothing for an odd number of digits. -/
def hexToBytes : List Byte → Option (List Byte)
  | [] => some []
  | [_] => none
  | a :: b :: rest => do
    let high ← digitValue a
    let low ← digitValue b
    let bytes ← hexToBytes rest
    some (BitVec.ofNat 8 (high * 16 + low) :: bytes)

theorem nibbles_lt (b : Byte) : b.toNat / 16 < 16 ∧ b.toNat % 16 < 16 := by
  have hlt := b.isLt
  omega

theorem zero_notMem_bytesToHex (bytes : List Byte) : 0 ∉ bytesToHex bytes := by
  intro h
  obtain ⟨b, -, hb⟩ := List.mem_flatMap.1 h
  simp only [List.mem_cons, List.not_mem_nil, or_false] at hb
  rcases hb with hb | hb
  · exact hexByte_ne_zero (nibbles_lt b).1 hb.symm
  · exact hexByte_ne_zero (nibbles_lt b).2 hb.symm

theorem hexToBytes_bytesToHex (bytes : List Byte) : hexToBytes (bytesToHex bytes) = some bytes := by
  induction bytes with
  | nil => rfl
  | cons b bytes ih =>
    have hcons : bytesToHex (b :: bytes) =
        hexByte (b.toNat / 16) :: hexByte (b.toNat % 16) :: bytesToHex bytes := rfl
    have hbyte : BitVec.ofNat 8 (b.toNat / 16 * 16 + b.toNat % 16) = b := by
      rw [Nat.div_add_mod', BitVec.ofNat_toNat, BitVec.setWidth_eq]
    rw [hcons, hexToBytes, digitValue_hexByte (nibbles_lt b).1,
      digitValue_hexByte (nibbles_lt b).2, ih]
    simp only [Option.bind_eq_bind, Option.bind_some, hbyte]

def guidOf (bytes : List Byte) : Text := ⟨bytesToHex bytes, zero_notMem_bytesToHex bytes⟩

/-- `WriteIdentity` -/
def identityAttributes (i : ImageIdentity) : List (String × Text) :=
  if i.isValid then
    ("id_format", intOf i.format) ::
      if i.format = format_Pe then
        [("id_timestamp", hexOf i.timeDateStamp.val),
          ("id_sizeofimage", hexOf i.sizeOfImage.val)] ++
          if i.hasGuid then [("id_guid", guidOf i.guid.val), ("id_age", hexOf i.age.val)] else []
      else if i.format = format_Elf then [("id_buildid", i.buildIdHex)]
      else []
  else []

/-- `(DI_UINT32)HexAttribute` -/
def Element.hexAttribute32 (e : Element) (name : String) :
    Fin (2 ^ 32) := Fin.ofNat (2 ^ 32) (e.hexAttribute name).val

/-- `ReadIdentity` -/
def readIdentity (e : Element) : ImageIdentity :=
  let format := e.intAttribute "id_format" format_Unknown
  if format = format_Pe then
    let identity : ImageIdentity :=
      { ImageIdentity.new with
        format := format
        timeDateStamp := e.hexAttribute32 "id_timestamp"
        sizeOfImage := e.hexAttribute32 "id_sizeofimage" }
    match hexToBytes (e.textAttribute "id_guid").val with
    | none => identity
    | some guid =>
      if h : guid.length = 16 then
        { identity with guid := ⟨guid, h⟩, hasGuid := true, age := e.hexAttribute32 "id_age" }
      else identity
  else if format = format_Elf then
    let buildId := e.textAttribute "id_buildid"
    -- no build-id: nothing tells this file from another build
    { ImageIdentity.new with
      buildIdHex := buildId
      format := if buildId = Text.empty then format_Unknown else format }
  else ImageIdentity.new

def moduleElement (saved : SavedModuleInfo) : Element :=
  let mod := saved.module
  .mk "module"
    ([("base", hexOf mod.address.val), ("size", hexOf mod.size.val), ("name", mod.name),
      ("path", mod.fullName),
        ("mode", intOf mod.dianaMode), ("arch", intOf mod.dianaArch),
        ("entry", hexOf mod.entryPoint.val), ("builtin", intOf mod.builtInFlags)] ++
      identityAttributes saved.identity)
    []

def modulesElement (list : SavedModuleList) : Element :=
  .mk "modules" [("format_version", intOf c_savedModulesVersion),
    ("main", hexOf list.mainModule.val)] (list.modules.map moduleElement)

def formatSavedModules (X : DocumentXml) (list : SavedModuleList) :
    List Byte := X.print [modulesElement list]

/-- A `module` element, unless its size is zero. -/
def parseModule (e : Element) : Option SavedModuleInfo :=
  let address := e.hexAttribute "base"
  let size := e.hexAttribute "size"
  if size = 0 then none
  else some
    { module :=
        { address := address
          lastValidAddress := address + size - 1
          entryPoint := e.hexAttribute "entry"
          size := size
          dianaMode := e.intAttribute "mode" 0
          dianaArch := e.intAttribute "arch" 0
          fullName := e.textAttribute "path"
          builtInFlags := e.intAttribute "builtin" 0
          name := e.textAttribute "name" }
      identity := readIdentity e }

/-- The `modules` element. -/
def parseModules (root : Element) : Option SavedModuleList :=
  if root.intAttribute "format_version" 0 ≤ 0 then none
  else do
    let modules ← (childElements root.children "module").mapM parseModule
    some
      { mainModule := root.hexAttribute "main"
        modules := modules.insertionSort fun a b => a.module.address ≤ b.module.address }

def parseSavedModules (X : DocumentXml) (text : List Byte) : Option SavedModuleList := do
  let doc ← X.parse text
  let root ← firstChildElement doc "modules"
  parseModules root

/-- The identity as `modules.xml` holds it. -/
def ImageIdentity.saved (i : ImageIdentity) : ImageIdentity :=
  if i.format = format_Pe then
    { ImageIdentity.new with
      format := i.format
      timeDateStamp := i.timeDateStamp
      sizeOfImage := i.sizeOfImage
      hasGuid := i.hasGuid
      guid := if i.hasGuid then i.guid else Guid.zero
      age := if i.hasGuid then i.age else 0 }
  else if i.format = format_Elf then
    { ImageIdentity.new with format := i.format, buildIdHex := i.buildIdHex }
  else ImageIdentity.new

/-- The module as `modules.xml` holds it. -/
def SavedModuleInfo.saved (m : SavedModuleInfo) : SavedModuleInfo :=
  { module :=
      { m.module with
        flags := 0
        floating := none
        imageSourceKnown := false
        imageSourceKind := 0
        imageState := 0
        imageStateReason := Text.empty }
    identity := m.identity.saved }

def SavedModuleList.saved (list : SavedModuleList) : SavedModuleList :=
  { list with modules := list.modules.map SavedModuleInfo.saved }

/-- Invalid, PE, or ELF with a build-id. -/
def ImageIdentity.Known (i : ImageIdentity) : Prop :=
  i.format = format_Unknown ∨ i.format = format_Pe ∨ i.format = format_Elf ∧
    i.buildIdHex ≠ Text.empty

/-- Modules by address and not empty, with the address of their last byte and a known identity. -/
structure SavedModuleList.Regular (list : SavedModuleList) : Prop where
  sorted : list.modules.Pairwise fun m m' => m.module.address < m'.module.address
  size_ne : ∀ m ∈ list.modules, m.module.size ≠ 0
  last : ∀ m ∈ list.modules, m.module.lastValidAddress = m.module.address + m.module.size - 1
  known : ∀ m ∈ list.modules, m.identity.Known

section Modules

theorem Element.hexAttribute32_of_eq {e : Element} {name : String} {v : Fin (2 ^ 32)}
    (h : e.attr name = some (hexOf v.val)) : e.hexAttribute32 name = v := by
  have hlt : v.val < 2 ^ 64 := v.isLt.trans (by decide)
  unfold Element.hexAttribute32
  rw [@Element.hexAttribute_of_eq e name ⟨v.val, hlt⟩ h]
  exact Fin.ofNat_val_eq_self v

theorem Element.intAttribute_of_none {e : Element} {name : String} (h : e.attr name = none)
    (defaultValue : Int) : e.intAttribute name defaultValue = defaultValue := by
  unfold Element.intAttribute
  rw [h]
  rfl

/-- The identity comes back. -/
theorem readIdentity_moduleElement {m : SavedModuleInfo} (h : m.identity.Known) :
    readIdentity (moduleElement m) = m.identity.saved := by
  obtain ⟨mod, format, timeDateStamp, sizeOfImage, hasGuid, guid, age, buildIdHex, sha1Hex⟩ := m
  rcases h with rfl | rfl | ⟨rfl, hne⟩
  · unfold readIdentity
    rw [Element.intAttribute_of_none rfl]
    rfl
  · have hbytes : hexToBytes (guidOf guid.val).val = some guid.val := hexToBytes_bytesToHex guid.val
    unfold readIdentity
    cases hasGuid
    · rw [@Element.intAttribute_of_eq _ _ format_Pe rfl, Element.hexAttribute32_of_eq rfl,
        @Element.hexAttribute32_of_eq _ _ sizeOfImage rfl, Element.textAttribute_of_none rfl]
      rfl
    · rw [@Element.intAttribute_of_eq _ _ format_Pe rfl,
        @Element.hexAttribute32_of_eq _ _ timeDateStamp rfl,
        @Element.hexAttribute32_of_eq _ _ sizeOfImage rfl,
        @Element.hexAttribute32_of_eq _ _ age rfl,
        @Element.textAttribute_of_eq _ _ (guidOf guid.val) rfl]
      dsimp only
      rw [hbytes]
      dsimp only
      rw [dif_pos guid.property]
      rfl
  · unfold readIdentity
    rw [@Element.intAttribute_of_eq _ _ format_Elf rfl,
      @Element.textAttribute_of_eq _ "id_buildid" buildIdHex rfl]
    dsimp only
    rw [if_neg hne]
    rfl

theorem parseModule_moduleElement {m : SavedModuleInfo} (hsize : m.module.size ≠ 0)
    (hlast : m.module.lastValidAddress = m.module.address + m.module.size - 1)
    (hknown : m.identity.Known) : parseModule (moduleElement m) = some m.saved := by
  have hb : (moduleElement m).hexAttribute "base" = m.module.address :=
    Element.hexAttribute_of_eq rfl
  have hs : (moduleElement m).hexAttribute "size" = m.module.size := Element.hexAttribute_of_eq rfl
  have hn : (moduleElement m).textAttribute "name" = m.module.name :=
    Element.textAttribute_of_eq rfl
  have hp : (moduleElement m).textAttribute "path" = m.module.fullName :=
    Element.textAttribute_of_eq rfl
  have hm : (moduleElement m).intAttribute "mode" 0 = m.module.dianaMode :=
    Element.intAttribute_of_eq rfl 0
  have ha : (moduleElement m).intAttribute "arch" 0 = m.module.dianaArch :=
    Element.intAttribute_of_eq rfl 0
  have he : (moduleElement m).hexAttribute "entry" = m.module.entryPoint :=
    Element.hexAttribute_of_eq rfl
  have hf : (moduleElement m).intAttribute "builtin" 0 = m.module.builtInFlags :=
    Element.intAttribute_of_eq rfl 0
  unfold parseModule
  rw [hb, hs, hn, hp, hm, ha, he, hf, readIdentity_moduleElement hknown]
  dsimp only
  rw [if_neg hsize, ← hlast]
  rfl

/-- The module list comes back, as far as `modules.xml` holds it. -/
theorem parseSavedModules_formatSavedModules {X : DocumentXml} {list : SavedModuleList}
    (h : list.Regular) (hX : X.Returns [modulesElement list]) :
    parseSavedModules X (formatSavedModules X list) = some list.saved := by
  have hv : (modulesElement list).intAttribute "format_version" 0 = c_savedModulesVersion :=
    Element.intAttribute_of_eq rfl 0
  have hmain : (modulesElement list).hexAttribute "main" = list.mainModule :=
    Element.hexAttribute_of_eq rfl
  have hmodules : childElements (modulesElement list).children "module" =
      list.modules.map moduleElement := by
    have hall := @childElements_map _ moduleElement "module" (fun _ => rfl) []
        (fun _ h => absurd h List.not_mem_nil)
      list.modules
    rwa [List.append_nil] at hall
  have hmap : (list.modules.map moduleElement).mapM parseModule =
      some (list.modules.map SavedModuleInfo.saved) :=
    mapM_map fun m hm => parseModule_moduleElement (h.size_ne m hm) (h.last m hm) (h.known m hm)
  have hsorted : (list.modules.map SavedModuleInfo.saved).Pairwise fun a b =>
      a.module.address ≤ b.module.address :=
    List.pairwise_map.2 (h.sorted.imp fun hlt => le_of_lt hlt)
  have hroot : firstChildElement [modulesElement list] "modules" = some (modulesElement list) := rfl
  unfold parseSavedModules formatSavedModules
  rw [hX]
  simp only [Option.bind_eq_bind, Option.bind_some]
  rw [hroot, Option.bind_some]
  unfold parseModules
  rw [hv, hmain, hmodules, hmap, if_neg (by decide)]
  simp only [Option.bind_eq_bind, Option.bind_some]
  rw [hsorted.insertionSort_eq]
  rfl

end Modules

/-! ## The text of a document -/

/-- The characters that have a name in an attribute. -/
def escapeXml (text : List Byte) : List Byte :=
  text.flatMap fun c =>
    if c = 34 then ascii "&quot;"
    else if c = 38 then ascii "&amp;"
    else if c = 39 then ascii "&apos;"
    else if c = 60 then ascii "&lt;"
    else if c = 62 then ascii "&gt;"
    else [c]

def attributesText (attributes : List (String × Text)) : List Byte :=
  attributes.flatMap fun a =>
    32 :: (ascii a.1 ++ (ascii "=\"" ++ (escapeXml a.2.val ++ ascii "\"")))

mutual

def elementText (depth : Nat) : Element → List Byte
  | .mk name attributes children =>
    List.replicate (4 * depth) 32 ++ (60 :: ascii name ++ attributesText attributes) ++
      match children with
      | [] => ascii "/>"
      | e :: rest =>
        62 :: childrenText (depth + 1) (e :: rest) ++ (10 :: List.replicate (4 * depth) 32) ++
          (ascii "</" ++ (ascii name ++ ascii ">"))

/-- Each child on a line of its own. -/
def childrenText (depth : Nat) : List Element → List Byte
  | [] => []
  | e :: rest => 10 :: (elementText depth e ++ childrenText depth rest)

end

def documentText (doc : List Element) : List Byte := doc.flatMap fun e => elementText 0 e ++ [10]

/-- The library on some documents. -/
def documentXml (docs : List (List Element)) : DocumentXml where
  print := documentText
  parse text := docs.find? fun doc => documentText doc = text

theorem returns_head (doc : List Element) (docs : List (List Element)) :
    (documentXml (doc :: docs)).Returns doc := by
  unfold DocumentXml.Returns documentXml
  simp

theorem returns_second {doc doc' : List Element} (h : documentText doc ≠ documentText doc') :
    (documentXml [doc, doc']).Returns doc' := by
  unfold DocumentXml.Returns documentXml
  simp [h]

/-! ## Both files -/

/-- What is written to a process folder comes back: the index of a capture, and of a module list
what `modules.xml` holds. -/
theorem folderFiles_saved (X : DocumentXml) (index : CaptureIndex) (hi : index.Regular)
    (hXi : X.Returns [captureElement index]) (list : SavedModuleList) (hl : list.Regular)
    (hXl : X.Returns [modulesElement list]) :
    parseCaptureIndex X (formatCaptureIndex X index) = some index ∧
      parseSavedModules X (formatSavedModules X list) = some list.saved :=
  ⟨parseCaptureIndex_formatCaptureIndex hi hXi, parseSavedModules_formatSavedModules hl hXl⟩

/-- A saved page and one that is only reserved, and a thread. -/
def sampleIndex : CaptureIndex where
  createdUnix := 1780000000
  complete := false
  regions :=
    [{ base := 0x1000, size := 0x1000, allocationBase := 0x1000, protect := 0,
       committed := false, type := 2,
       name := Text.empty, file := Text.empty, missing := 0 },
      { base := 0x400000, size := 0x2000, allocationBase := 0x400000, protect := 5,
        committed := true, type := 1,
        name := ⟨ascii "C:\\\"x\".dll", by decide⟩, file := ⟨ascii "400000_2000.bin", by decide⟩,
        missing := 0x1000 }]
  hasThreads := true
  threads := [⟨0x1234, 0x401000, Text.empty, [0x401010, 0x402000]⟩]

/-- A PE module with a GUID, an ELF one and one that nothing identifies. -/
def sampleModules : SavedModuleList where
  mainModule := 0x400000
  modules :=
    [⟨{ address := 0x400000, lastValidAddress := 0x404fff, entryPoint := 0x401234,
        size := 0x5000, dianaMode := 4,
          dianaArch := 0, fullName := ⟨ascii "C:\\app.exe", by decide⟩, builtInFlags := 1,
          name := ⟨ascii "app.exe", by decide⟩ },
        ⟨format_Pe, 0x5f00aa11, 0x5000, true, ⟨List.replicate 16 0x5A, List.length_replicate⟩, 3,
          Text.empty, Text.empty⟩⟩,
      ⟨{ address := 0x500000, lastValidAddress := 0x500fff, entryPoint := 0,
         size := 0x1000, dianaMode := 0,
          dianaArch := 0, fullName := Text.empty, builtInFlags := 0, name :=
      ⟨ascii "raw", by decide⟩ },
        ImageIdentity.new⟩,
      ⟨{ address := 0x7f0000000000, lastValidAddress := 0x7f0000001fff, entryPoint := 0,
         size := 0x2000, dianaMode := 8,
          dianaArch := 0, fullName := ⟨ascii "/usr/lib/libc.so.6", by decide⟩, builtInFlags := 2,
          name := ⟨ascii "libc.so.6", by decide⟩ },
        { ImageIdentity.new with
          format := format_Elf, buildIdHex := ⟨ascii "0123abcd", by decide⟩ }⟩]

theorem regular_sampleModules : sampleModules.Regular where
  sorted := by decide
  size_ne := by decide
  last := by decide
  known := by
    simp only [sampleModules, List.forall_mem_cons, List.not_mem_nil, false_imp_iff,
      implies_true, and_true]
    exact ⟨.inr (.inl rfl), .inl rfl, .inr (.inr ⟨rfl, by decide⟩)⟩

theorem folderFiles_saved_sample :
    let X := documentXml [[captureElement sampleIndex], [modulesElement sampleModules]]
    parseCaptureIndex X (formatCaptureIndex X sampleIndex) = some sampleIndex ∧
      parseSavedModules X (formatSavedModules X sampleModules) = some sampleModules := by
  have hcapture : (documentText [captureElement sampleIndex]).take 2 = [60, 99] := rfl
  have hmodules : (documentText [modulesElement sampleModules]).take 2 = [60, 109] := rfl
  have hne : documentText [captureElement sampleIndex] ≠
      documentText [modulesElement sampleModules] := by
    intro heq
    rw [heq, hmodules] at hcapture
    exact absurd hcapture (by decide)
  exact folderFiles_saved _ sampleIndex ⟨by decide, by decide, by decide, by decide⟩
    (returns_head _ _) sampleModules regular_sampleModules (returns_second hne)

/-- `modules.xml` does not hold the flags of a module. -/
theorem not_folderFiles :
    ¬((∀ (X : DocumentXml) (index : CaptureIndex),
      index.Regular → X.Returns [captureElement index] →
        parseCaptureIndex X (formatCaptureIndex X index) = some index) ∧
      ∀ (X : DocumentXml) (list : SavedModuleList), list.Regular → X.Returns [modulesElement list] →
        parseSavedModules X (formatSavedModules X list) = some list) := by
  rintro ⟨-, h⟩
  let analyzed : SavedModuleList :=
    { mainModule := 0x400000
      modules :=
        [⟨{ address := 0x400000, lastValidAddress := 0x400fff, entryPoint := 0x400000,
            size := 0x1000, dianaMode := 8,
            dianaArch := 0, fullName := Text.empty, flags := 1, builtInFlags := 0, name :=
          Text.empty }, ImageIdentity.new⟩] }
  have hregular : analyzed.Regular :=
    ⟨by decide, by decide, by decide, fun m hm => .inl (List.mem_singleton.1 hm ▸ rfl)⟩
  have hreturns : (documentXml [[modulesElement analyzed]]).Returns [modulesElement analyzed] :=
    returns_head _ _
  have hsaved := parseSavedModules_formatSavedModules hregular hreturns
  rw [h _ analyzed hregular hreturns] at hsaved
  exact absurd (Option.some.inj hsaved) (by decide)

end Diana.Orthia.Folder
