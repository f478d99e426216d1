import Diana.Status

/-!
# The instructions of an analysis

`Diana_InstructionsOwner` of `diana_analyze.c`: the presence vector with one instruction slot for
each offset of the image, the pool the instructions come from, the list of external instructions and
the cross references.

An instruction of the image is known by its offset: the presence vector holds at most one for each
offset, so a pointer to it is its offset here. A cross reference goes from such an instruction to
another one or to an entry of the external list. It is known by its index: the entries of the stack
they are on do not move. Each instruction links the references from it and those to it in two lists.
-/

namespace Diana.Analyze

/-- `m_flags` of an instruction: the `DI_INSTRUCTION_...` bits. -/
structure InstrFlags where
  canChangeCsip : Bool := false
  isRet : Bool := false
  isLoading : Bool := false
  usesRip : Bool := false
  usesUnknownRip : Bool := false
  invalid : Bool := false
  root : Bool := false
  external : Bool := false
  data : Bool := false
  unsupported : Bool := false
  outsideProfile : Bool := false
  thumb : Bool := false
  dataBytes : Bool := false
  dataHalfwords : Bool := false
  deriving DecidableEq, Repr

/-- `Diana_Instruction` -/
structure Instruction where
  offset : Nat
  flags : InstrFlags
  deriving DecidableEq, Repr

/-- The target of a cross reference: an instruction of the image, or one of the external list. -/
inductive XRefTarget where
  | inside (offset : Nat)
  | outside (index : Nat)
  deriving DecidableEq, Repr

/-- `m_flags` of a cross reference: the `DI_XREF_...` bits. -/
structure XRefFlags where
  invalid : Bool := false
  external : Bool := false
  data : Bool := false
  addressTaken : Bool := false
  deriving DecidableEq, Repr

/-- `Diana_XRef` -/
structure XRef where
  source : Nat
  target : XRefTarget
  flags : XRefFlags
  deriving DecidableEq, Repr

/-- `Diana_InstructionsOwner` -/
structure Owner where
  presenceVec : Nat → Option Instruction
  externals : List Instruction
  xrefs : List XRef
  /-- `m_referencesToThisInstruction` of an instruction -/
  referencesTo : XRefTarget → List Nat
  /-- `m_referencesFromThisInstruction` of an instruction of the image -/
  referencesFrom : Nat → List Nat
  maxSize : Nat
  usedSize : Nat
  actualSize : Nat
  minimalExternalAddress : Nat

namespace Owner

/-- `Diana_InstructionsOwner_Init` -/
def init (maxOffsetSize minimalExternalAddress : Nat) : Owner where
  presenceVec _ := none
  externals := []
  xrefs := []
  referencesTo _ := []
  referencesFrom _ := []
  maxSize := maxOffsetSize
  usedSize := 0
  actualSize := 0
  minimalExternalAddress := minimalExternalAddress

/-- `Diana_InstructionsOwner_GetInstruction` -/
def getInstruction (o : Owner) (address : Nat) : Option Instruction := o.presenceVec address

/-- A write through the pointer to an instruction of the image. -/
def modify (o : Owner) (address : Nat) (f : InstrFlags → InstrFlags) : Owner :=
  { o with
    presenceVec := fun a =>
      if a = address then (o.presenceVec a).map fun i => { i with flags := f i.flags }
      else o.presenceVec a }

/-- `Diana_Instruction_Init` on an instruction of the pool: it has no references. -/
def allocateInstruction (o : Owner) (address : Nat) (flags : InstrFlags) : Owner :=
  { o with
    presenceVec := fun a => if a = address then some ⟨address, flags⟩ else o.presenceVec a
    referencesTo := fun t => if t = .inside address then [] else o.referencesTo t
    referencesFrom := fun a => if a = address then [] else o.referencesFrom a
    usedSize := o.usedSize + 1
    actualSize := o.actualSize + 1 }

/-- `Diana_InstructionsOwner_QueryOrAllocateInstruction` -/
def queryOrAllocateInstruction (o : Owner) (address : Nat) (flags : InstrFlags) :
    Except Status Owner :=
  match o.presenceVec address with
  | some _ => .ok o
  | none =>
    if o.usedSize ≥ o.maxSize then .error .outOfMemory
    else .ok (o.allocateInstruction address flags)

/-- `Diana_CreateXRef`, with the flags its callers set: the reference is linked at its target and at
its source. -/
def createXRef (o : Owner) (source : Nat) (target : XRefTarget) (flags : XRefFlags) : Owner :=
  { o with
    xrefs := o.xrefs ++ [⟨source, target, flags⟩]
    referencesTo := fun t =>
      if t = target then o.referencesTo t ++ [o.xrefs.length] else o.referencesTo t
    referencesFrom := fun a =>
      if a = source then o.referencesFrom a ++ [o.xrefs.length] else o.referencesFrom a }

/-- A new entry of the external list and a cross reference to it. -/
def createExternal (o : Owner) (source : Nat) (i : Instruction) (flags : XRefFlags) : Owner :=
  let target := XRefTarget.outside o.externals.length
  let o : Owner := { o with
    externals := o.externals ++ [i]
    referencesTo := fun t => if t = target then [] else o.referencesTo t }
  o.createXRef source target flags

/-- `SaveDataXRef`: a reference to data inside the module goes to the external list, never to the
presence vector. -/
def saveDataXRef (o : Owner) (source offset : Nat) (addressTaken : Bool) : Owner :=
  o.createExternal source ⟨offset, { data := true }⟩ { data := true, addressTaken := addressTaken }

/-- `SaveNewExternalRoute` -/
def saveNewExternalRoute (o : Owner) (mode32 : Bool) (source newOffset : Nat) (linksToData : Bool)
    (flags : XRefFlags) : Owner :=
  if o.minimalExternalAddress ≠ 0 ∧ newOffset < o.minimalExternalAddress then o
  else if mode32 = true ∧ newOffset ≥ 0xFFFFFFFF then o
  else
    o.createExternal source ⟨newOffset, { external := true, data := linksToData }⟩
      { flags with external := true }

/-- `XrefRouteMarker` -/
def xrefRouteMarker (xrefs : List XRef) (i : Nat) : List XRef :=
  xrefs.modify i fun x => { x with flags := { x.flags with invalid := true } }

/-- `RouteMarker`: the instruction becomes invalid, with the cross references in its lists. -/
def routeMarker (o : Owner) (address : Nat) : Owner :=
  let o := o.modify address fun f => { f with invalid := true }
  let xrefs := (o.referencesTo (.inside address)).foldl xrefRouteMarker o.xrefs
  { o with
    xrefs := (o.referencesFrom address).foldl xrefRouteMarker xrefs
    actualSize := o.actualSize - 1 }

/-- The instruction at `address` is there and not invalid. -/
def isValid (o : Owner) (address : Nat) : Bool :=
  match o.presenceVec address with
  | some i => !i.flags.invalid
  | none => false

/-- `m_offset` of the target of a cross reference. -/
def targetOffset (o : Owner) : XRefTarget → Nat
  | .inside a => a
  | .outside k => (o.externals[k]?.map Instruction.offset).getD 0

/-- `AddressTakenKeeper`, for the reference at an index. -/
def addressTakenKeeper (o : Owner) (i : Nat) : Owner :=
  match o.xrefs[i]? with
  | some x =>
    if x.flags.addressTaken = true ∧ x.flags.data = false ∧ o.isValid x.source = true then
      o.saveDataXRef x.source (o.targetOffset x.target) true
    else o
  | none => o

/-- `AddressTakenRouteKeeper`: an address taken from outside the route stays as a data reference. -/
def addressTakenRouteKeeper (o : Owner) (address : Nat) : Owner :=
  (o.referencesTo (.inside address)).foldl addressTakenKeeper o

/-! ## What each operation does to the presence vector -/

@[simp] theorem allocateInstruction_presenceVec (o : Owner) (a b : Nat) (f : InstrFlags) :
    (o.allocateInstruction a f).presenceVec b = if b = a then some ⟨a, f⟩ else o.presenceVec b :=
  rfl

theorem queryOrAllocate_cases {o o' : Owner} {a : Nat} {f : InstrFlags}
    (h : o.queryOrAllocateInstruction a f = .ok o') :
    (∃ i, o.presenceVec a = some i ∧ o' = o) ∨ o.presenceVec a = none ∧
    o' = o.allocateInstruction a f := by
  unfold queryOrAllocateInstruction at h
  split at h
  case h_1 i hi =>
    cases h
    exact .inl ⟨i, hi, rfl⟩
  case h_2 hi =>
    split at h
    · cases h
    · cases h
      exact .inr ⟨hi, rfl⟩

@[simp] theorem createXRef_presenceVec (o : Owner) (s : Nat) (t : XRefTarget) (f : XRefFlags) :
    (o.createXRef s t f).presenceVec = o.presenceVec := rfl

@[simp] theorem saveNewExternalRoute_presenceVec (o : Owner) (m : Bool) (s a : Nat) (l : Bool)
    (f : XRefFlags) : (o.saveNewExternalRoute m s a l f).presenceVec = o.presenceVec := by
  unfold saveNewExternalRoute
  split
  · rfl
  · split <;> rfl

theorem addressTakenKeeper_eq (o : Owner) (i : Nat) :
    o.addressTakenKeeper i = o ∨ ∃ s a, o.addressTakenKeeper i = o.saveDataXRef s a true := by
  unfold addressTakenKeeper
  split
  · split
    · exact .inr ⟨_, _, rfl⟩
    · exact .inl rfl
  · exact .inl rfl

/-- What no new data reference changes, no keeper changes. -/
theorem addressTakenRouteKeeper_of {α : Type} {f : Owner → α}
    (hf : ∀ o s a, f (saveDataXRef o s a true) = f o) (o : Owner) (a : Nat) :
    f (o.addressTakenRouteKeeper a) = f o := by
  unfold addressTakenRouteKeeper
  generalize o.referencesTo (.inside a) = l
  induction l generalizing o with
  | nil => rfl
  | cons i l ih =>
    rw [List.foldl_cons, ih]
    rcases o.addressTakenKeeper_eq i with h | ⟨s, b, h⟩
    · rw [h]
    · rw [h, hf]

theorem routeMarker_presenceVec (o : Owner) (a : Nat) :
    (o.routeMarker a).presenceVec = (o.modify a fun f => { f with invalid := true }).presenceVec :=
  rfl

theorem modify_same {o : Owner} {a : Nat} {f : InstrFlags → InstrFlags} :
    (o.modify a f).presenceVec a =
      (o.presenceVec a).map fun i => { i with flags := f i.flags } := by
  simp [modify]

theorem modify_other {o : Owner} {a b : Nat} {f : InstrFlags → InstrFlags} (h : b ≠ a) :
    (o.modify a f).presenceVec b = o.presenceVec b := by
  simp [modify, h]

end Owner

end Diana.Analyze
