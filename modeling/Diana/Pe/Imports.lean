import Diana.Pe.Relocs

/-!
# Linking the imports of a PE image

`DianaPeFile_LinkDll32` and `DianaPeFile_LinkDll64`: the thunks of one library are read page by
page, and each is looked up with an observer and filled in. The two differ in the size of a thunk.
The inner loop leaves the last thunk of a page to the next one, so a read that delivers one thunk
alone is made again.

* `passTurn`: one pass of the outer loop; `linkDll fuel`: at most `fuel` of them;
* `linkDll_terminates_iff`: when they come to an end.
-/

namespace Diana.Pe

open Diana.Lib

/-- The two implementations. -/
inductive Layout where
  | pe32 | pe64
  deriving DecidableEq, Repr

/-- `sizeof(DIANA_IMAGE_THUNK_DATA32)`, `sizeof(DIANA_IMAGE_THUNK_DATA64)` -/
def Layout.thunkSize : Layout → Nat
  | .pe32 => 4
  | .pe64 => 8

/-- `DIANA_IMAGE_SNAP_BY_ORDINAL32`, `DIANA_IMAGE_SNAP_BY_ORDINAL64` -/
def Layout.snapByOrdinal (l : Layout) (thunk : Value) : Bool := thunk.getLsbD (8 * l.thunkSize - 1)

/-- What the linker works on: the stream with whatever the observer keeps, and the
buffer for the names. -/
structure LinkState (σ : Type) where
  world : σ
  buffer : List Byte

variable {σ : Type}

/-- `DianaPeFile_LinkImports_Observer`. A name is passed with its hint; without the full information
the two are null and only the function is passed. -/
structure Observer (σ : Type) where
  queryFunctionByOrdinal : (ordinal function : Value) → Run σ Value
  queryFunctionByName : Option (List Byte × Nat) → (function : Value) → Run σ Value
  reportInfo : Option (Value → Run σ Unit)

/-- `flags` -/
structure LinkFlags where
  /-- `DIANA_LINK_IMPORT_FLAG_READ_ONLY` -/
  readOnly : Bool
  /-- `DIANA_LINK_IMPORT_READ_FULL_INFO` -/
  readFullInfo : Bool
  deriving DecidableEq, Repr

/-- What the linker is called with. -/
structure Linking (σ : Type) where
  layout : Layout
  stream : RandomStream σ
  observer : Observer σ
  address : Value
  firstThunkOffset : Value
  nameThunkOffset : Value
  pageSize : Nat
  flags : LinkFlags

/-- A call that does not touch the buffer. -/
def onWorld {α : Type} (x : Run σ α) : Run (LinkState σ) α := fun s =>
  match x s.world with
  | .ok a t => .ok a { s with world := t }
  | .error e t => .error e { s with world := t }

/-- `pRandomRead` without a look at the number of bytes. -/
def readSome (S : RandomStream σ) (address : Value) (size : Nat) : Run σ (List Byte) := do
  let s ← get
  match S.read s address size with
  | .error e => throw e
  | .ok bs => pure bs

/-- `pRandomWrite` without a look at the number of bytes. -/
def writeSome (S : RandomStream σ) (address : Value) (bs : List Byte) : Run σ Unit := do
  let s ← get
  let (r, t) := S.write s address bs
  set t
  match r with
  | .error e => throw e
  | .ok _ => pure ()

/-- The bytes of the buffer up to the first 0. -/
def cString (l : List Byte) : List Byte := l.takeWhile (· ≠ 0)

namespace Linking

variable (L : Linking σ)

/-- The name and the hint that a thunk points to. What a short read leaves in the
buffer stays there. -/
def readName (thunk : Value) : Run (LinkState σ) (List Byte × Nat) := do
  match safeAdd L.address thunk with
  | .error e => throw e
  | .ok functionNameAddress => do
    let s ← get
    let bs ← onWorld (readSome L.stream functionNameAddress s.buffer.length)
    -- `sizeof(DIANA_IMAGE_IMPORT_BY_NAME)`
    if bs.length < 4 then throw .error
    let buffer := (bs ++ s.buffer.drop bs.length).dropLast ++ [0]
    modify fun s => { s with buffer := buffer }
    pure (cString (buffer.drop 2), leNat (buffer.take 2))

/-- A thunk that is not the last one. -/
def linkThunk (thunkOffset thunk : Value) : Run (LinkState σ) Unit := do
  match L.observer.reportInfo with
  | some report => onWorld (report thunkOffset)
  | none => pure ()
  let function ←
    if L.flags.readOnly then do
      let bs ← onWorld (readSome L.stream thunkOffset L.layout.thunkSize)
      pure (BitVec.ofNat 64 (leNat bs))
    else pure 0
  if L.flags.readOnly ∧ ¬ L.flags.readFullInfo then
    let _ ← onWorld (L.observer.queryFunctionByName none function)
  else
    let function ←
      if L.layout.snapByOrdinal thunk then
        onWorld (L.observer.queryFunctionByOrdinal (thunk &&& 0xFFFF) function)
      else do
        let name ← L.readName thunk
        onWorld (L.observer.queryFunctionByName (some name) function)
    if ¬ L.flags.readOnly then
      onWorld (writeSome L.stream thunkOffset (leBytes L.layout.thunkSize function.toNat))

/-- The inner loop, over the thunks that it looks at: whether it found the last one. -/
def linkThunks : List Value → Value → Run (LinkState σ) Bool
  | [], _ => pure false
  | thunk :: rest, thunkOffset =>
    if thunk = 0 then pure true
    else do
      L.linkThunk thunkOffset thunk
      linkThunks rest (thunkOffset + BitVec.ofNat 64 L.layout.thunkSize)

/-- How many thunks the inner loop looks at in a page: those with more than one thunk left from them
on. -/
def thunksIn (length : Nat) : Nat := (length - 1) / L.layout.thunkSize

def pageThunks (page : List Byte) : List Value :=
  (List.range (L.thunksIn page.length)).map fun k =>
    BitVec.ofNat 64 (numberAt page (k * L.layout.thunkSize) L.layout.thunkSize)

/-- `usedPageSize` -/
def usedPageSize : Nat := L.pageSize / L.layout.thunkSize * L.layout.thunkSize

/-- `currentThunkOffset`, `currentNameThunkOffset` and the rest. -/
structure Cursor (σ : Type) where
  thunkOffset : Value
  nameThunkOffset : Value
  state : LinkState σ

/-- The thunks that a read of the name table delivers. -/
def delivered (c : Cursor σ) : Except Status (List Byte) :=
  L.stream.read c.state.world c.nameThunkOffset L.usedPageSize

/-- One pass of the outer loop. -/
def passTurn (c : Cursor σ) : Cursor σ ⊕ (Except Status Unit × LinkState σ) :=
  match L.delivered c with
  | .error e => .inr (.error e, c.state)
  | .ok page =>
    if page.length < L.layout.thunkSize then .inr (.error .error, c.state)
    else
      match L.linkThunks (L.pageThunks page) c.thunkOffset c.state with
      | .error e t => .inr (.error e, t)
      | .ok true t => .inr (.ok (), t)
      | .ok false t =>
        let bytes := BitVec.ofNat 64 (L.thunksIn page.length * L.layout.thunkSize)
        .inl ⟨c.thunkOffset + bytes, c.nameThunkOffset + bytes, t⟩

def start (s : LinkState σ) : Cursor σ := ⟨L.firstThunkOffset, L.nameThunkOffset, s⟩

/-- `DianaPeFile_LinkDll32` and `DianaPeFile_LinkDll64`, followed for at most `fuel` passes. -/
def linkDll (fuel : Nat) (s : LinkState σ) : Option (Except Status Unit × LinkState σ) :=
  if L.pageSize / L.layout.thunkSize = 0 then some (.error .error, s)
  else (runFrom (fun _ => L.passTurn) 0 fuel (L.start s)).getRight?

/-! ## Passes -/

section Passes

variable {L} {c d : Cursor σ} {page : List Byte}

theorem thunkSize_pos (l : Layout) : 0 < l.thunkSize := by cases l <;> decide

/-- A pass makes progress: it leaves the loop or it goes on behind a thunk it has processed. -/
def Progress (L : Linking σ) (c : Cursor σ) : Prop :=
  (∃ r, L.passTurn c = .inr r) ∨
    ∃ page d, L.delivered c = .ok page ∧ L.passTurn c = .inl d ∧ 0 < L.thunksIn page.length

/-- A pass that goes on moves both cursors by the thunks it looked at. -/
theorem passTurn_inl (h : L.passTurn c = .inl d) : ∃ page, L.delivered c = .ok page ∧
    L.layout.thunkSize ≤ page.length ∧
      d.nameThunkOffset =
        c.nameThunkOffset + BitVec.ofNat 64 (L.thunksIn page.length * L.layout.thunkSize) := by
  unfold passTurn at h
  cases hd : L.delivered c with
  | error e =>
    rw [hd] at h
    cases h
  | ok page =>
    rw [hd] at h
    dsimp only at h
    split at h
    · cases h
    · next hlen =>
      refine ⟨page, rfl, Nat.le_of_not_lt hlen, ?_⟩
      split at h
      · cases h
      · cases h
      · cases h
        rfl

theorem thunksIn_pos_iff (h : L.layout.thunkSize ≤ page.length) :
    0 < L.thunksIn page.length ↔ page.length ≠ L.layout.thunkSize := by
  have hpos := thunkSize_pos L.layout
  rw [thunksIn, Nat.div_pos_iff]
  omega

/-- A read of one thunk alone leads to itself. -/
theorem passTurn_stuck (hd : L.delivered c = .ok page) (hlen : page.length = L.layout.thunkSize) :
    L.passTurn c = .inl c := by
  have hpos := thunkSize_pos L.layout
  have hzero : L.thunksIn page.length = 0 := by
    rw [thunksIn, hlen]
    exact Nat.div_eq_of_lt (by omega)
  have hthunks : L.pageThunks page = [] := by rw [pageThunks, hzero]; rfl
  unfold passTurn
  rw [hd]
  dsimp only
  rw [if_neg (by omega), hthunks, hzero, Nat.zero_mul]
  simp [linkThunks]

theorem progress_iff : Progress L c ↔ ∀ page,
    L.delivered c = .ok page → page.length ≠ L.layout.thunkSize := by
  constructor
  · rintro (⟨r, hr⟩ | ⟨page, d, hd, hturn, hpos⟩) page' hd' hlen
    · rw [passTurn_stuck hd' hlen] at hr
      cases hr
    · rw [hd] at hd'
      cases hd'
      obtain ⟨page', hd', hle, -⟩ := passTurn_inl hturn
      rw [hd] at hd'
      cases hd'
      exact (thunksIn_pos_iff hle).1 hpos hlen
  · intro h
    cases hturn : L.passTurn c with
    | inr r => exact .inl ⟨r, hturn⟩
    | inl d =>
      obtain ⟨page, hd, hle, -⟩ := passTurn_inl hturn
      exact .inr ⟨page, d, hd, hturn, (thunksIn_pos_iff hle).2 (h page hd)⟩

/-- A pass that makes progress does not wrap: what it moves by is less than what it read. -/
theorem passTurn_advances
    (hspace : ∀ s a n bs, L.stream.read s a n = .ok bs → a.toNat + bs.length ≤ 2 ^ 64)
    (h : ∀ page, L.delivered c = .ok page → page.length ≠ L.layout.thunkSize)
    (hd : L.passTurn c = .inl d) : c.nameThunkOffset.toNat < d.nameThunkOffset.toNat := by
  obtain ⟨page, hpage, hle, hoff⟩ := passTurn_inl hd
  have hfit := hspace _ _ _ _ hpage
  have hpos := (thunksIn_pos_iff hle).2 (h page hpage)
  have hthunk := thunkSize_pos L.layout
  have hmul : L.thunksIn page.length * L.layout.thunkSize ≤ page.length - 1 :=
    Nat.div_mul_le_self _ _
  have hstep : 0 < L.thunksIn page.length * L.layout.thunkSize := Nat.mul_pos hpos hthunk
  rw [hoff, BitVec.toNat_add, BitVec.toNat_ofNat, Nat.add_mod_mod, Nat.mod_eq_of_lt (by omega)]
  omega

end Passes

/-- Linking comes to an end exactly if no read of the name table that it makes delivers one thunk
alone; and a pass makes progress exactly if its read does not. No stream reads past the end of the
address space. -/
theorem linkDll_terminates_iff (L : Linking σ) (s : LinkState σ)
    (hspace : ∀ s a n bs, L.stream.read s a n = .ok bs → a.toNat + bs.length ≤ 2 ^ 64) :
    ((∃ fuel r, L.linkDll fuel s = some r) ↔
      L.pageSize / L.layout.thunkSize = 0 ∨
        ∀ c, Reached L.passTurn (L.start s) c →
          ∀ page, L.delivered c = .ok page → page.length ≠ L.layout.thunkSize) ∧
    ∀ c, Progress L c ↔ ∀ page, L.delivered c = .ok page → page.length ≠ L.layout.thunkSize := by
  refine ⟨?_, fun c => progress_iff⟩
  unfold linkDll
  by_cases hpage : L.pageSize / L.layout.thunkSize = 0
  · simp [hpage]
  · simp only [hpage, if_false, Sum.getRight?_eq_some_iff, false_or]
    constructor
    · rintro ⟨n, r, hr⟩ c hc page hd hlen
      exact runFrom_ne_inr_of_fixed hc (passTurn_stuck hd hlen) n r hr
    · intro h
      refine exists_runFrom_inr_of_reached (fun c => 2 ^ 64 - c.nameThunkOffset.toNat)
        fun c d hc hd => ?_
      have hlt := passTurn_advances hspace (h c hc) hd
      have := d.nameThunkOffset.isLt
      show 2 ^ 64 - d.nameThunkOffset.toNat < 2 ^ 64 - c.nameThunkOffset.toNat
      omega

end Linking

/-! ## A table at the end of its region -/

section Table

/-- A stream over bytes from address 0 on; at their end it reads what there is. -/
def listStream (bytes : List Byte) : RandomStream Unit where
  read _ address n := .ok ((bytes.drop address.toNat).take n)
  write _ _ bs := (.ok bs.length, ())

/-- Everything is found at address 1000. -/
def plainObserver : Observer Unit where
  queryFunctionByOrdinal _ _ := pure 0x1000
  queryFunctionByName _ _ := pure 0x1000
  reportInfo := none

/-- A table of 32-bit thunks at address 0. -/
def tableAt0 (bytes : List Byte) : Linking Unit where
  layout := .pe32
  stream := listStream bytes
  observer := plainObserver
  address := 0
  firstThunkOffset := 0
  nameThunkOffset := 0
  pageSize := 4096
  flags := ⟨true, true⟩

/-- One thunk by ordinal, the 0 behind the last thunk, and more. -/
def wholeTable : List Byte := [1, 0, 0, 0x80, 0, 0, 0, 0, 0, 0, 0, 0]

theorem linkDll_wholeTable :
    ∃ fuel r, (tableAt0 wholeTable).linkDll fuel ⟨(), List.replicate 512 0⟩ = some r := by
  refine ((Linking.linkDll_terminates_iff (tableAt0 wholeTable) ⟨(), List.replicate 512 0⟩ ?_).1).2
    (.inr ?_)
  · intro s a n bs h
    have hbs : bs = (wholeTable.drop a.toNat).take n := (Except.ok.inj h).symm
    have ha := a.isLt
    have h12 : wholeTable.length = 12 := rfl
    rw [hbs, List.length_take, List.length_drop, h12]
    omega
  · rintro c ⟨n, hn⟩ page hd
    cases n with
    | zero =>
      cases hn
      cases hd
      decide
    | succ n =>
      rw [runFrom_inr rfl] at hn
      cases hn

/-- The first thunk alone, at the end of what can be read: linking does not come to an end. -/
theorem linkDll_diverges :
    ¬ ∃ fuel r, (tableAt0 [1, 0, 0, 0x80]).linkDll fuel ⟨(), List.replicate 512 0⟩ = some r := by
  rintro ⟨fuel, r, h⟩
  have hstuck := Linking.passTurn_stuck (L := tableAt0 [1, 0, 0, 0x80])
    (c := (tableAt0 [1, 0, 0, 0x80]).start ⟨(), List.replicate 512 0⟩) rfl rfl
  exact runFrom_ne_inr_of_fixed (Reached.refl _ _) hstuck fuel r (Sum.getRight?_eq_some_iff.1 h)

end Table

end Diana.Pe
