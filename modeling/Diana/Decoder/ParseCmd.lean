import Diana.Decoder.Prefixes
import Diana.Decoder.Search

/-!
# Decoding an x86 instruction

`Diana_ParseCmd` for x86: the prefixes, a REX, the VEX and EVEX prefixes with the virtual
bytes they put into the cache, the tries with one of the prefixes as a part of the opcode, and
the checks of the result.

The bytes are a `Feed`: those in the cache and those left in a memory stream. What the decoder is
linked with is a `Linker`: its table, and `Diana_LinkOperands`, which reads from the last opcode
byte on and sees of the context everything but the cache. An error leaves the state as it is at that
point, so the decoder is an `EStateM`.

* `Table.search`: what `Diana_ParseCmdImpl` comes to; `exists_parseCmdImpl`: it does;
* `tryMatch`, `parseVirtualCmd`, `parseCmdEx`, `parseCmd`.
-/

namespace Diana.Decoder

open Diana.Lib

/-! ## The bytes -/

/-- `DI_CACHE_RESERVED` -/
def cacheReserved : Nat := 2

/-- `DI_CACHE_SIZE` -/
def cacheLength : Nat := 7

/-- The cache from `cacheIt` on, and the stream. -/
structure Feed where
  cacheIt : Nat
  cached : List Byte
  unread : List Byte
  deriving DecidableEq, Repr

namespace Feed

/-- `pReadFnc` of a memory stream, to the end of the cache. -/
def read (f : Feed) (n : Nat) : Feed :=
  { f with cached := f.cached ++ f.unread.take n, unread := f.unread.drop n }

/-- What `Diana_ReadCache` does to the cache. -/
def fill (f : Feed) (optimize : Bool) : Feed :=
  let f := if optimize then { f with cacheIt := cacheReserved } else f
  let f := if f.cacheIt ≥ cacheLength then { f with cacheIt := cacheReserved } else f
  if f.cacheIt + f.cached.length < cacheLength then
    f.read (cacheLength - f.cached.length - f.cacheIt)
  else f

/-- All bytes there are. -/
def bytes (f : Feed) : List Byte := f.cached ++ f.unread

end Feed

/-- The context with the cache of a feed; what stands behind it stays. -/
def Context.withFeed (c : Context) (f : Feed) : Context :=
  { c with
    cacheIt := f.cacheIt
    cacheSize := f.cached.length
    cache := fun i =>
      if f.cacheIt ≤ i ∧ i < f.cacheIt + f.cached.length then f.cached.getD (i - f.cacheIt) 0
      else c.cache i }

/-! ## The search -/

/-- What `Diana_ParseCmdImpl` returns. -/
def Table.search (t : Table) (c : Context) : Outcome :=
  match t.root.events.find? (Event.hits c c.cacheIt) with
  | some ⟨path, .entry info⟩ => .found info (c.cacheIt + path.length - 1)
  | some ⟨_, .front⟩ => .fault
  | none => .error

/-- The loop of `Diana_ParseCmdImpl` comes to an end, with that outcome. -/
theorem Table.exists_parseCmdImpl (t : Table) (c : Context) :
    ∃ n, parseCmdImpl c t.root n = some (t.search c) := by
  by_cases hsize : c.cacheSize = 0
  · have hnone : t.root.events.find? (Event.hits c c.cacheIt) = none :=
      find?_events_of_le (by simp [Context.cacheEnd, hsize])
    exact ⟨0, by rw [parseCmdImpl, if_pos hsize, Table.search, hnone]⟩
  · obtain ⟨n, hn⟩ := (t.leads_root c hsize).exists_runFrom 0
    refine ⟨n, ?_⟩
    rw [parseCmdImpl, if_neg hsize, hn, Table.search]
    cases t.root.events.find? (Event.hits c c.cacheIt) with
    | none => rfl
    | some e =>
      obtain ⟨path, stop⟩ := e
      cases stop <;> rfl

/-! ## What the decoder is linked with -/

/-- The type of a `DianaLinkedOperand`, as far as the decoder asks for it. -/
inductive LinkedType where
  | register
  /-- `diana_index` or `diana_memory` -/
  | memory
  | other
  deriving DecidableEq, Repr

/-- `DianaLinkedOperand`: what the decoder looks at, and the rest of it. -/
structure LinkedOperand (β : Type) where
  type : LinkedType
  /-- `pInfo->m_type == diana_orVSIB` -/
  vsib : Bool
  /-- `Diana_VectorRegisterNumber` of `recognizedRegister` -/
  vectorNumber : Int
  /-- `Diana_VectorRegisterNumber` of `rmIndex.indexed_reg` -/
  indexNumber : Int
  usedSize : Nat
  rest : β
  deriving DecidableEq, Repr

/-- The operands of a result, with `evex.broadcast`. -/
structure Operands (β : Type) where
  linked : List (LinkedOperand β)
  broadcast : Bool
  deriving DecidableEq, Repr

/-- What `Diana_LinkOperands` leaves: how many bytes it read, the context fields it
writes, its result. -/
structure Linking (β : Type) where
  consumed : Nat
  rexPrefix : Byte
  currentOpsize : Nat
  result : Except Status (Operands β)

/-- The opcode table, `Diana_GetNopInfo` and `Diana_LinkOperands`. -/
structure Linker (β : Type) where
  table : Table
  nopInfo : CmdInfo
  linkOperands : Context → CmdInfo → List Byte → Linking β

/-- `DIANA_EVEX_ROUND_*` -/
inductive Rounding where
  | none | sae | mode (rc : Byte)
  deriving DecidableEq, Repr

/-- `DianaEvexInfo` -/
structure EvexInfo where
  mask : Byte
  zeroing : Bool
  vectorSize : Nat
  broadcast : Bool
  rounding : Rounding
  deriving DecidableEq, Repr

/-- `DianaParserResult`: the entry and its operands. -/
structure Command (β : Type) where
  info : CmdInfo
  operands : List (LinkedOperand β)
  evex : Option EvexInfo := none
  deriving DecidableEq, Repr

/-- Why the decoder stops without a command. -/
inductive Failure where
  | status (s : Status)
  /-- an access outside the tables -/
  | fault
  deriving DecidableEq, Repr

/-- What the decoder works on. -/
structure Input where
  context : Context
  feed : Feed

abbrev Decode := EStateM Failure Input

def fail {α : Type} (s : Status) : Decode α := throw (.status s)

def setFeed (f : Feed) : Decode Unit := modify fun s => { s with feed := f }

def setContext (c : Context) : Decode Unit := modify fun s => { s with context := c }

section Run

variable {α γ : Type} (s : Input)

@[simp] theorem bind_apply (x : Decode α) (k : α → Decode γ) :
    (x >>= k) s = match x s with
      | .ok a t => k a t
      | .error e t => .error e t := by
  show EStateM.bind x k s = _
  unfold EStateM.bind
  cases x s <;> rfl

@[simp] theorem pure_apply (a : α) : (pure a : Decode α) s = .ok a s := rfl

@[simp] theorem get_apply : (get : Decode Input) s = .ok s s := rfl

@[simp] theorem throw_apply (e : Failure) : (throw e : Decode α) s = .error e s := rfl

@[simp] theorem fail_apply (e : Status) : (fail e : Decode α) s = .error (.status e) s := rfl

@[simp] theorem setFeed_apply (f : Feed) : setFeed f s = .ok () { s with feed := f } := rfl

@[simp] theorem setContext_apply (c : Context) : setContext c s = .ok () { s with context := c } :=
  rfl

theorem ite_apply' {p : Prop} [Decidable p] (x y : Decode α) :
    (if p then x else y) s = if p then x s else y s := by
  split <;> rfl

end Run

/-- `Diana_ReadCache` -/
def readCache (optimize : Bool) : Decode Unit := do
  let s ← get
  setFeed (s.feed.fill optimize)
  if (s.feed.fill optimize).cached = [] then fail .ended

/-- `Diana_CacheEatOne`; the callers see to it that there is a byte. -/
def cacheEatOne : Decode Byte := do
  let s ← get
  match s.feed.cached with
  | [] => throw .fault
  | b :: rest =>
    setFeed { s.feed with cacheIt := s.feed.cacheIt + 1, cached := rest }
    pure b

variable {β : Type}

/-! ## The tries -/

/-- Behind a linking that read `consumed` bytes from the byte `newIt` of the cache on. -/
def Feed.behind (unread tail : List Byte) (newIt consumed : Nat) : Feed where
  cacheIt := newIt + min consumed tail.length
  cached := tail.drop consumed
  unread := unread.drop (consumed - tail.length)

/-- `TryMatch`, with the prefix at an index as the first byte of the opcode or with none. `data` is
the byte that was taken from the cache already, `original` what was left there. -/
def tryMatch (d : Linker β) (data : Option Byte) (original : List Byte) (current : Option Nat) :
    Decode (Except Status (Command β)) := do
  let s ← get
  let front := (current.map fun i => s.context.prefixes.getD i 0).toList ++ data.toList
  let feed : Feed :=
    { s.feed with cacheIt := cacheReserved - front.length, cached := front ++ original }
  let original : Feed := { s.feed with cacheIt := cacheReserved, cached := original }
  -- [REX][OLDPREFIX][CMD]
  let oldPrefixFound := current.isNone && (feed.cached.head?.any isCustomPrefix)
  match d.table.search (s.context.withFeed feed) with
  | .fault => throw .fault
  | .error =>
    setFeed original
    pure (.error .error)
  | .found info newIt =>
    let tail := feed.cached.drop (newIt - feed.cacheIt)
    let c := applyPrefixes s.context current
    if c.invalidState then
      setFeed original
      pure (.error .error)
    else
      let c := if oldPrefixFound then { c with rexPrefix := 0, rexPrefixValue := 0 } else c
      let l := d.linkOperands c info (tail ++ feed.unread)
      match l.result with
      | .ok operands =>
        setContext { c with rexPrefix := l.rexPrefix, currentOpsize := l.currentOpsize }
        setFeed (Feed.behind feed.unread tail newIt l.consumed)
        pure (.ok ⟨info, operands.linked, none⟩)
      | .error e =>
        -- undo for the next try: all the prefixes change, but not `iRexPrefixValue`
        setContext { s.context with rexPrefixValue := c.rexPrefixValue }
        setFeed { original with unread := feed.unread.drop (l.consumed - tail.length) }
        pure (.error e)

/-! ## VEX and EVEX -/

/-- The REX byte of inverted bits. -/
def rexByte (w r x b : Bool) : Byte :=
  0x40 ||| (if w then 8 else 0) ||| (if r then 4 else 0) ||| (if x then 2
    else 0) ||| (if b then 1 else 0)

/-- The bits of a VEX prefix. -/
structure VexBits where
  r : Bool
  x : Bool
  b : Bool
  w : Bool
  vvvv : Byte
  l : Bool
  pp : Byte
  map : Byte
  deriving DecidableEq, Repr

/-- The two-byte form. -/
def vexBits2 (b2 : Byte) : VexBits where
  r := !b2.getLsbD 7
  x := false
  b := false
  w := false
  vvvv := (~~~b2 >>> 3) &&& 0xF
  l := b2.getLsbD 2
  pp := b2 &&& 3
  map := 0

/-- The three-byte form; `none` for a reserved map. -/
def vexBits3 (b2 b3 : Byte) : Option VexBits :=
  let map : Option Byte :=
    if b2 &&& 0x1F = 1 then some 0
    else if b2 &&& 0x1F = 2 then some 1
    else if b2 &&& 0x1F = 3 then some 2
    else none
  map.map fun map =>
    { r := !b2.getLsbD 7
      x := !b2.getLsbD 6
      b := !b2.getLsbD 5
      w := b3.getLsbD 7
      vvvv := (~~~b3 >>> 3) &&& 0xF
      l := b3.getLsbD 2
      pp := b3 &&& 3
      map := map }

/-- The virtual prefix and the selector go before what is left of the cache, and the
cache is filled up. -/
def Feed.virtual (f : Feed) (first selector : Byte) (dropped : Nat) : Feed :=
  let f : Feed := { f with cacheIt := 0, cached := first :: selector :: f.cached.drop dropped }
  if f.cached.length < cacheLength then f.read (cacheLength - f.cached.length) else f

/-- The end of `Di_ProcessVexPrefix`, behind a prefix of `dropped` bytes. -/
def foundVex (bits : VexBits) (feed : Feed) (dropped : Nat) : Decode Bool := do
  let c := (← get).context
  let long := c.amd64Mode
  let c := { c with
    vexVVVV := bits.vvvv
    vexPrefix := if bits.w then 3 else 1
    rexPrefix := rexByte (long && bits.w) (long && bits.r) (long && bits.x) (long && bits.b)
    currentOpsize := if long && bits.w then 8 else c.currentOpsize }
  setContext c
  setFeed (feed.virtual 0xC5
    ((bits.pp <<< 3) ||| (bits.map <<< 1) ||| (if bits.l then 1 else 0)) dropped)
  pure true

/-- `Di_ProcessVexPrefix`: whether there is one. Outside 64-bit mode it may be `les` or `lds`. -/
def processVexPrefix (firstByte : Byte) : Decode Bool := do
  let s ← get
  let legacy (b2 : Byte) : Bool := !s.context.amd64Mode && b2 &&& 0xC0 != 0xC0
  if firstByte = 0xC5 then
    let feed := s.feed.read (1 - s.feed.cached.length)
    match feed.cached with
    | [] => fail .endOfStream
    | b2 :: _ =>
      if legacy b2 then
        setFeed feed
        pure false
      else foundVex (vexBits2 b2) feed 1
  else
    let feed := s.feed.read (2 - s.feed.cached.length)
    match feed.cached with
    | b2 :: b3 :: _ =>
      if legacy b2 then
        setFeed feed
        pure false
      else
        match vexBits3 b2 b3 with
        | none =>
          setFeed feed
          fail .error
        | some bits => foundVex bits feed 2
    | _ =>
      -- the end of the stream: les, lds or a cut VEX prefix
      setFeed feed
      if s.context.amd64Mode then fail .endOfStream else pure false

/-- `Di_ProcessEvexPrefix`: whether there is one. Outside 64-bit mode it may be `bound`. -/
def processEvexPrefix : Decode Bool := do
  let s ← get
  -- P0 P1 P2, the opcode and the ModRM byte
  let feed := if s.feed.cacheIt + s.feed.cached.length < cacheLength then
      s.feed.read (5 - s.feed.cached.length)
    else s.feed
  let long := s.context.amd64Mode
  match feed.cached with
  | [] =>
    setFeed feed
    if long then fail .endOfStream else pure false
  | p0 :: rest =>
    if !long && p0 &&& 0xC0 != 0xC0 then
      setFeed feed
      pure false
    else
      match rest with
      | p1 :: p2 :: _ :: modrm =>
        let map := p0 &&& 7
        if p0.getLsbD 3 || !p1.getLsbD 2 || map == 0 || map == 4 || map == 7 then
          setFeed feed
          fail .error
        else
          let w := p1.getLsbD 7
          let ll := (p2 >>> 5) &&& 3
          let b := p2.getLsbD 4
          let v1 := !p2.getLsbD 3
          let c := { s.context with
            vexVVVV := (~~~p1 >>> 3) &&& 0xF
            vexPrefix := if w then 3 else 1
            evexAAA := p2 &&& 7
            evexLL := ll }
          if !long && v1 then
            setContext c
            setFeed feed
            fail .error
          else
            let r := long && !p0.getLsbD 7
            let x := long && !p0.getLsbD 6
            let r1 := long && !p0.getLsbD 4
            setContext { c with
              evexPrefix := 1 ||| (if r1 then 2 else 0) ||| (if v1 then 4
                else 0) ||| (if x then 8 else 0) |||
                (if b then 16 else 0) ||| (if p2.getLsbD 7 then 32 else 0)
              rexPrefix := rexByte (long && w) r x (long && !p0.getLsbD 5)
              currentOpsize := if long && w then 8 else c.currentOpsize }
            -- a register form with EVEX.b: L'L is the rounding
            let pathLL := if b && modrm.head?.any (fun m => m &&& 0xC0 == 0xC0) then 2 else ll
            setFeed (feed.virtual 0x62
              ((if w then 0x80 else 0) ||| (pathLL <<< 5) ||| (map <<< 2) ||| (p1 &&& 3)) 3)
            pure true
      | _ =>
        setFeed feed
        fail .endOfStream

/-- `Di_CheckEvex` -/
def checkEvex (c : Context) (info : CmdInfo) (operands : Operands β) :
    Except Status (Command β) := do
  let some a := info.evex | .error .error
  let ops := operands.linked
  -- the last memory operand
  let memory := (List.range ops.length).reverse.find? fun i => ops[i]?.any fun op =>
      op.type = .memory
  let bcst := c.evexPrefix.getLsbD 4
  if c.evexAAA != 0 && !a.mask then .error .error
  if c.evexAAA == 0 && a.maskRequired then .error .error
  if c.evexPrefix.getLsbD 5 && (!a.zeroing || memory == some 0 || c.evexAAA == 0) then .error .error
  if a.vl == 3 && c.evexLL == 3 && !(bcst && memory.isNone) then .error .error
  if info.nds == 0 && !(ops.any fun op => op.vsib) && c.evexPrefix.getLsbD 2 then .error .error
  if a.distinct && ops.tail.any (fun op => op.type = .register &&
      ops.head?.any fun dest => op.vectorNumber == dest.vectorNumber) then .error .error
  let rounding ←
    if !bcst then .ok Rounding.none
    else if memory.isSome then if operands.broadcast then .ok Rounding.none else .error .error
    else if a.er then .ok (.mode c.evexLL)
    else if a.sae then .ok .sae
    else if a.bIgnored then .ok .none
    else .error .error
  .ok ⟨info, ops, some
    { mask := c.evexAAA
      zeroing := c.evexPrefix.getLsbD 5
      vectorSize := if a.vl = 1 then 32 else if a.vl = 2 then 64 else 16
      broadcast := operands.broadcast
      rounding := rounding }⟩

/-- An instruction whose virtual prefix is in the cache: the part of `Diana_ParseCmdEx` for VEX and
`Di_ParseEvexCmd`. `fits` and `finish` are what the two ask of an entry and of its operands. -/
def parseVirtualCmd (d : Linker β) (fits : CmdInfo → Bool)
    (finish : Context → CmdInfo → Operands β → Except Status (Command β)) : Decode (Command β) := do
  let s ← get
  -- 66, F2, F3, LOCK before VEX
  if s.context.prefixes.any fun p => p == 0x66 || p == 0xF2 || p == 0xF3 || p ==
    0xF0 then fail .error
  match d.table.search (s.context.withFeed s.feed) with
  | .fault => throw .fault
  | .error => fail .error
  | .found info newIt =>
    if !fits info then fail .error
    let tail := s.feed.cached.drop (newIt - s.feed.cacheIt)
    let c := applyPrefixes s.context none
    setContext c
    if c.invalidState then fail .error
    -- R X B W of VEX stay
    let c := { c with
      rexPrefix := s.context.rexPrefix
      currentOpsize := if rexW s.context.rexPrefix then 8 else 4 }
    let l := d.linkOperands c info (tail ++ s.feed.unread)
    let c := { c with rexPrefix := l.rexPrefix, currentOpsize := l.currentOpsize }
    setContext c
    let after := Feed.behind s.feed.unread tail newIt l.consumed
    match l.result with
    | .ok operands =>
      if info.nds = 0 ∧ c.vexVVVV ≠ 0 then
        -- `cacheIt` is at the opcode, `cacheSize` as it was
        setFeed { after with
          cacheIt := newIt
          cached := (List.range s.feed.cached.length).map fun i =>
            (s.context.withFeed s.feed).cache (newIt + i) }
        fail .error
      else
        setFeed after
        match finish c info operands with
        | .ok command => pure command
        | .error e => fail e
    | .error e =>
      setFeed after
      fail e

/-- The part for VEX. -/
def parseVexCmd (d : Linker β) : Decode (Command β) :=
  parseVirtualCmd d (fun info => info.vexEncoded) fun _ info operands =>
    .ok ⟨info, operands.linked, none⟩

/-- `Di_ParseEvexCmd` -/
def parseEvexCmd (d : Linker β) : Decode (Command β) :=
  parseVirtualCmd d (fun info => info.evex.isSome) checkEvex

/-! ## The instruction -/

/-- The loop over the prefixes, at most `n` more bytes: `none` for a `nop`, else the first byte that
is no prefix. `first` is `!iBytesCounter`. -/
def parsePrefixes : Nat → Bool → Bool → Decode (Option Byte)
  | 0, _, _ => fail .error
  | n + 1, first, nopFlags => do
    readCache false
    let data ← cacheEatOne
    if (first || !nopFlags) && data == 0x90 then pure none
    else
      let nopFlags := nopFlags || canNotBeUsedWithRep data
      if isCustomPrefix data then
        match insertPrefix (← get).context data false with
        | .error e => fail e
        | .ok c =>
          setContext c
          parsePrefixes n false nopFlags
      else if (← get).context.amd64Mode && isRex data then
        -- a REX before a legacy prefix is dropped
        let s ← get
        setFeed (s.feed.fill false)
        if (s.feed.fill false).cached.head?.any isCustomPrefix then parsePrefixes n false nopFlags
        else pure (some data)
      else pure (some data)

/-- `Diana_ResetPrefixes`, and the VEX and EVEX state. -/
def resetPrefixes (c : Context) : Context :=
  { c with
    lastPrefixBeforeRex := none
    prefixes := []
    currentOpsize := c.mainModeOpsize
    currentSreg := c.mainModeSreg
    currentAddressSize := c.mainModeAddressSize
    iPrefix := .none
    hasAddressSizePrefix := false
    hasOperandSizePrefix := false
    invalidState := false
    rexPrefix := 0
    rexPrefixValue := 0
    vexPrefix := 0
    vexVVVV := 0
    evexPrefix := 0
    evexAAA := 0
    evexLL := 0 }

/-- The tries: F2 or F3 as a part of the opcode, 66, the last prefix, none. -/
def tryMatches (d : Linker β) (data : Option Byte) : Decode (Command β) := do
  let s ← get
  let original := s.feed.cached
  let lastOf (p : Byte → Bool) : Option Nat :=
    (List.range s.context.prefixes.length).reverse.find? fun i => p (s.context.prefixes.getD i 0)
  let repPrefix := lastOf fun p => p == 0xF2 || p == 0xF3
  let sizePrefix := lastOf fun p => p == 0x66
  let lastPrefix := s.context.lastPrefixBeforeRex.filter fun i =>
    some i != repPrefix && some i != sizePrefix
  let tries := repPrefix.toList ++ sizePrefix.toList ++ lastPrefix.toList
  let rec go : List Nat → Decode (Command β)
    | [] => do
      match ← tryMatch d data original none with
      | .ok command => pure command
      | .error e =>
        if data.isNone && !(← get).feed.cached.isEmpty then discard cacheEatOne
        fail e
    | i :: rest => do
      match ← tryMatch d data original (some i) with
      | .ok command => pure command
      | .error _ => go rest
  go tries

/-- The part of `Diana_ParseCmdEx` behind the prefixes and REX: `data` is the first opcode byte, if
it was taken from the cache. -/
def parseOpcode (d : Linker β) (data : Option Byte) : Decode (Command β) := do
  let s ← get
  let opcode := data.or s.feed.cached.head?
  let isVex := fun b : Byte => b == 0xC4 || b == 0xC5
  -- REX right before VEX or EVEX
  if data.isNone && opcode.any (fun b => isVex b || b == 0x62) then fail .error
  if opcode == some 0x90 && !s.context.prefixes.contains 0xF3 &&
    !s.context.rexPrefixValue.getLsbD 0 then
    if data.isNone then discard cacheEatOne
    pure ⟨d.nopInfo, [], none⟩
  else if data = some 0x62 then
    if ← processEvexPrefix then parseEvexCmd d else tryMatches d data
  else if data.any isVex then
    if ← processVexPrefix (data.getD 0) then parseVexCmd d else tryMatches d data
  else tryMatches d data

/-- The first part of `Diana_ParseCmdEx`: the prefixes and REX. The result is `none` for a `nop`,
else the first opcode byte, if it was taken from the cache. -/
def parseRun : Decode (Option (Option Byte)) := do
  setContext (resetPrefixes (← get).context)
  match ← parsePrefixes (maxPrefixesCount + 1) true false with
  | none => pure none
  | some data =>
    let c := (← get).context
    if c.amd64Mode && isRex data then
      match insertPrefix { c with rexPrefixValue := data } data true with
      | .error e => fail e
      | .ok c =>
        setContext c
        readCache true
        pure (some none)
    else
      setFeed ((← get).feed.fill true)
      pure (some (some data))

/-- `Diana_ParseCmdEx` -/
def parseCmdEx (d : Linker β) : Decode (Command β) := do
  match ← parseRun with
  | none => pure ⟨d.nopInfo, [], none⟩
  | some data => parseOpcode d data

/-- `DianaParserResult` of `Diana_ParseCmd` -/
structure ParserResult (β : Type) where
  command : Command β
  iPrefix : IPrefix
  rexPrefix : Byte
  operandSize : Nat
  fullCmdSize : Int
  deriving DecidableEq, Repr

/-- `DI_MAX_INSTRUCTION_SIZE` -/
def maxInstructionSize : Nat := 15

/-- The destination, the index and the mask of a gather are different registers. -/
def gatherFits (command : Command β) : Bool :=
  !(command.info.operands[1]?.any fun op => op.type = .vsib) ||
    match command.operands with
    | [dest, index, mask] =>
      dest.vectorNumber != index.indexNumber && dest.vectorNumber != mask.vectorNumber &&
        index.indexNumber != mask.vectorNumber
    | [dest, index] =>
      !(dest.type == .register && dest.vectorNumber ≥ 0 && dest.vectorNumber == index.indexNumber)
    | _ => true

/-- The rules of `Diana_ParseCmd` for the prefixes of an entry. -/
def prefixesAllowed (c : Context) (command : Command β) : Bool :=
  !(command.info.prefixNoF3 && c.iPrefix == .rep) &&
    !(command.info.prefixNoF2 && c.iPrefix == .repn) &&
    !(command.info.prefixNo66 && c.hasOperandSizePrefix) && gatherFits command &&
    (!c.prefixes.contains 0xF0 || command.info.prefixLock &&
      command.operands.head?.any fun op => op.type == .memory)

/-- `cmpxchg8b` is `cmpxchg16b` with REX.W. -/
def fixExchange (c : Context) (command : Command β) : Command β :=
  match command.operands with
  | op :: ops =>
    if command.info.commandId = .cmpxchg16b then
      { command with operands := { op with usedSize := if c.currentOpsize = 8 then 16
        else 8 } :: ops }
    else command
  | [] => command

/-- `iPreviousCacheSize + m_iReadSize - cacheSize` -/
def sizeBetween (before after : Feed) : Int :=
  before.cached.length + (before.unread.length - after.unread.length) - after.cached.length

/-- `Diana_ParseCmd` for x86. -/
def parseCmd (d : Linker β) : Decode (ParserResult β) := fun s =>
  match parseCmdEx d s with
  | .error (.status e) t =>
    if sizeBetween s.feed t.feed > maxInstructionSize then .error (.status .error) t
    else .error (.status e) t
  | .error .fault t => .error .fault t
  | .ok command t =>
    let command := fixExchange t.context command
    if !prefixesAllowed t.context command then .error (.status .invalidOpcode) t
    else if sizeBetween s.feed t.feed > maxInstructionSize then .error (.status .error) t
    else
      .ok
        { command := command
          iPrefix := if t.context.prefixes.contains 0xF0 then .lock else t.context.iPrefix
          rexPrefix := t.context.rexPrefix
          operandSize := t.context.currentOpsize
          fullCmdSize := sizeBetween s.feed t.feed } t

end Diana.Decoder
