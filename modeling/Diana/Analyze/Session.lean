import Diana.Analyze.Owner
import Diana.Lib.Loop

/-!
# The analysis loop

`Diana_AnalyzeCodeImpl` of `diana_analyze.c` for every architecture. The loop follows the current
route instruction by instruction, pushes the routes it finds and takes the next one from the stack
when the current one ends.

What the loop asks of the outside is an `Env`: where the stream can be moved, what the bytes at the
current offset decode to, and what the analysis of the instruction found. An instruction's analysis
changes the session only through the operations below (`Action`), so its result is a list of them;
which ones, in which order and with which arguments is up to the decoder, the observer and the
architecture (`Diana.Analyze.X86` computes them for x86).

* `saveNewRoute`, `rollbackCurrentRoute`, `constructInstruction`: the operations on the session;
* `iterate`: one turn of the loop; `analyzeCodeImpl`: the loop.
-/

namespace Diana.Analyze

open Diana.Lib

/-! ## Session -/

/-- What a session is made with. The presence vector holds a pointer of eight bytes for each offset,
so the offsets stay far below the range of `OPERAND_SIZE`. -/
structure Config where
  maxOffset : Nat
  maxOffset_le : maxOffset ≤ 2 ^ 61
  mode32 : Bool
  /-- `DI_ANALYSE_BREAK_ON_INVALID_CMD` -/
  breakOnInvalidCmd : Bool

/-- `Diana_RouteInfo`: the instructions are those the route constructed. -/
structure RouteInfo where
  startOffset : Nat
  questionable : Bool
  instructions : List Nat
  deriving DecidableEq, Repr

/-- `DianaAnalyzeSession`, with the local variables of the loop. The top of the stack comes
first. -/
structure Session where
  owner : Owner
  stack : List RouteInfo
  curRoute : RouteInfo
  offset : Nat
  needReset : Bool

/-- `OPERAND_SIZE` arithmetic. -/
def wrap (a : Nat) : Nat := a % 2 ^ 64

/-- `SaveNewRoute` for the instruction at `source`. `aligned` is false for an ARM target that is not
an instruction address. -/
def saveNewRoute (cfg : Config) (s : Session) (source newOffset : Nat) (aligned questionable : Bool)
    (addressTaken : Bool) : Except Status Session :=
  if newOffset ≥ cfg.maxOffset then .ok s
  else if aligned = false then
    if addressTaken then .ok { s with owner := s.owner.saveDataXRef source newOffset true }
    else .ok s
  else
    let old := s.owner.getInstruction newOffset
    if addressTaken = true ∧ (old.any fun i => i.flags.invalid) = true then
      .ok { s with owner := s.owner.saveDataXRef source newOffset true }
    else do
      let owner ← s.owner.queryOrAllocateInstruction newOffset { isLoading := true }
      let owner := if questionable then owner
        else owner.modify newOffset fun f => { f with root := true }
      let owner := owner.createXRef source (.inside newOffset) { addressTaken := addressTaken }
      if old.isSome then .ok { s with owner := owner }
      else .ok { s with owner := owner, stack := ⟨newOffset, questionable, []⟩ :: s.stack }

/-- The offsets `RollbackCurrentRoute` marks: what the route constructed, and its first instruction
while that is still loading. -/
def rollbackOffsets (s : Session) : List Nat :=
  s.curRoute.instructions ++
    if (s.owner.getInstruction s.curRoute.startOffset).any fun i => i.flags.isLoading then
      [s.curRoute.startOffset]
    else []

/-- `RollbackCurrentRoute` -/
def rollbackCurrentRoute (s : Session) : Session :=
  let marked := (rollbackOffsets s).foldl Owner.routeMarker s.owner
  { s with owner := (rollbackOffsets s).foldl Owner.addressTakenRouteKeeper marked }

/-- `IsStrictRoute`: a route that has to prove it is code. -/
def isStrictRoute (cfg : Config) (s : Session) : Bool :=
  s.curRoute.questionable || cfg.breakOnInvalidCmd

/-! ## What the analysis of an instruction does -/

/-- The flags the analysis sets on the instruction itself. -/
inductive Note where
  | canChangeCsip
  | isRet
  | usesRip
  | usesUnknownRip
  deriving DecidableEq, Repr

def Note.set : Note → InstrFlags → InstrFlags
  | .canChangeCsip, f => { f with canChangeCsip := true }
  | .isRet, f => { f with isRet := true }
  | .usesRip, f => { f with usesRip := true }
  | .usesUnknownRip, f => { f with usesUnknownRip := true }

inductive Action where
  | note (n : Note)
  | saveNewRoute (newOffset : Nat) (aligned questionable addressTaken : Bool)
  | saveDataXRef (offset : Nat) (addressTaken : Bool)
  | saveNewExternalRoute (newOffset : Nat) (linksToData : Bool) (flags : XRefFlags)
  /-- `SaveDataAccess` on ARM: a pending address that is read is no code. -/
  | dropPending (offset : Nat)
  /-- `MarkArm32Data`: one halfword of a literal or a table. -/
  | markData (offset : Nat) (bytes halfwords : Bool)
  deriving DecidableEq, Repr

/-- One operation of the analysis of the instruction at `source`. -/
def act (cfg : Config) (source : Nat) (s : Session) : Action → Except Status Session
  | .note n => .ok { s with owner := s.owner.modify source n.set }
  | .saveNewRoute newOffset aligned questionable addressTaken =>
    saveNewRoute cfg s source newOffset aligned questionable addressTaken
  | .saveDataXRef offset addressTaken =>
    .ok { s with owner := s.owner.saveDataXRef source offset addressTaken }
  | .saveNewExternalRoute newOffset linksToData flags =>
    .ok { s with
      owner := s.owner.saveNewExternalRoute cfg.mode32 source newOffset linksToData flags }
  | .dropPending offset =>
    if offset < cfg.maxOffset then
      .ok { s with
        owner := s.owner.modify offset fun f =>
          if f.isLoading && !f.root then { f with invalid := true } else f }
    else .ok s
  | .markData offset bytes halfwords =>
    if offset < cfg.maxOffset ∧ (s.owner.getInstruction offset).isNone = true then do
      let owner ← s.owner.queryOrAllocateInstruction offset
        { invalid := true, data := true, dataBytes := bytes, dataHalfwords := halfwords }
      .ok { s with owner := { owner with actualSize := owner.actualSize - 1 } }
    else .ok s

/-- `pSession->instructionFlags`: set by the ARM word checks. -/
structure WordFlags where
  unsupported : Bool := false
  outsideProfile : Bool := false
  thumb : Bool := false
  deriving DecidableEq, Repr

/-- The first lines of `AnalyzeAndConstructInstruction`: the instruction joins the route and loses
its loading flag. -/
def constructInstruction (s : Session) (offset : Nat) (w : WordFlags) : Except Status Session := do
  let owner ← s.owner.queryOrAllocateInstruction offset {}
  let owner := owner.modify offset fun _ =>
    { unsupported := w.unsupported, outsideProfile := w.outsideProfile, thumb := w.thumb
      root := !s.curRoute.questionable }
  .ok { s with
    owner := owner
    curRoute := { s.curRoute with instructions := s.curRoute.instructions ++ [offset] } }

/-! ## The loop -/

/-- What the outside says about the current offset. -/
structure Answers where
  /-- ARM: the offset is not an instruction address -/
  misaligned : Bool
  /-- `Diana_ParseCmd` with the ARM word checks: the size of the instruction -/
  parse : Except Status Nat
  wordFlags : WordFlags
  /-- `GetRouteAlignment` -/
  alignment : Nat
  alignment_pos : 0 < alignment
  alignment_le : alignment ≤ 4
  /-- the rest of `AnalyzeAndConstructInstruction` with `TrackArm64` or `TrackArm32` -/
  actions : List Action
  needReset : Except Status Bool
  arm : Bool

/-- The outside of one turn. -/
structure Env where
  moveTo : Nat → Except Status Unit
  answers : Session → Answers

/-- A turn goes on with a session, or the loop ends: with a failure, or with what was found. -/
abbrev Turn := Session ⊕ Except Status Owner

/-- `AnalyzeAndConstructInstruction`, with the tracking of ARM registers. -/
def analyzeAndConstructInstruction (cfg : Config) (a : Answers) (s : Session) (next : Nat) :
    Except Status Session := do
  let t ← constructInstruction s s.offset a.wordFlags
  let t ← a.actions.foldlM (act cfg s.offset) t
  let reset ← a.needReset
  .ok { t with offset := next, needReset := reset }

/-- The end of a turn: a route that ran out of the image is over. ARM: a route that has to prove it
is code may not do so. -/
def endTurn (cfg : Config) (arm : Bool) (t : Session) : Session :=
  if t.offset ≥ cfg.maxOffset then
    if arm = true ∧ t.needReset = false ∧ isStrictRoute cfg t = true then
      { rollbackCurrentRoute t with needReset := true }
    else { t with needReset := true }
  else t

def analyzeInstruction (cfg : Config) (a : Answers) (s : Session) (next : Nat) : Turn :=
  match analyzeAndConstructInstruction cfg a s next with
  | .error e => .inr (.error e)
  | .ok t => .inl (endTurn cfg a.arm t)

/-- The turn at the current offset, once `bNeedReset` is cleared. -/
def analyzeOffset (cfg : Config) (env : Env) (s : Session) : Turn :=
  let a := env.answers s
  if a.misaligned then
    if isStrictRoute cfg s then .inl { rollbackCurrentRoute s with needReset := true }
    else .inl { s with needReset := true }
  else
    match a.parse with
    | .error _ =>
      if isStrictRoute cfg s then .inl { rollbackCurrentRoute s with needReset := true }
      else
        let offset := wrap (s.offset + a.alignment)
        match env.moveTo offset with
        | .error e => .inr (.error e)
        | .ok _ => .inl { s with offset := offset }
    | .ok size =>
      let next := wrap (s.offset + size)
      match s.owner.getInstruction s.offset with
      | some i =>
        if i.flags.invalid then
          if s.curRoute.questionable then
            .inl { rollbackCurrentRoute s with offset := next, needReset := true }
          else .inl { s with offset := next, needReset := true }
        else if !i.flags.isLoading then .inl { s with offset := next, needReset := true }
        else analyzeInstruction cfg a s next
      | none => analyzeInstruction cfg a s next

/-- One turn of the loop of `Diana_AnalyzeCodeImpl`; `SwitchToLastState` when the route is over. -/
def iterate (cfg : Config) (env : Env) (s : Session) : Turn :=
  if s.offset ≥ cfg.maxOffset ∨ s.needReset = true then
    match s.stack with
    | [] => .inr (.ok s.owner)
    | route :: rest =>
      match env.moveTo route.startOffset with
      | .error e => .inr (.error e)
      | .ok _ =>
        analyzeOffset cfg env
          { s with
            stack := rest, curRoute := route, offset := route.startOffset, needReset := false }
  else analyzeOffset cfg env { s with needReset := false }

/-- The session `Diana_AnalyzeCodeImpl` starts the loop with. -/
def startSession (owner : Owner) (initialOffset : Nat) : Session where
  owner := owner
  stack := []
  curRoute := ⟨initialOffset, false, []⟩
  offset := initialOffset
  needReset := false

/-- `n` turns of the loop of `Diana_AnalyzeCodeImpl`, in the world `env`. -/
def analyzeCodeImpl (cfg : Config) (env : Nat → Env) (owner : Owner) (initialOffset n : Nat) :
    Turn :=
  runFrom (fun k => iterate cfg (env k)) 0 n (startSession owner initialOffset)

end Diana.Analyze
