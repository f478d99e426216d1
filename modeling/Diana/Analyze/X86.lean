import Diana.Analyze.MemoryStream

/-!
# The analysis of x86 instructions

The x86 half of `AnalyzeAndConstructInstruction`: where a branch goes (`analyzeJumps`), which
operands of the other instructions may be addresses (`dispatchMode32`, `dispatchMode64`), and the
operations on the session that follow (`Action`).

`Diana_ParseCmd` at an offset of the image, the observer's conversion of addresses and the reads of
pointers are parameters (`Image`, `Observer`). `x86Env` is the outside of a turn for them, and
`analyzeCode` is `Diana_AnalyzeCode` on an image in memory.
-/

namespace Diana.Analyze

open Diana.Lib

/-! ## Decoded instructions -/

/-- The registers the analysis tells apart. -/
inductive Register where
  | none
  | rip
  | ip
  | other
  deriving DecidableEq, Repr

/-- A memory operand. -/
structure RmIndex where
  reg : Register
  indexedReg : Register
  index : Nat
  dispSize : Nat
  dispValue : Nat
  deriving DecidableEq, Repr

/-- `DianaLinkedOperand` -/
inductive LinkedOperand where
  /-- `diana_rel`, relative to the next instruction -/
  | rel (value : Nat)
  /-- `diana_call_ptr` -/
  | callPtr (address : Nat)
  | index (r : RmIndex)
  | register (r : Register)
  | imm (value : Nat)
  | other
  deriving DecidableEq, Repr

/-- `Diana_LinkedAdditionalGroupInfo`: the `DIANA_GT_...` flags and the branch operand. -/
structure LinkedInfo where
  canChangeRip : Bool
  stop : Bool
  ret : Bool
  canGoToTheNextInstruction : Bool
  relArgumentNumber : Nat
  deriving DecidableEq, Repr

/-- `DianaParserResult` of an instruction that decodes. -/
structure ParserResult where
  fullCmdSize : Nat
  linkedInfo : Option LinkedInfo
  linkedOperands : List LinkedOperand
  isLea : Bool
  deriving DecidableEq, Repr

/-- `DianaAnalyzeAddressResult_type` -/
inductive AddressResult where
  | invalid
  | normal
  | external
  deriving DecidableEq, Repr

/-- `DianaAnalyzeObserver`: the conversion of an address (absolute or an offset), answered with
success. -/
structure Observer where
  analyzeAddress : Nat → Bool → Nat × AddressResult

/-- The image: what decodes at an offset, and the pointers that can be read from it (at an offset,
or at an absolute address). -/
structure Image where
  parseCmd : Nat → Except Status ParserResult
  readPointer : Nat → Bool → Option Nat

/-! ## Branches -/

/-- `AnalyzeJumps`: the target, whether it is absolute, whether it holds a pointer; nothing is
`DI_UNSUPPORTED_COMMAND`. -/
def analyzeJumps (r : ParserResult) (info : LinkedInfo) (offset : Nat) :
    Option (Nat × Bool × Bool) :=
  match r.linkedOperands[info.relArgumentNumber]? with
  | some (.rel value) => some (wrap (offset + value), false, false)
  | some (.callPtr address) => some (address, true, false)
  | some (.index m) =>
    if m.reg = .rip then some (wrap (m.dispValue + offset), false, true)
    else some (m.dispValue, true, true)
  | _ => none

/-- Where a branch goes: the answer of the observer, taken through the pointer if there is one. The
flag says that the target still is the place of a pointer. -/
def resolveTarget (img : Image) (obs : Observer) (newOffset : Nat) (absolute linksToData : Bool) :
    Nat × AddressResult × Bool :=
  let (offset, result) := obs.analyzeAddress newOffset absolute
  if linksToData = true ∧ result ≠ .invalid then
    match img.readPointer offset (result = .external) with
    | some address =>
      let (offset, result) := obs.analyzeAddress address true
      (offset, result, false)
    | none => (offset, result, true)
  else (offset, result, linksToData)

/-- The operations after the target is known. -/
def branchActions (questionable : Bool) : Nat × AddressResult × Bool → List Action
  | (offset, .normal, _) => [.saveNewRoute offset true questionable false]
  | (offset, .external, linksToData) => [.saveNewExternalRoute offset linksToData {}]
  | (_, .invalid, _) => []

/-! ## Operands of other instructions -/

/-- `SaveDataAccess` -/
def saveDataAccess (obs : Observer) (address : Nat) (absolute : Bool) : List Action :=
  match obs.analyzeAddress address absolute with
  | (offset, .normal) => [.saveDataXRef offset false]
  | (offset, .external) => [.saveNewExternalRoute offset true { data := true }]
  | (_, .invalid) => []

/-- An address that is taken: a questionable route, or an external one. -/
def saveAddressTaken (obs : Observer) (address : Nat) (absolute : Bool) : List Action :=
  match obs.analyzeAddress address absolute with
  | (offset, .normal) => [.saveNewRoute offset true true true]
  | (offset, .external) => [.saveNewExternalRoute offset false { addressTaken := true }]
  | (_, .invalid) => []

/-- `IsAbsoluteDataAccess` -/
def isAbsoluteDataAccess (r : ParserResult) (m : RmIndex) : Bool :=
  m.reg = .none ∧ (m.indexedReg = .none ∨ m.index = 0) ∧ (m.dispSize = 4 ∨ m.dispSize = 8) ∧
    r.isLea = false

/-- `DispatchMode32`: operations, and an operand that may be an address. -/
def dispatchMode32 (obs : Observer) (r : ParserResult) : LinkedOperand → List Action × Option Nat
  | .imm value => ([], some value)
  | .index m =>
    if isAbsoluteDataAccess r m then (saveDataAccess obs m.dispValue true, none)
    else if m.dispSize = 4 ∨ m.dispSize = 8 then ([], some m.dispValue)
    else ([], none)
  | _ => ([], none)

/-- `DispatchMode64` -/
def dispatchMode64 (obs : Observer) (r : ParserResult) (next : Nat) :
    LinkedOperand → List Action × Option Nat
  | .register reg => if reg = .rip ∨ reg = .ip then ([.note .usesRip], none) else ([], none)
  | .imm value => ([], some value)
  | .index m =>
    if m.reg = .rip ∨ m.indexedReg = .rip then
      if (m.indexedReg = .none ∨ m.index = 0) ∨ (m.reg = .none ∧ m.index = 1) then
        let target := wrap (next + m.dispValue)
        if r.isLea then (.note .usesRip :: saveAddressTaken obs target false, none)
        else (.note .usesRip :: saveDataAccess obs target false, none)
      else ([.note .usesUnknownRip], none)
    else if isAbsoluteDataAccess r m then (saveDataAccess obs m.dispValue true, none)
    else if m.dispSize = 4 ∨ m.dispSize = 8 then ([], some m.dispValue)
    else ([], none)
  | _ => ([], none)

/-- One operand in `AnalyzeAndConstructNormalInstruction`. -/
def operandActions (obs : Observer) (mode32 : Bool) (r : ParserResult) (next : Nat)
    (op : LinkedOperand) : List Action :=
  let (actions, suspected) :=
    if mode32 then dispatchMode32 obs r op else dispatchMode64 obs r next op
  match suspected with
  | some address => actions ++ saveAddressTaken obs address true
  | none => actions

/-- `AnalyzeAndConstructInstruction` after the instruction is registered: its operations, and
whether the route ends with it. -/
def instructionActions (img : Image) (obs : Observer) (mode32 : Bool) (r : ParserResult)
    (next : Nat) (questionable : Bool) : List Action × Bool :=
  match r.linkedInfo with
  | some info =>
    if info.canChangeRip then
      if info.stop then ([.note .canChangeCsip], true)
      else if info.ret then ([.note .canChangeCsip, .note .isRet], true)
      else
        let reset := !info.canGoToTheNextInstruction
        match analyzeJumps r info next with
        | none => ([.note .canChangeCsip], reset)
        | some (newOffset, absolute, linksToData) =>
          (.note .canChangeCsip ::
            branchActions questionable (resolveTarget img obs newOffset absolute linksToData),
            reset)
    else (r.linkedOperands.flatMap (operandActions obs mode32 r next), false)
  | none => (r.linkedOperands.flatMap (operandActions obs mode32 r next), false)

/-! ## The outside of a turn -/

/-- x86 code starts at any byte. -/
theorem alignment_le_word : 1 ≤ 4 := by decide

/-- What the image and the observer say at the offset of `s`. -/
def x86Answers (cfg : Config) (img : Image) (obs : Observer) (s : Session) : Answers where
  misaligned := false
  parse := (img.parseCmd s.offset).map (·.fullCmdSize)
  wordFlags := {}
  alignment := 1
  alignment_pos := Nat.one_pos
  alignment_le := alignment_le_word
  actions :=
    match img.parseCmd s.offset with
    | .ok r =>
      (instructionActions img obs cfg.mode32 r (wrap (s.offset + r.fullCmdSize))
        s.curRoute.questionable).1
    | .error _ => []
  needReset :=
    match img.parseCmd s.offset with
    | .ok r =>
      .ok (instructionActions img obs cfg.mode32 r (wrap (s.offset + r.fullCmdSize))
        s.curRoute.questionable).2
    | .error _ => .ok true
  arm := false

def x86Env (cfg : Config) (img : Image) (obs : Observer) : Env where
  moveTo := memoryMoveTo cfg.maxOffset
  answers := x86Answers cfg img obs

/-- `Diana_AnalyzeCode` on an image in memory, `n` turns. -/
def analyzeCode (cfg : Config) (img : Image) (obs : Observer) (owner : Owner) (entry n : Nat) :
    Turn :=
  analyzeCodeEx2 cfg (memoryMoveTo cfg.maxOffset) (fun _ => x86Env cfg img obs) owner entry n

end Diana.Analyze
