import Mathlib.Algebra.Group.Int.Defs
import Mathlib.Algebra.Group.Nat.Defs
import Mathlib.Data.List.FinRange

/-!
# The x86 decoder: its tables and its context

The data `Diana_ParseCmd` works on for x86: the entries of the opcode tables with their operands
(`CmdInfo`), the tree of LINE and INDEX nodes they hang in (`Node`), and `DianaContext` (`Context`).

* `Node.events`: what a search of a node can come to, in depth-first key order;
* `Table`: the trees `diana_gen.c` is made of.
-/

namespace Diana.Decoder

abbrev Byte := BitVec 8

/-! ## Entries -/

/-- `DianaOperands_type` -/
inductive OperandType where
  | none | regMem | registry | memory | sreg | immediate | offset | eax | rel | rel16x32
      | memory16x32
  | ptr | dx | cl | anyCR | dr6or7 | tr6or7 | ecx | esDi | esiPtr
  | regMMX | regXMM | memoryXMM | memoryMMX | registry32 | reg32mem16 | fpuST | fpuST0 | fpuSTi
  | reg16_32_64_mem16 | regMemExact | memoryExact | regYMM | memoryYMM
  | memOnly | xmm0 | regIs4 | vsib | regZMM | memoryZMM | regK | memoryK
  deriving DecidableEq, Repr

/-- `DianaOperandInfo`; `none` is `DI_CHAR_NULL` in `m_value` and `diana_reg_none` in
`m_sreg_type`. -/
structure OperandInfo where
  type : OperandType
  size : Nat := 0
  size2 : Nat := 0
  value : Option Byte := none
  sregType : Option Nat := none
  deriving DecidableEq, Repr

/-- The commands the decoder treats in a way of their own. -/
inductive CommandId where
  /-- `diana_cmd_in`, `out`, `ins`, `outs` -/
  | port
  | cmpxchg16b
  | other
  deriving DecidableEq, Repr

/-- `DianaEvexCmdAttributes` -/
structure EvexAttributes where
  /-- `DI_EVEX_VL_*` -/
  vl : Nat := 0
  mask : Bool := false
  zeroing : Bool := false
  maskRequired : Bool := false
  /-- `DI_EVEX_BCST_MASK` -/
  bcst : Nat := 0
  er : Bool := false
  sae : Bool := false
  /-- `DI_EVEX_N_MASK` -/
  n : Nat := 0
  bIgnored : Bool := false
  distinct : Bool := false
  deriving DecidableEq, Repr

/-- `DianaCmdInfo`, with the flags of its parent and the attributes in front of an EVEX entry. -/
structure CmdInfo where
  /-- stands for the address of the entry -/
  id : Nat
  extension : Byte := 0
  extensionMask : Byte := 0
  extensionDenyMask : Byte := 0
  commandId : CommandId := .other
  -- `DI_FLAG_CMD_*`
  supportsImm64 : Bool := false
  amdDefaultOpsize64 : Bool := false
  fpuI : Bool := false
  ignoreRexPrefix : Bool := false
  i386 : Bool := false
  amd64 : Bool := false
  prefixLock : Bool := false
  postbyteUsed : Bool := false
  registerAsOpcode : Bool := false
  has32BitAnalog : Bool := false
  testModeOnly : Bool := false
  vexEncoded : Bool := false
  /-- `DI_VEX_GET_NDS` -/
  nds : Nat := 0
  -- `DIANA_BASE_GEN_OBJECT_*`
  prefixNo66 : Bool := false
  prefixNoF2 : Bool := false
  prefixNoF3 : Bool := false
  vexW0 : Bool := false
  vexW1 : Bool := false
  evex : Option EvexAttributes := none
  /-- `m_iCSIPExtensionSizeInBytes`; `none` is `DI_CHAR_NULL` -/
  csipExtensionSize : Option Nat := none
  immediateOperandSize : Option Nat := none
  immediateOperandSize2 : Option Nat := none
  operands : List OperandInfo := []
  deriving DecidableEq, Repr

/-! ## The context -/

/-- The segment registers, in the order of `DianaSreg_type`. -/
inductive SegReg where
  | es | cs | ss | ds | fs | gs
  deriving DecidableEq, Repr

/-- `DI_PREFIX_*` -/
inductive IPrefix where
  | none | lock | rep | repn
  deriving DecidableEq, Repr

/-- `DianaContext` of an x86 decoder. The cache is followed by whatever memory stands behind it;
a prefix is linked with the function `Diana_InitUtils` gives it, so its byte tells which one. -/
structure Context where
  mainModeOpsize : Nat
  currentOpsize : Nat
  mainModeAddressSize : Nat
  currentAddressSize : Nat
  mainModeSreg : SegReg
  currentSreg : SegReg
  iPrefix : IPrefix
  -- the bits of `iSizePrefixes`
  hasAddressSizePrefix : Bool
  hasOperandSizePrefix : Bool
  invalidState : Bool
  amd64Mode : Bool
  rexPrefix : Byte
  rexPrefixValue : Byte
  cache : Nat → Byte
  cacheSize : Nat
  cacheIt : Nat
  lastPrefixBeforeRex : Option Nat
  prefixes : List Byte
  testMode : Bool
  vexPrefix : Byte
  vexVVVV : Byte
  evexPrefix : Byte
  evexAAA : Byte
  evexLL : Byte

/-- `DI_MAX_LINES_COUNT` -/
def maxLinesCount : Nat := 4 * 2

/-! ## Tables -/

/-- What stands where the key before the first key of a line would stand: the byte its opcode is
read from, and whether the pointer is null. -/
structure Front where
  opcode : Byte
  null : Bool
  deriving DecidableEq, Repr

/-- `DianaBaseGenObject_type` behind a key: no object, an entry, a LINE with its keys, an INDEX with
its 256 slots. `same` is `DIANA_BASE_GEN_OBJECT_THE_SAME_OPCODE`. -/
inductive Node where
  | null
  | cmd (info : CmdInfo)
  | line (same : Bool) (front : Front) (keysCount : Nat) (opcode : Fin keysCount → Byte)
      (object : Fin keysCount → Node)
  | index (same : Bool) (object : Fin 256 → Node)

namespace Node

/-- `DIANA_BASE_GEN_OBJECT_THE_SAME_OPCODE` of a node. -/
def same : Node → Bool
  | null | cmd _ => false
  | line same .. | index same _ => same

/-- A LINE or an INDEX. -/
def isLines : Node → Bool
  | null | cmd _ => false
  | line .. | index .. => true

def isLine : Node → Bool
  | line .. => true
  | _ => false

/-- At most `n` LINE and INDEX nodes on a way down. -/
def fits : Nat → Node → Prop
  | _, null | _, cmd _ => True
  | 0, line .. | 0, index .. => False
  | n + 1, line _ _ _ _ object => ∀ i, (object i).fits n
  | n + 1, index _ object => ∀ b, (object b).fits n

/-- `THE_SAME_OPCODE` stands only on the LINEs directly in the slots of an INDEX. -/
def wellFlagged : Node → Prop
  | null | cmd _ => True
  | line _ _ _ _ object => ∀ i, (object i).same = false ∧ (object i).wellFlagged
  | index _ object => ∀ b, ((object b).same → (object b).isLine) ∧ (object b).wellFlagged

end Node

/-- What a search can come to at the end of an opcode path: an entry, or the memory before the keys
of a line, taken for a key. -/
inductive Stop where
  | entry (info : CmdInfo)
  | front
  deriving DecidableEq, Repr

/-- An opcode path and what is at its end. -/
structure Event where
  path : List Byte
  stop : Stop
  deriving DecidableEq, Repr

namespace Event

def isEntry (e : Event) : Bool :=
  match e.stop with
  | .entry _ => true
  | .front => false

/-- The event behind one more opcode byte. -/
def under (opcode : Byte) (e : Event) : Event := { e with path := opcode :: e.path }

end Event

/-- The memory before the keys of a line, where it reads as a key. -/
def Front.events (front : Front) : List Event :=
  if front.null then [] else [⟨[front.opcode], .front⟩]

namespace Node

/-- What a search can come to behind a key of the opcode `opcode`, in depth-first key order. A node
with `THE_SAME_OPCODE` looks at that opcode once more, any other at the byte after it. -/
def eventsUnder : Node → Byte → List Event
  | null, _ => []
  | cmd info, opcode => [⟨[opcode], .entry info⟩]
  | line same front keysCount keyOpcode object, opcode =>
    let own := (List.finRange keysCount).flatMap fun i => (object i).eventsUnder (keyOpcode i)
    if same then (front.events ++ own).filter fun e => e.path.head? = some opcode
    else own.map (Event.under opcode)
  | index same object, opcode =>
    let own := (List.finRange 256).flatMap fun b => (object b).eventsUnder (BitVec.ofFin b)
    if same then own.filter fun e => e.path.head? = some opcode
    else own.map (Event.under opcode)

/-- What a search of the node can come to. -/
def events : Node → List Event
  | null | cmd _ => []
  | line _ _ keysCount keyOpcode object =>
    (List.finRange keysCount).flatMap fun i => (object i).eventsUnder (keyOpcode i)
  | index _ object => (List.finRange 256).flatMap fun b => (object b).eventsUnder (BitVec.ofFin b)

end Node

/-- An opcode table: a LINE or an INDEX, less than `DI_MAX_LINES_COUNT` nodes below it on every way
down, and `THE_SAME_OPCODE` where `diana_gen.c` puts it. -/
structure Table where
  root : Node
  isLines : root.isLines
  same : root.same = false
  depth : root.fits maxLinesCount
  flagged : root.wellFlagged

/-- The entries of a table with their opcode paths, in depth-first key order. -/
def Table.entries (t : Table) : List Event := t.root.events.filter Event.isEntry

end Diana.Decoder
