import Diana.Lib.OrdMap
import Diana.Orthia.CommonFormat

/-!
# Modules of a virtual machine

A module is a row of the database: the writes made to it, one item each, and a summary of them (the
lowest address, the size and the number of the writes) in its description. `vm_mod_write` appends a
write and updates the summary; `vm_mod_rebuild_metadata` computes the summary from the items.

The summary that `vm_mod_write` keeps has the right lowest address, but its size is measured from
the lowest address there was before a write: `reach` is what it comes to.
-/

namespace Diana.Orthia

open Diana.Lib

/-- The fields of a module's description. -/
structure Summary where
  /-- `writes_count`, a `long long` -/
  writesCount : BitVec 64
  /-- `lowest_address` -/
  lowestAddress : Nat
  /-- `size_bytes` -/
  sizeInBytes : Nat
  deriving DecidableEq

def Summary.zero : Summary := ⟨0, 0, 0⟩

/-- A row of `tbl_vm_modules`. A new one has no description. -/
structure Module where
  disabled : Bool
  description : Option Summary
  data : List Byte

/-- The summary as a `CDescriptionManager` of its own reads it. -/
def Module.summary (m : Module) : Summary := m.description.getD .zero

/-- The modules of a virtual machine, by their positions. -/
abbrev Vm := OrdMap Nat Module

/-- The summary after a write of `len` bytes. -/
def Summary.write (s : Summary) (start len : Nat) : Except Failure Summary :=
  let lowest := if start < s.lowestAddress ∨ s.writesCount = 0 then start else s.lowestAddress
  if s.writesCount = 0 then .ok ⟨s.writesCount + 1, lowest, len⟩
  else
    let myLast := add64 start (len - 1)
    if myLast < start then .error .overflow
    else
      let currentLast := add64 s.lowestAddress (sub64 s.sizeInBytes 1)
      let size :=
        if currentLast < myLast then add64 s.sizeInBytes (myLast - currentLast) else s.sizeInBytes
      .ok ⟨s.writesCount + 1, lowest, size⟩

def Module.write (X : Xml) (m : Module) (start : Nat) (buffer : List Byte) :
    Except Failure Module :=
  if buffer = [] then .ok m
  else
    match m.summary.write start buffer.length with
    | .error e => .error e
    | .ok summary =>
      let data := m.data ++ produce X start buffer
      if maxSize < data.length then .error .lengthError
      else .ok { m with description := some summary, data }

/-- `DoCommand_vm_mod_write` -/
def vmModWrite (X : Xml) (vm : Vm) (id start : Nat) (buffer : List Byte) : Except Failure Vm :=
  match vm.find id with
  | none => .error .moduleNotFound
  | some m => (m.write X start buffer).map fun m => vm.set id m

/-- The start, the last address and the number of the items seen by the rebuild. -/
structure Scan where
  start : Nat
  last : Nat
  /-- `writesCount`, an `int` -/
  count : BitVec 32

def Scan.initial : Scan := ⟨2 ^ 64 - 1, 0, 0⟩

/-- One item of the rebuild. -/
def Scan.item (a : Scan) (p : Parser) : Except Failure Scan :=
  match p.queryAddress with
  | none => .error .noAddress
  | some currentStart =>
    match p.querySizeOfBinary with
    | .error e => .error e
    | .ok 0 => .ok a
    | .ok (n + 1) =>
      let currentLast := add64 currentStart n
      .ok
        { start := if currentStart < a.start then currentStart else a.start
          last := if a.last < currentLast then currentLast else a.last
          count := a.count + 1 }

def Scan.summary (a : Scan) : Except Failure Summary :=
  if a.count = 0 then .ok .zero
  else if a.last ≤ a.start then .error .internalError
  else .ok ⟨a.count.signExtend 64, a.start, add64 (a.last - a.start) 1⟩

def Module.rebuild (X : Xml) (m : Module) : Except Failure Module :=
  match (queryItems X m.data.length .new m.data).1.foldlM Scan.item .initial with
  | .error e => .error e
  | .ok a => a.summary.map fun summary => { m with description := some summary }

/-- `DoCommand_vm_mod_rebuild_metadata` -/
def vmModRebuildMetadata (X : Xml) (vm : Vm) (id : Nat) : Except Failure Vm :=
  match vm.find id with
  | none => .error .moduleNotFound
  | some m => (m.rebuild X).map fun m => vm.set id m

/-- A sequence of calls of `vm_mod_write`, each to a module. -/
def writeAll (X : Xml) (vm : Vm) : List (Nat × ModWrite) → Except Failure Vm
  | [] => .ok vm
  | (id, w) :: cs =>
    match vmModWrite X vm id w.start w.data with
    | .error e => .error e
    | .ok vm => writeAll X vm cs

/-- The writes of a sequence of calls that go to a module. -/
def writesTo (id : Nat) (cs : List (Nat × ModWrite)) : List ModWrite :=
  (cs.filter fun c => c.1 = id).map (·.2)

/-! ## What the writes cover -/

/-- The lowest of some addresses and the starts of writes. -/
def lowestFrom (low : Nat) : List ModWrite → Nat
  | [] => low
  | w :: ws => lowestFrom (min low w.start) ws

/-- The highest of some addresses and the ends of writes. -/
def highestFrom (high : Nat) : List ModWrite → Nat
  | [] => high
  | w :: ws => highestFrom (max high w.last) ws

/-- The lowest address written to. -/
def lowest : List ModWrite → Nat
  | [] => 0
  | w :: ws => lowestFrom w.start ws

/-- The highest address written to. -/
def highest : List ModWrite → Nat
  | [] => 0
  | w :: ws => highestFrom w.last ws

/-- The number of addresses from the lowest to the highest one. -/
def span : List ModWrite → Nat
  | [] => 0
  | ws => highest ws + 1 - lowest ws

/-- The size that `Summary.write` keeps, with the lowest address and the size so far: every write is
measured from the lowest address before it. -/
def reachFrom (low size : Nat) : List ModWrite → Nat
  | [] => size
  | w :: ws => reachFrom (min low w.start) (max size (w.last + 1 - low)) ws

def reach : List ModWrite → Nat
  | [] => 0
  | w :: ws => reachFrom w.start w.data.length ws

end Diana.Orthia
