import Diana.Lib.Post
import Diana.Patcher.MoveA32
import Diana.Patcher.StreamX86

/-!
# Patching an ARM function

`DianaHook_PatchStreamA64` and `DianaHook_PatchStreamA32`: the stub, the moved
instructions and the literals go to a block of their own, then the caller's pointer gets
the address of the moved instructions, and last the function gets its hook. Each of these
is one write, and each write can fail.

* `followJumpsA64`, `planA64`, `followJumpsA32`, `planA32`: everything up to the first write;
* `writePlan`: the writes, in their order;
* `Undoes`: after a failure memory outside the block is as it was, `undoes_iff` when.
-/

namespace Diana.Patcher.Arm

open Diana.A64 (Word Byte Addr)
open Diana.A32 (Tables alignT32 emitJump moveInstructionA32 instrSize)
open Diana.Lib

/-! ## The target -/

/-- The writes of a patch. -/
inductive Piece where
  | literals
  | stub
  | moved
  | pointer
  | hook
  deriving DecidableEq, Repr

/-- What `pRandomWrite` does: how many bytes it stores, and its status. -/
structure Answer where
  stored : Nat
  status : Option Status := none
  deriving DecidableEq, Repr

/-- The target memory: what `pRandomRead` delivers (every read comes before the first write), what
the allocator returns, and what becomes of each write. -/
structure Target where
  read : Addr → Nat → Except Status (List Byte)
  alloc : Addr → Except Status Addr
  write : Piece → Answer

/-- `DianaHook_InternalMessage`, as `DianaHook_PatchStreamEx` fills it. -/
structure Arguments where
  processorMode : Nat
  addressToHook : Addr
  hookFunction : Addr
  patchContext : Addr := 0
  /-- all ones without `DIANA_HOOK_CUSTOM_OPTION_SAVE_ORIGINAL_FP` -/
  originalFunctionPointer : Addr := -1
  options : X86.Options := {}

/-- `ReadMemory` -/
def readMemory (t : Target) (address : Addr) (size : Nat) : Except Status (List Byte) := do
  let bytes ← t.read address size
  if bytes.length ≠ size then throw .error
  return bytes

/-- A little-endian word. -/
def getWord (bytes : List Byte) : Word :=
  bytes.foldr (fun b word => (word <<< 8) ||| b.setWidth 32) 0

/-- `ReadWord` -/
def readWord (t : Target) (address : Addr) : Except Status Word :=
  return getWord (← readMemory t address 4)

/-- A result that the message has no part in. -/
def emitExcept {α : Type} (r : Except Status α) : Emit α := ExceptT.mk (pure r)

/-- The code `e` emits into an empty buffer. -/
def emitted (e : Emit Unit) : Except Status (List Byte) :=
  match e emptyMessage with
  | (.ok _, m) => .ok m.workBufferRaw
  | (.error status, _) => .error status

/-! ## The plan -/

/-- `DIANA_HOOK_A64_LITERALS_OFFSET`, `DIANA_HOOK_A32_LITERALS_OFFSET` -/
def literalsOffset : Nat := 0x200

/-- `DIANA_HOOK_A64_ALLOCATION_SIZE`, `DIANA_HOOK_A32_ALLOCATION_SIZE` -/
def allocationSize : Nat := 1024

/-- What is written where. The stub with the moved code fits below the literals. -/
structure Plan where
  addressToHook : Addr
  stub : List Byte
  literals : List Byte
  moved : List Byte
  originalPointer : List Byte
  hook : List Byte
  moved_le : stub.length + moved.length ≤ literalsOffset
  literals_le : literals.length ≤ 16

def maxJumpsCount : Nat := 20

/-- `FollowJumpsA64`, with the jumps that are left. -/
def followJumpsA64 (t : Target) : Nat → Addr → Except Status Addr
  | left, addressToHook => do
    let word ← readWord t addressToHook
    if word &&& 0xFC000000 ≠ 0x14000000 then return addressToHook
    match left with
    | 0 => throw .errorNotImplemented
    | left + 1 => followJumpsA64 t left (addressToHook + signExtend (word &&& 0x3FFFFFF) 26 * 4)

/-- The loop over the instructions the hook overwrites, with the words that are left:
the bytes it moved. -/
def moveWords (decodeWord : Decoder) (t : Target) (addressToHook movedAddress : Addr) :
    Nat → Nat → Bool → Emit Nat
  | 0, srcSize, _ => return srcSize
  | left + 1, srcSize, endsFlow =>
    -- the function ends before the hook fits
    if endsFlow then throw .ended
    else do
      let src := addressToHook + BitVec.ofNat 64 srcSize
      let word ← emitExcept (readWord t src)
      let endsFlow ← fun m => moveInstructionA64 decodeWord word src
        (movedAddress + BitVec.ofNat 64 m.workBufferRaw.length) m
      moveWords decodeWord t addressToHook movedAddress left (srcSize + 4) endsFlow

/-- Back to the rest of the function. -/
def jumpBack (back : Addr) (movedAddress : Addr) : Emit Unit := fun m =>
  let delta := distance (movedAddress + BitVec.ofNat 64 m.workBufferRaw.length) back
  if fitsSigned (delta.sdiv 4) 26 then
    emitWord (0x14000000 ||| ((delta.sdiv 4).setWidth 32 &&& 0x3FFFFFF)) m
  else emitFarJump back false m

/-- `g_stubA64`, with the literal loads at 15 and 16 filled in. -/
def stubA64 : List Word :=
  [0xD102C3FF, 0xA90007E0, 0xA9010FE2, 0xA90217E4, 0xA9031FE6, 0xA90427E8, 0xA9052FEA, 0xA90637EC,
   0xA9073FEE, 0xA90847F0, 0xD53B4209, 0xA90927F2, 0xA90A7BFD, 0x9102C3E1, 0x910003E2,
   0x58000000 ||| ((BitVec.ofNat 32 (literalsOffset - 15 * 4) / 4) <<< 5),
   0x58000010 ||| ((BitVec.ofNat 32 (literalsOffset + 8 - 16 * 4) / 4) <<< 5),
   0xD63F0200, 0xA94927F2, 0xD51B4209, 0xA94007E0, 0xA9410FE2, 0xA94217E4, 0xA9431FE6, 0xA94427E8,
   0xA9452FEA, 0xA94637EC, 0xA9473FEE, 0xA94847F0, 0xA94A7BFD, 0x9102C3FF]

/-- The bytes `WriteHookA64` writes. -/
def hookA64 (addressToHook stubAddress : Addr) (near : Bool) : List Byte :=
  if near then
    putWord (0x14000000 |||
      (((distance addressToHook stubAddress).sdiv 4).setWidth 32 &&& 0x3FFFFFF))
  else putWord 0x58000050 ++ putWord 0xD61F0200 ++ putQword stubAddress

/-- `DianaHook_PatchStreamA64` between the allocation and its first write. -/
def planA64 (decodeWord : Decoder) (t : Target) (args : Arguments)
    (addressToHook allocatedAddress : Addr) : Except Status Plan := do
  if allocatedAddress &&& 3 ≠ 0 then throw .error
  let stub := stubA64.flatMap putWord
  let movedAddress := allocatedAddress + BitVec.ofNat 64 stub.length
  let near :=
    !args.options.putFarJmp && fitsSigned ((distance addressToHook allocatedAddress).sdiv 4) 26
  let hookSize := if near then 4 else 16
  let moved ← emitted do
    let srcSize ← moveWords decodeWord t addressToHook movedAddress (hookSize / 4) 0 false
    jumpBack (addressToHook + BitVec.ofNat 64 srcSize) movedAddress
  if h : stub.length + moved.length > literalsOffset then throw .error
  else return {
    addressToHook, stub, moved
    literals := putQword args.patchContext ++ putQword args.hookFunction
    originalPointer := putQword movedAddress
    hook := hookA64 addressToHook allocatedAddress near
    moved_le := Nat.le_of_not_lt h
    literals_le := Nat.le_of_eq rfl }

/-! ### A32 and T32 -/

/-- The context of the decoder: ITSTATE. -/
abbrev ItState := BitVec 8

/-- `AdvanceIt` -/
def advanceIt (state : ItState) : ItState :=
  if state &&& 7 = 0 then 0 else (state &&& 0xE0) ||| ((state <<< 1) &&& 0x1F)

/-- `DecodeAt`, up to the word: the halfwords of a T32 instruction are read one by one. -/
def fetchAt (t : Target) (thumb : Bool) (address : Addr) : Except Status Word := do
  if thumb then
    let hw1 := getWord (← readMemory t address 2)
    if instrSize true (hw1 <<< 16) = 4 then
      let hw2 := getWord (← readMemory t (address + 2) 2)
      return (hw1 <<< 16) ||| hw2
    return hw1 <<< 16
  else readWord t address

/-- `DecodeAt`: the size of the instruction, the result, and ITSTATE behind it. -/
def decodeAt (tables : Tables) (t : Target) (thumb : Bool) (itState : ItState) (address : Addr) :
    Except Status (Word × A32.ParserResult × ItState) := do
  let word ← fetchAt t thumb address
  let result := A32.decode tables thumb itState word
  let next :=
    if thumb then (if result.cmd = .it then (word >>> 16).setWidth 8 else advanceIt itState)
      else itState
  return (word, result, next)

/-- `FollowJumpsA32`, with the jumps that are left. -/
def followJumpsA32 (tables : Tables) (t : Target) (thumb : Bool) :
    Nat → ItState → Addr → Except Status (Addr × ItState)
  | left, itState, addressToHook => do
    let (word, result, next) ← decodeAt tables t thumb itState addressToHook
    match result.linkedOperands with
    | .rel value :: _ =>
      if result.cmd = .b ∧ result.cond = 14 then
        match left with
        | 0 => throw .errorNotImplemented
        | left + 1 =>
          followJumpsA32 tables t thumb left next
            (addressToHook + BitVec.ofNat 64 (instrSize thumb word) + value)
      else return (addressToHook, next)
    | _ => return (addressToHook, next)

theorem instrSize_pos (thumb : Bool) (word : Word) : 0 < instrSize thumb word := by
  rw [instrSize]
  split_ifs <;> decide

/-- The loop over the instructions the hook overwrites: the bytes it moved. -/
def moveCode (tables : Tables) (t : Target) (thumb : Bool) (addressToHook movedAddress : Addr)
    (hookSize srcSize : Nat) (itState : ItState) (endsFlow : Bool) : Emit Nat :=
  if srcSize < hookSize then
    if endsFlow then throw .ended
    else do
      let src := addressToHook + BitVec.ofNat 64 srcSize
      let (word, result, next) ← emitExcept (decodeAt tables t thumb itState src)
      let endsFlow ← moveInstructionA32 thumb result src movedAddress
      have := instrSize_pos thumb word
      moveCode tables t thumb addressToHook movedAddress hookSize (srcSize + instrSize thumb word)
        next endsFlow
  else return srcSize
termination_by hookSize - srcSize

/-- `g_stubA32` -/
def stubA32 : List Word :=
  [0xE92D5FFF, 0xE10F0000, 0xE52D0004, 0xE1A0200D, 0xE28D103C, 0xE59F01E4, 0xE59F31E4, 0xE12FFF33,
   0xE49D0004, 0xE128F000, 0xE8BD5FFF]

/-- `g_stubT32` -/
def stubT32 : List Byte :=
  [0x2D, 0xE9, 0xFF, 0x5F, 0xEF, 0xF3, 0x00, 0x80, 0x01, 0xB4, 0x6A, 0x46, 0x0F, 0xA9, 0xDF,
    0xF8, 0xF0, 0x01,
   0xDF, 0xF8, 0xF0, 0x31, 0x98, 0x47, 0x01, 0xBC, 0x80, 0xF3, 0x00, 0x88, 0xBD, 0xE8, 0xFF,
   0x5F, 0x00, 0xBF]

/-- The bytes `WriteHookA32` writes. -/
def hookA32 (thumb : Bool) (addressToHook stubAddress : Addr) (near : Bool) : List Byte :=
  if thumb then
    (if addressToHook &&& 3 ≠ 0 then [0x00, 0xBF] else []) ++ [0xDF, 0xF8, 0x00, 0xF0] ++
      putWord (stubAddress.setWidth 32 ||| 1)
  else if near then
    putWord (0xEA000000 ||| (((stubAddress - (addressToHook + 8)).sshiftRight 2).setWidth
      32 &&& 0xFFFFFF))
  else putWord 0xE51FF004 ++ putWord (stubAddress.setWidth 32)

/-- `DianaHook_PatchStreamA32` between the allocation and its first write. -/
def planA32 (tables : Tables) (t : Target) (thumb : Bool) (args : Arguments) (itState : ItState)
    (addressToHook allocatedAddress : Addr) : Except Status Plan := do
  if allocatedAddress &&& 3 ≠ 0 then throw .error
  let stub := if thumb then stubT32 else stubA32.flatMap putWord
  let movedAddress := allocatedAddress + BitVec.ofNat 64 stub.length
  let near := !thumb && !args.options.putFarJmp &&
    fitsSigned ((allocatedAddress - (addressToHook + 8)).sshiftRight 2) 24
  let hookSize :=
    if thumb then (if addressToHook &&& 3 ≠ 0 then 10 else 8) else (if near then 4 else 8)
  let moved ← emitted do
    let srcSize ← moveCode tables t thumb addressToHook movedAddress hookSize 0 itState false
    if thumb then alignT32 movedAddress
    emitJump movedAddress thumb (addressToHook + BitVec.ofNat 64 srcSize)
  if h : stub.length + moved.length > literalsOffset then throw .error
  else return {
    addressToHook, stub, moved
    literals := putWord (args.patchContext.setWidth 32) ++ putWord (args.hookFunction.setWidth 32)
    originalPointer := putWord (movedAddress.setWidth 32 ||| if thumb then 1 else 0)
    hook := hookA32 thumb addressToHook allocatedAddress near
    moved_le := Nat.le_of_not_lt h
    literals_le := Nat.le_of_ble_eq_true rfl }

/-! ## The writes -/

/-- Memory, and the block that was given back. -/
structure World where
  mem : Addr → Byte
  freed : Option Addr := none

abbrev Patch := EStateM Status World

/-- The byte that bytes at `address` put at `a`. -/
def putAt (address : Addr) (bytes : List Byte) (a : Addr) :
    Option Byte := bytes[(a - address).toNat]?

def storeBytes (mem : Addr → Byte) (address : Addr) (bytes : List Byte) (a : Addr) : Byte :=
  (putAt address bytes a).getD (mem a)

/-- The bytes of the piece that are stored. -/
def Target.storedOf (t : Target) (piece : Piece) (bytes : List Byte) : List Byte :=
  bytes.take (t.write piece).stored

/-- The piece is written, all of it. -/
def Target.Accepts (t : Target) (piece : Piece) (bytes : List Byte) : Prop :=
  (t.write piece).status = none ∧ (t.write piece).stored = bytes.length

instance (t : Target) (piece : Piece) (bytes : List Byte) : Decidable (t.Accepts piece bytes) :=
  inferInstanceAs (Decidable (_ ∧ _))

/-- `Write` -/
def write (t : Target) (piece : Piece) (address : Addr) (bytes : List Byte) : Patch Unit := do
  modify fun w => { w with mem := storeBytes w.mem address (t.storedOf piece bytes) }
  match (t.write piece).status with
  | some status => throw status
  | none => if (t.write piece).stored ≠ bytes.length then throw .error

/-- The writes to the block. -/
def writeBlock (t : Target) (allocatedAddress : Addr) (plan : Plan) : Patch Unit := do
  write t .literals (allocatedAddress + BitVec.ofNat 64 literalsOffset) plan.literals
  write t .stub allocatedAddress plan.stub
  write t .moved (allocatedAddress + BitVec.ofNat 64 plan.stub.length) plan.moved

/-- The writes outside of it. The last one: the function goes to the stub. -/
def writeVisible (t : Target) (originalFunctionPointer : Addr) (plan : Plan) : Patch Unit := do
  if originalFunctionPointer ≠ -1 then write t .pointer originalFunctionPointer plan.originalPointer
  write t .hook plan.addressToHook plan.hook

def writePlan (t : Target) (originalFunctionPointer allocatedAddress : Addr) (plan : Plan) :
    Patch Unit := do
  writeBlock t allocatedAddress plan
  writeVisible t originalFunctionPointer plan

/-- `cleanup`: a failure gives the block back. -/
def cleanup (allocatedAddress : Addr) (x : Patch Unit) : Patch Unit := fun w =>
  match x w with
  | .ok a w' => .ok a w'
  | .error status w' => .error status { w' with freed := some allocatedAddress }

def patchExcept {α : Type} (r : Except Status α) : Patch α :=
  match r with
  | .ok a => pure a
  | .error status => throw status

/-- What the two patchers have in common. `entry` leads to the function, `plan` to the first
write. -/
def patchStream {α : Type} (t : Target) (args : Arguments) (entry : Except Status (Addr × α))
    (plan : α → Addr → Addr → Except Status Plan) : Patch Unit := do
  let (addressToHook, context) ← patchExcept entry
  let allocatedAddress ← patchExcept (t.alloc addressToHook)
  cleanup allocatedAddress do
    let plan ← patchExcept (plan context addressToHook allocatedAddress)
    writePlan t args.originalFunctionPointer allocatedAddress plan

/-- `DianaHook_PatchStreamA64` up to the allocation. -/
def entryA64 (t : Target) (args : Arguments) : Except Status (Addr × Unit) := do
  if args.processorMode ≠ 8 ∨ args.addressToHook &&& 3 ≠ 0 then throw .error
  if args.options.dontFollowJumps then return (args.addressToHook, ())
  return (← followJumpsA64 t maxJumpsCount args.addressToHook, ())

/-- `DianaHook_PatchStreamA64` -/
def patchStreamA64 (decodeWord : Decoder) (t : Target) (args : Arguments) : Patch Unit :=
  patchStream t args (entryA64 t args) fun _ => planA64 decodeWord t args

/-- `DianaHook_PatchStreamA32` up to the allocation. -/
def entryA32 (tables : Tables) (t : Target) (thumb : Bool) (args : Arguments) :
    Except Status (Addr × ItState) := do
  if args.processorMode ≠ 4 then throw .error
  let addressToHook := args.addressToHook &&& ~~~(if thumb then 1 else 3)
  if args.options.dontFollowJumps then return (addressToHook, 0)
  followJumpsA32 tables t thumb maxJumpsCount 0 addressToHook

/-- `DianaHook_PatchStreamA32` -/
def patchStreamA32 (tables : Tables) (t : Target) (thumb : Bool) (args : Arguments) : Patch Unit :=
  patchStream t args (entryA32 tables t thumb args) (planA32 tables t thumb args)

/-! ## What a failure leaves -/

/-- The address is not in the block. -/
def Outside (allocatedAddress a : Addr) : Prop := allocationSize ≤ (a - allocatedAddress).toNat

/-- After a failure memory outside the block that was given back is as it was. -/
def Undoes (x : Patch Unit) (mem : Addr → Byte) : Prop :=
  ∀ status w, x { mem := mem } = .error status w →
    ∀ a, (∀ allocatedAddress, w.freed = some allocatedAddress → Outside allocatedAddress a) →
    w.mem a = mem a

/-- The bytes that were put outside the block are the ones that were there. -/
def WereThere (mem : Addr → Byte) (allocatedAddress : Addr) (put : Addr → Option Byte) : Prop :=
  ∀ a b, Outside allocatedAddress a → put a = some b → mem a = b

/-- What a failure of the pointer's write, or of the hook's, has put outside the block was there. -/
structure VisibleKept (t : Target) (originalFunctionPointer : Addr) (mem : Addr → Byte)
    (allocatedAddress : Addr) (plan : Plan) : Prop where
  pointer : originalFunctionPointer ≠ -1 → ¬ t.Accepts .pointer plan.originalPointer →
    WereThere mem allocatedAddress
    (putAt originalFunctionPointer (t.storedOf .pointer plan.originalPointer))
  /-- without a pointer only the hook's own bytes count -/
  hook : originalFunctionPointer = -1 → ¬ t.Accepts .hook plan.hook →
    WereThere mem allocatedAddress (putAt plan.addressToHook (t.storedOf .hook plan.hook))
  both : originalFunctionPointer ≠ -1 → t.Accepts .pointer plan.originalPointer →
    ¬ t.Accepts .hook plan.hook → WereThere mem allocatedAddress fun a =>
      (putAt plan.addressToHook (t.storedOf .hook plan.hook) a).or
        (putAt originalFunctionPointer plan.originalPointer a)

/-- The block gets all of its pieces. -/
def AcceptsBlock (t : Target) (plan : Plan) : Prop :=
  t.Accepts .literals plan.literals ∧ t.Accepts .stub plan.stub ∧ t.Accepts .moved plan.moved

/-! ### One write -/

section Write

variable {t : Target} {piece : Piece} {address : Addr} {bytes : List Byte} {w : World}

theorem storedOf_of_accepts (h : t.Accepts piece bytes) : t.storedOf piece bytes = bytes := by
  rw [Target.storedOf, h.2, List.take_length]

theorem write_of_accepts (h : t.Accepts piece bytes) :
    write t piece address bytes w = .ok () { w with mem := storeBytes w.mem address bytes } := by
  obtain ⟨hs, hn⟩ := id h
  simp only [write, modify_bind, hs, hn, storedOf_of_accepts h, ne_eq, not_true_eq_false, if_false]
  rfl

theorem write_of_not_accepts (address : Addr) (w : World) (h : ¬ t.Accepts piece bytes) :
    ∃ status, write t piece address bytes w =
      .error status { w with mem := storeBytes w.mem address (t.storedOf piece bytes) } := by
  cases hs : (t.write piece).status with
  | some status => exact ⟨status, by simp only [write, modify_bind, hs, throw_apply]⟩
  | none =>
    have hn : (t.write piece).stored ≠ bytes.length := fun hn => h ⟨hs, hn⟩
    exact ⟨.error, by
      simp only [write, modify_bind, hs, hn, ne_eq, not_false_eq_true, if_true, throw_apply]⟩

end Write

/-! ### The writes to the block -/

section Block

variable {t : Target} {allocatedAddress a : Addr} {plan : Plan} {w : World}

/-- Memory outside the block is the same. -/
def SameOutside (allocatedAddress : Addr) (w w' : World) : Prop :=
  w'.freed = w.freed ∧ ∀ a, Outside allocatedAddress a → w'.mem a = w.mem a

instance : Std.Refl (SameOutside allocatedAddress) := ⟨fun _ => ⟨rfl, fun _ _ => rfl⟩⟩

instance : IsTrans World (SameOutside allocatedAddress) :=
  ⟨fun _ _ _ h h' => ⟨h'.1.trans h.1, fun a ha => (h'.2 a ha).trans (h.2 a ha)⟩⟩

theorem storeBytes_outside {mem : Addr → Byte} {offset : Nat} {bytes : List Byte}
    (h : offset + bytes.length ≤ allocationSize) (ha : Outside allocatedAddress a) :
    storeBytes mem (allocatedAddress + BitVec.ofNat 64 offset) bytes a = mem a := by
  have hlen : bytes.length ≤ (a - (allocatedAddress + BitVec.ofNat 64 offset)).toNat := by
    have hsub : a - (allocatedAddress + BitVec.ofNat 64 offset) =
        (a - allocatedAddress) - BitVec.ofNat 64 offset := by
      rw [BitVec.sub_eq_add_neg, BitVec.neg_add, BitVec.sub_eq_add_neg a,
        BitVec.sub_eq_add_neg (a + _), BitVec.sub_eq_add_neg, ← BitVec.add_assoc]
    unfold Outside at ha
    unfold allocationSize at h ha
    have hx := (a - allocatedAddress).isLt
    rw [hsub, BitVec.toNat_sub, BitVec.toNat_ofNat]
    omega
  rw [storeBytes, putAt, List.getElem?_eq_none hlen, Option.getD_none]

theorem keeps_write {piece : Piece} {offset : Nat} {bytes : List Byte}
    (h : offset + bytes.length ≤ allocationSize) :
    Keeps (SameOutside allocatedAddress)
      (write t piece (allocatedAddress + BitVec.ofNat 64 offset) bytes) := by
  refine Keeps.bind (Keeps.modify fun w => ⟨rfl, fun a ha => storeBytes_outside ?_ ha⟩) fun _ => ?_
  · have := List.length_take_le' (t.write piece).stored bytes
    exact (Nat.add_le_add_left this offset).trans h
  · cases (t.write piece).status with
    | some status => exact Keeps.throw status
    | none => exact Keeps.ite (Keeps.throw _) (Keeps.pure _)

theorem keeps_writeBlock (t : Target) (allocatedAddress : Addr) (plan : Plan) :
    Keeps (SameOutside allocatedAddress) (writeBlock t allocatedAddress plan) := by
  have hmoved := plan.moved_le
  have hliterals := plan.literals_le
  unfold literalsOffset at hmoved
  refine Keeps.bind (keeps_write ?_) fun _ => Keeps.bind ?_ fun _ => keeps_write ?_
  · unfold literalsOffset allocationSize
    omega
  · have hstub : allocatedAddress = allocatedAddress + BitVec.ofNat 64 0 := by simp
    nth_rewrite 2 [hstub]
    refine keeps_write ?_
    unfold allocationSize
    omega
  · unfold allocationSize
    omega

theorem writeBlock_of_accepts (allocatedAddress : Addr) (w : World) (h : AcceptsBlock t plan) :
    ∃ w', writeBlock t allocatedAddress plan w = .ok () w' := by
  obtain ⟨hliterals, hstub, hmoved⟩ := h
  unfold writeBlock
  rw [bind_of_ok (write_of_accepts hliterals), bind_of_ok (write_of_accepts hstub),
    write_of_accepts hmoved]
  exact ⟨_, rfl⟩

theorem writeBlock_of_not_accepts (allocatedAddress : Addr) (w : World)
    (h : ¬ AcceptsBlock t plan) :
    ∃ status w', writeBlock t allocatedAddress plan w = .error status w' := by
  unfold writeBlock
  by_cases hliterals : t.Accepts .literals plan.literals
  · rw [bind_of_ok (write_of_accepts hliterals)]
    by_cases hstub : t.Accepts .stub plan.stub
    · rw [bind_of_ok (write_of_accepts hstub)]
      obtain ⟨status, hw⟩ := write_of_not_accepts _ _ fun hmoved => h ⟨hliterals, hstub, hmoved⟩
      exact ⟨status, _, hw⟩
    · obtain ⟨status, hw⟩ := write_of_not_accepts _ _ hstub
      exact ⟨status, _, bind_of_error hw⟩
  · obtain ⟨status, hw⟩ := write_of_not_accepts _ _ hliterals
    exact ⟨status, _, bind_of_error hw⟩

end Block

/-! ### The writes outside of it -/

section Visible

variable {t : Target} {originalFunctionPointer allocatedAddress : Addr} {plan : Plan} {w : World}
  {mem : Addr → Byte}

/-- A store over memory that is `mem` outside the block leaves `mem` there when its bytes were
there. -/
theorem store_eq_iff {mem' : Addr → Byte} {put : Addr → Option Byte}
    (h : ∀ a, Outside allocatedAddress a → mem' a = mem a) :
    (∀ a, Outside allocatedAddress a → (put a).getD (mem' a) = mem a) ↔
    WereThere mem allocatedAddress put := by
  constructor
  · intro hput a b ha hb
    have := hput a ha
    rw [hb] at this
    exact this.symm
  · intro hput a ha
    cases hb : put a with
    | none => exact h a ha
    | some b => exact (hput a b ha hb).symm

theorem getD_or {α : Type} (x y : Option α) (z : α) : x.getD (y.getD z) = (x.or y).getD z := by
  cases x <;> rfl

section Runs

variable (hp : originalFunctionPointer ≠ -1)

include hp

theorem writeVisible_pointer (hap : ¬ t.Accepts .pointer plan.originalPointer) :
    ∃ status, writeVisible t originalFunctionPointer plan w = .error status { w with
      mem := storeBytes w.mem originalFunctionPointer
        (t.storedOf .pointer plan.originalPointer) } := by
  obtain ⟨status, hw⟩ := write_of_not_accepts originalFunctionPointer w hap
  refine ⟨status, ?_⟩
  unfold writeVisible
  rw [if_pos hp]
  exact bind_of_error hw

theorem writeVisible_both (hap : t.Accepts .pointer plan.originalPointer)
    (hah : ¬ t.Accepts .hook plan.hook) :
    ∃ status, writeVisible t originalFunctionPointer plan w = .error status { w with
      mem := storeBytes (storeBytes w.mem originalFunctionPointer plan.originalPointer)
        plan.addressToHook (t.storedOf .hook plan.hook) } := by
  obtain ⟨status, hw⟩ := write_of_not_accepts plan.addressToHook
    { w with mem := storeBytes w.mem originalFunctionPointer plan.originalPointer } hah
  refine ⟨status, ?_⟩
  unfold writeVisible
  rw [if_pos hp]
  exact (bind_of_ok (write_of_accepts hap)).trans hw

end Runs

theorem writeVisible_hook (hp : originalFunctionPointer = -1) (hah : ¬ t.Accepts .hook plan.hook) :
    ∃ status, writeVisible t originalFunctionPointer plan w = .error status { w with
      mem := storeBytes w.mem plan.addressToHook (t.storedOf .hook plan.hook) } := by
  obtain ⟨status, hw⟩ := write_of_not_accepts plan.addressToHook w hah
  refine ⟨status, ?_⟩
  unfold writeVisible
  rw [if_neg (not_not.2 hp)]
  exact hw

theorem writeVisible_ok (hap : originalFunctionPointer ≠ -1 →
      t.Accepts .pointer plan.originalPointer)
    (hah : t.Accepts .hook plan.hook) :
    ∃ w', writeVisible t originalFunctionPointer plan w = .ok () w' := by
  unfold writeVisible
  by_cases hp : originalFunctionPointer ≠ -1
  · rw [if_pos hp]
    exact ⟨_, (bind_of_ok (write_of_accepts (hap hp))).trans (write_of_accepts hah)⟩
  · rw [if_neg hp]
    exact ⟨_, write_of_accepts hah⟩

/-- A run that fails, fails one way. -/
theorem forall_error_iff {x : Patch Unit} {status : Status} {w' : World}
    (hx : x w = .error status w') {P : World → Prop} :
    (∀ status w', x w = .error status w' → P w') ↔ P w' := by
  constructor
  · intro h
    exact h status w' hx
  · intro h status₂ w₂ h₂
    rw [hx] at h₂
    cases h₂
    exact h

/-- The failures of the writes outside the block, and what they leave there. -/
theorem writeVisible_iff (h : ∀ a, Outside allocatedAddress a → w.mem a = mem a) :
    (∀ status w', writeVisible t originalFunctionPointer plan w = .error status w' →
      ∀ a, Outside allocatedAddress a → w'.mem a = mem a) ↔
    VisibleKept t originalFunctionPointer mem allocatedAddress plan := by
  by_cases hp : originalFunctionPointer = -1
  · by_cases hah : t.Accepts .hook plan.hook
    · obtain ⟨w', hw⟩ := writeVisible_ok (w := w) (fun hn => absurd hp hn) hah
      refine iff_of_true (fun _ _ he => ?_)
        ⟨fun hn => absurd hp hn, fun _ hn => absurd hah hn, fun hn => absurd hp hn⟩
      rw [hw] at he
      cases he
    · obtain ⟨status, hw⟩ := writeVisible_hook (w := w) hp hah
      rw [forall_error_iff hw]
      refine (store_eq_iff h).trans ⟨fun hk => ?_, fun hk => hk.hook hp hah⟩
      exact ⟨fun hn => absurd hp hn, fun _ _ => hk, fun hn => absurd hp hn⟩
  · by_cases hap : t.Accepts .pointer plan.originalPointer
    · by_cases hah : t.Accepts .hook plan.hook
      · obtain ⟨w', hw⟩ := writeVisible_ok (w := w) (fun _ => hap) hah
        refine iff_of_true (fun _ _ he => ?_)
          ⟨fun _ hn => absurd hap hn, fun hn => absurd hn hp, fun _ _ hn => absurd hah hn⟩
        rw [hw] at he
        cases he
      · obtain ⟨status, hw⟩ := writeVisible_both (w := w) hp hap hah
        rw [forall_error_iff hw]
        simp only [storeBytes, getD_or]
        refine (store_eq_iff h).trans ⟨fun hk => ?_, fun hk => hk.both hp hap hah⟩
        exact ⟨fun _ hn => absurd hap hn, fun hn => absurd hn hp, fun _ _ _ => hk⟩
    · obtain ⟨status, hw⟩ := writeVisible_pointer (w := w) hp hap
      rw [forall_error_iff hw]
      refine (store_eq_iff h).trans ⟨fun hk => ?_, fun hk => hk.pointer hp hap⟩
      exact ⟨fun _ _ => hk, fun hn => absurd hn hp, fun _ hn => absurd hn hap⟩

end Visible

/-! ### The patchers -/

section Stream

variable {α : Type} {t : Target} {args : Arguments} {entry : Except Status (Addr × α)}
  {plan : α → Addr → Addr → Except Status Plan} {mem : Addr → Byte}

/-- Once the block has its pieces, the writes outside of it leave what was there. -/
def Kept (t : Target) (args : Arguments) (entry : Except Status (Addr × α))
    (plan : α → Addr → Addr → Except Status Plan) (mem : Addr → Byte) : Prop :=
  ∀ addressToHook context allocatedAddress p, entry = .ok (addressToHook, context) →
    t.alloc addressToHook = .ok allocatedAddress →
    plan context addressToHook allocatedAddress = .ok p →
    AcceptsBlock t p → VisibleKept t args.originalFunctionPointer mem allocatedAddress p

/-- A failure of the part behind the allocation, seen from outside of its block. -/
theorem cleanup_undoes_iff {allocatedAddress : Addr} {x : Patch Unit} :
    Undoes (cleanup allocatedAddress x) mem ↔
      ∀ status w, x { mem := mem } = .error status w → ∀ a,
      Outside allocatedAddress a → w.mem a = mem a := by
  unfold Undoes cleanup
  constructor
  · intro h status w hx a ha
    refine h status { w with freed := some allocatedAddress } ?_ a ?_
    · rw [hx]
    · rintro _ ⟨⟩
      exact ha
  · intro h status w hx a ha
    cases hw : x { mem := mem } with
    | ok _ _ =>
      rw [hw] at hx
      cases hx
    | error status' w' =>
      rw [hw] at hx
      cases hx
      exact h _ _ hw a (ha _ rfl)

theorem writePlan_undoes_iff {allocatedAddress : Addr} {p : Plan} :
    (∀ status w, writePlan t args.originalFunctionPointer allocatedAddress p { mem := mem } =
      .error status w → ∀ a, Outside allocatedAddress a → w.mem a = mem a) ↔
    (AcceptsBlock t p → VisibleKept t args.originalFunctionPointer mem allocatedAddress p) := by
  have hkeeps := keeps_writeBlock t allocatedAddress p { mem := mem }
  by_cases hb : AcceptsBlock t p
  · obtain ⟨w, hw⟩ := writeBlock_of_accepts allocatedAddress { mem := mem } hb
    have hrun : writePlan t args.originalFunctionPointer allocatedAddress p { mem := mem } =
        writeVisible t args.originalFunctionPointer p w := bind_of_ok hw
    rw [hrun, writeVisible_iff (hkeeps.ok hw).2]
    exact ⟨fun h _ => h, fun h => h hb⟩
  · obtain ⟨status, w, hw⟩ := writeBlock_of_not_accepts allocatedAddress { mem := mem } hb
    have hrun : writePlan t args.originalFunctionPointer allocatedAddress p { mem := mem } =
        .error status w :=
      bind_of_error hw
    rw [forall_error_iff hrun]
    exact iff_of_true (hkeeps.error hw).2 fun h => absurd h hb

/-- A patcher that fails before its allocation has written nothing. -/
theorem undoes_of_error {x : Patch Unit} {status : Status}
    (h : x { mem := mem } = .error status { mem := mem }) : Undoes x mem := by
  intro status' w hx a _
  rw [h] at hx
  cases hx
  rfl

theorem patchStream_undoes_iff :
    Undoes (patchStream t args entry plan) mem ↔ Kept t args entry plan mem := by
  cases hentry : entry with
  | error status =>
    have hrun : patchStream t args (.error status) plan { mem := mem } =
        .error status { mem := mem } := rfl
    refine iff_of_true (undoes_of_error hrun) ?_
    rintro _ _ _ _ ⟨⟩
  | ok r =>
    obtain ⟨addressToHook, context⟩ := r
    have hrun : patchStream t args (.ok (addressToHook, context)) plan =
        patchExcept (t.alloc addressToHook) >>= fun allocatedAddress =>
          cleanup allocatedAddress (patchExcept
            (plan context addressToHook allocatedAddress) >>= fun p =>
            writePlan t args.originalFunctionPointer allocatedAddress p) := rfl
    rw [hrun]
    cases halloc : t.alloc addressToHook with
    | error status =>
      have hfail : (patchExcept (.error status) >>= fun allocatedAddress =>
          cleanup allocatedAddress (patchExcept
            (plan context addressToHook allocatedAddress) >>= fun p =>
            writePlan t args.originalFunctionPointer allocatedAddress p)) { mem := mem } =
          .error status { mem := mem } := rfl
      refine iff_of_true (undoes_of_error hfail) ?_
      rintro _ _ _ _ ⟨⟩ h
      rw [halloc] at h
      cases h
    | ok allocatedAddress =>
      refine (cleanup_undoes_iff
        (x := patchExcept (plan context addressToHook allocatedAddress) >>= fun p =>
        writePlan t args.originalFunctionPointer allocatedAddress p)).trans ?_
      cases hplan : plan context addressToHook allocatedAddress with
      | error status =>
        refine iff_of_true ?_ ?_
        · rintro _ _ ⟨⟩ _ _
          rfl
        · rintro _ _ _ _ ⟨⟩ h hp
          rw [halloc] at h
          cases h
          rw [hplan] at hp
          cases hp
      | ok p =>
        refine (writePlan_undoes_iff (p := p)).trans ⟨?_, fun h => h _ _ _ _ rfl halloc hplan⟩
        rintro h _ _ _ _ ⟨⟩ ha hp
        rw [halloc] at ha
        cases ha
        rw [hplan] at hp
        cases hp
        exact h

end Stream

/-- A failed patch changes nothing outside its block exactly when the writes outside of it, once
they are reached, leave what was there. -/
theorem undoes_iff (decodeWord : Decoder) (tables : Tables) (t : Target) (args : Arguments)
    (mem : Addr → Byte) : (Undoes (patchStreamA64 decodeWord t args) mem ↔
      Kept t args (entryA64 t args) (fun _ => planA64 decodeWord t args) mem) ∧
    ∀ thumb, (Undoes (patchStreamA32 tables t thumb args) mem ↔
      Kept t args (entryA32 tables t thumb args) (planA32 tables t thumb args) mem) :=
  ⟨patchStream_undoes_iff, fun _ => patchStream_undoes_iff⟩

/-- A function of nops, on a page that cannot be written. -/
def readOnly : Target where
  read _ size := .ok ((putWord 0xD503201F).take size)
  alloc _ := .ok 0x10000
  write
    | .literals => { stored := 16 }
    | .stub => { stored := 124 }
    | .moved => { stored := 8 }
    | .pointer => { stored := 8 }
    | .hook => { stored := 0, status := some .error }

/-- What a failed run has at an address, and the block it gave back. -/
def failedAt (a : Addr) : EStateM.Result Status World Unit → Option (Byte × Option Addr)
  | .ok _ _ => none
  | .error _ w => some (w.mem a, w.freed)

theorem not_undoes_of_failedAt {x : Patch Unit} {mem : Addr → Byte}
    {a allocatedAddress : Addr} {b : Byte}
    (h : failedAt a (x { mem := mem }) = some (b, some allocatedAddress))
    (ha : Outside allocatedAddress a) (hb : mem a ≠ b) : ¬ Undoes x mem := by
  intro hx
  cases hw : x { mem := mem } with
  | ok _ _ =>
    rw [hw] at h
    cases h
  | error status w =>
    rw [hw] at h
    obtain ⟨hmem, hfreed⟩ := Prod.mk.inj (Option.some.inj h)
    refine hb (hmem ▸ (hx status w hw a ?_).symm)
    intro base hbase
    rw [hfreed] at hbase
    exact Option.some.inj hbase ▸ ha

/-- The hook cannot be written, and the caller's pointer leads into the block that was given
back. -/
theorem not_undoes_readOnly :
    ¬ Undoes (patchStreamA64 (fun _ => .ok ⟨false, []⟩) readOnly
      { processorMode := 8, addressToHook := 0x40000, hookFunction := 0x50000,
        originalFunctionPointer := 0x9000 })
      (fun _ => 0) := by
  have hrun : failedAt 0x9000 (patchStreamA64 (fun _ => .ok ⟨false, []⟩) readOnly
      { processorMode := 8, addressToHook := 0x40000, hookFunction := 0x50000,
        originalFunctionPointer := 0x9000 }
      { mem := fun _ => 0 }) = some (0x7C, some 0x10000) := by
    decide +kernel
  refine not_undoes_of_failedAt hrun ?_ (by decide)
  unfold Outside
  decide

end Diana.Patcher.Arm
