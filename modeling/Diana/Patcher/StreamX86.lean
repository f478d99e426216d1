import Diana.Patcher.MoveX86

/-!
# Patching an x86 function

`DianaHook_PatchStream64` and `DianaHook_PatchStream32` up to their first write: which code they
move to the trampoline, how the trampoline goes back and how the function goes to the trampoline.

* `moveCommands`: the loop over the commands the hook overwrites;
* `plan64`: the jumps of the 64-bit patcher, `nearJumps_iff` those of its near jumps that arrive;
* `plan32`: the function the 32-bit patcher hooks, `follows_iff` when it is the one
  its entry jumps lead to.
-/

namespace Diana.Patcher.X86

open Diana.A64

/-! ## The target -/

/-- `DianaParserResult`, with what `DianaHook_PatchStream32` looks at besides: whether the
command is `diana_cmd_jmp`, `usedSize` of the first operand, and its `value.rel.m_value`,
whatever the operand is. -/
structure Parsed extends ParserResult where
  isJmp : Bool
  usedSize : Nat
  relField : BitVec 64
  deriving DecidableEq, Repr

/-- The relative instructions: `jmp` is E9 and EB; the operand of EB has one byte. -/
def parsedRel (r : ParserResult) : Parsed where
  toParserResult := r
  isJmp := r.info.opcode = [0xE9] ∨ r.info.opcode = [0xEB]
  usedSize := if r.info.opcode = [0xEB] then 1 else r.operandSize
  relField := relValue r

/-- The target memory, and the decoder on the instructions without a relative operand. -/
structure Target where
  moveTo : Addr → Except Status Unit
  /-- what can be read from an address on -/
  bytes : Addr → List Byte
  decode : Mode → List Byte → Except Status Parsed

/-- `Diana_ParseCmd`, with the stream at an address. -/
def Target.parse (t : Target) (mode : Mode) (address : Addr) : Except Status Parsed :=
  match parseRel mode (t.bytes address) with
  | some r => .ok (parsedRel r)
  | none => t.decode mode (t.bytes address)

/-- The flags of `DianaHook_CustomOptions`; without options none is set. -/
structure Options where
  putFarJmp : Bool := false
  dontFollowJumps : Bool := false
  putNearJmp : Bool := false
  testSinglePush : Bool := false
  deriving DecidableEq, Repr

/-- A result that the message has no part in. -/
def liftExcept {α : Type} (r : Except Status α) : Hook α := ExceptT.mk (pure r)

/-- The turns of a loop that takes a piece of metainfo in each: the last one finds none left. -/
def maxCommands : Nat := workBufferSizeMeta / 4 + 1

/-- The loop of `DianaHook_CommonMove64` over the commands at `addressToHook`: the bytes moved and
the bytes emitted for them. -/
def moveCommands (t : Target) (addressToHook movedAddress : Addr) (size : Nat) :
    Nat → Nat → Nat → Bool → Hook (Nat × Nat)
  | 0, _, _, _ => throw .error
  | fuel + 1, src, dest, prevWasRet =>
    if src < size then
      if prevWasRet then throw .ended
      else do
        let address := addressToHook + BitVec.ofNat 64 src
        let r ← liftExcept (t.parse .mode64 address)
        let moved ← analyzeCommand r.toParserResult (t.bytes address) address
          (movedAddress + BitVec.ofNat 64 dest)
        moveCommands t addressToHook movedAddress size fuel (src + r.fullCmdSize)
          (dest + moved.1) moved.2
    else return (src, dest)

/-! ## Jumps -/

/-- `DianaHook_Diff` -/
def diff (op1 op2 : Addr) : Nat :=
  if op1.toNat > op2.toNat then op1.toNat - op2.toNat else op2.toNat - op1.toNat

/-- `g_farJump` with its target: `jmp qword ptr [rip]` -/
def farJump (target : Addr) : List Byte := [0xFF, 0x25, 0, 0, 0, 0] ++ putQword target

/-- `g_pushRet` with its target -/
def pushRet (target : Addr) : List Byte := 0x68 :: putWord (target.setWidth 32) ++ [0xC3]

/-- What `DianaHook_AddTailJump` emits. -/
def tailJump (jmpCommandAddress jmpTargetAddress : Addr) : List Byte :=
  if diff jmpCommandAddress jmpTargetAddress ≤ 0x7FFFFFFF then
    0xE9 :: putWord (jmpTargetAddress.setWidth 32 - jmpCommandAddress.setWidth 32 - 5)
  else farJump jmpTargetAddress

/-- How the function goes to the trampoline. -/
inductive Strategy where
  /-- `DianaHook_PatchWithNearTrampoline` -/
  | near
  /-- `DianaHook_PatchWithFarCall` -/
  | far
  /-- `DianaHook_PatchWithSinglePushRet` -/
  | pushRet
  deriving DecidableEq, Repr

/-- The bytes the hook needs. -/
def Strategy.size : Strategy → Nat
  | .near => 5
  | .far => 14
  | .pushRet => 6

/-- The choice `DianaHook_PatchStream64` makes. -/
def chooseStrategy (options : Options) (allocatedAddress addressToHook : Addr) : Strategy :=
  if options.putFarJmp then .far
  else if options.putNearJmp ∧ diff allocatedAddress addressToHook < 0x7FFFFFFF then .near
  else if diff allocatedAddress addressToHook > 0x7FFFFFFF ∨ options.testSinglePush then
    if allocatedAddress.toNat ≤ 0x7FFFFFFF then .pushRet else .far
  else .near

/-- The hook `DianaHook_PatchSequence64_Near`, `_Far` and `_PushRet` write. -/
def hookCode (allocatedAddress addressToHook : Addr) : Strategy → List Byte
  | .near => 0xE9 :: putWord ((allocatedAddress - addressToHook - 5).setWidth 32)
  | .far => farJump allocatedAddress
  | .pushRet => pushRet allocatedAddress

/-- The size of `g_stubData` of the 64-bit patcher. -/
def stubSize64 : Nat := 64

/-- A jump: where it stands, where it is to go, and its bytes. -/
structure Jump where
  address : Addr
  target : Addr
  code : List Byte
  deriving DecidableEq, Repr

/-- What the 64-bit patcher has made when it begins to write. -/
structure Plan64 where
  src : Nat
  hook : Jump
  tail : Jump
  deriving DecidableEq, Repr

/-- `DianaHook_PatchStream64` with the block it was given at `allocatedAddress`, up to its first
write. -/
def plan64 (t : Target) (options : Options) (allocatedAddress addressToHook : Addr) :
    Hook Plan64 := do
  let strategy := chooseStrategy options allocatedAddress addressToHook
  liftExcept (t.moveTo addressToHook)
  let movedAddress := allocatedAddress + BitVec.ofNat 64 stubSize64
  let (src, dest) ← moveCommands t addressToHook movedAddress strategy.size maxCommands 0 0 false
  let tail : Jump :=
    { address := movedAddress + BitVec.ofNat 64 dest
      target := addressToHook + BitVec.ofNat 64 src
      code := tailJump (movedAddress + BitVec.ofNat 64 dest) (addressToHook + BitVec.ofNat 64 src) }
  emit (allocateCmd tail.code)
  return { src, tail, hook := ⟨addressToHook, allocatedAddress,
    hookCode allocatedAddress addressToHook strategy⟩ }

/-! ## Near jumps -/

namespace Jump

/-- A 5-byte `jmp rel32`. -/
def isNear (j : Jump) : Prop := j.code.length = 5 ∧ j.code.head? = some 0xE9

/-- Its displacement. -/
def displacement (j : Jump) : Word := BitVec.ofNat 32 (fieldValue (j.code.drop 1))

/-- The displacement, sign-extended and added to the address after the jump, gives the target. -/
def arrives (j : Jump) : Prop := j.address + 5 + j.displacement.signExtend 64 = j.target

end Jump

/-- A jump back over at least 2^31 - 4 bytes, which the near check still lets pass: with the five
bytes of the jump itself the distance has no 32-bit displacement. -/
def OutOfReach (address target : Addr) : Prop :=
  2 ^ 31 - 5 < address.toNat - target.toNat ∧ address.toNat - target.toNat ≤ 2 ^ 31 - 1

instance (address target : Addr) : Decidable (OutOfReach address target) := instDecidableAnd

/-- The 5-byte jump with the displacement the patcher computes. -/
def shortDistance (address target : Addr) : Jump :=
  ⟨address, target, 0xE9 :: putWord ((target - address - 5).setWidth 32)⟩

theorem displacement_shortDistance (address target : Addr) :
    (shortDistance address target).displacement = (target - address - 5).setWidth 32 := by
  rw [Jump.displacement, shortDistance, List.drop_succ_cons, List.drop_zero, fieldValue_putWord,
    BitVec.ofNat_toNat, BitVec.setWidth_eq]

theorem arrives_shortDistance (address target : Addr) :
    (shortDistance address target).arrives ↔
      -2 ^ 31 ≤ (target - address - 5).toInt ∧ (target - address - 5).toInt < 2 ^ 31 := by
  rw [Jump.arrives, displacement_shortDistance, ← signExtend_setWidth_iff]
  constructor
  · intro h
    have h' : address + 5 + ((target - address - 5).setWidth 32).signExtend 64 = target := h
    linear_combination h'
  · intro h
    show address + 5 + ((target - address - 5).setWidth 32).signExtend 64 = target
    rw [h]
    ring

/-- The distance of a near jump as a number. -/
theorem toInt_distance {address target : Addr} (h : diff address target ≤ 0x7FFFFFFF) :
    (target - address - 5).toInt = (target.toNat : Int) - address.toNat - 5 := by
  have ha := address.isLt
  have ht := target.isLt
  have hv : target - address - 5 =
      BitVec.ofInt 64 ((target.toNat : Int) - (address.toNat : Int) - 5) := by
    have h5 : BitVec.ofInt 64 (-5) = -5 := by decide
    rw [sub_eq_add_neg (target.toNat - address.toNat : Int), sub_eq_add_neg (target.toNat : Int),
      BitVec.ofInt_add, BitVec.ofInt_add, BitVec.ofInt_neg, BitVec.ofInt_natCast,
      BitVec.ofInt_natCast, BitVec.ofNat_toNat, BitVec.ofNat_toNat, BitVec.setWidth_eq,
      BitVec.setWidth_eq, h5]
    ring
  rw [diff] at h
  rw [hv, BitVec.toInt_ofInt_eq_self (by decide)]
  · split at h <;> omega
  · split at h <;> omega

/-- A near jump arrives unless it goes back too far. -/
theorem arrives_iff {address target : Addr} (h : diff address target ≤ 0x7FFFFFFF) :
    (shortDistance address target).arrives ↔ ¬ OutOfReach address target := by
  rw [arrives_shortDistance, toInt_distance h, OutOfReach]
  rw [diff] at h
  split at h <;> omega

theorem diff_le_of_outOfReach {address target : Addr} (h : OutOfReach address target) :
    diff address target ≤ 0x7FFFFFFF := by
  rw [OutOfReach] at h
  rw [diff, if_pos (by omega)]
  omega

theorem farJump_not_near (target address : Addr) :
    ¬ (⟨address, target, farJump target⟩ : Jump).isNear := by
  rintro ⟨h, -⟩
  cases h

/-- The jump at the end of the trampoline. -/
theorem tailJump_arrives_iff (address target : Addr) :
    ((⟨address, target, tailJump address target⟩ : Jump).isNear →
      (⟨address, target, tailJump address target⟩ : Jump).arrives) ↔
      ¬ OutOfReach address target := by
  rw [tailJump]
  by_cases h : diff address target ≤ 0x7FFFFFFF
  · have hcode : target.setWidth 32 - address.setWidth 32 - 5 =
        (target - address - 5).setWidth 32 := by
      have hx : target = (target - address - 5) + address + 5 := by ring
      have h32 := congrArg (BitVec.setWidth 32) hx
      rw [BitVec.setWidth_add _ _ (by decide), BitVec.setWidth_add _ _ (by decide),
        show BitVec.setWidth 32 (5 : Addr) = 5 from rfl] at h32
      linear_combination h32
    rw [if_pos h, hcode]
    exact ⟨fun hj => (arrives_iff h).1 (hj ⟨rfl, rfl⟩), fun hr _ => (arrives_iff h).2 hr⟩
  · rw [if_neg h]
    exact ⟨fun _ hr => h (diff_le_of_outOfReach hr), fun _ hn => absurd hn (farJump_not_near _ _)⟩

theorem diff_comm (a b : Addr) : diff a b = diff b a := by
  unfold diff
  split <;> split <;> omega

/-- The jump at the start of the function. -/
theorem hookCode_arrives_iff (options : Options) (allocatedAddress addressToHook : Addr) :
    ((⟨addressToHook, allocatedAddress, hookCode allocatedAddress addressToHook
        (chooseStrategy options allocatedAddress addressToHook)⟩ : Jump).isNear →
      (⟨addressToHook, allocatedAddress, hookCode allocatedAddress addressToHook
        (chooseStrategy options allocatedAddress addressToHook)⟩ : Jump).arrives) ↔
      (chooseStrategy options allocatedAddress addressToHook = .near →
        ¬ OutOfReach addressToHook allocatedAddress) := by
  cases hs : chooseStrategy options allocatedAddress addressToHook with
  | near =>
    have hd : diff addressToHook allocatedAddress ≤ 0x7FFFFFFF := by
      rw [diff_comm]
      unfold chooseStrategy at hs
      split at hs
      · cases hs
      · split at hs
        · omega
        · split at hs
          · split at hs <;> cases hs
          · omega
    exact ⟨fun hj _ => (arrives_iff hd).1 (hj ⟨rfl, rfl⟩), fun hr _ => (arrives_iff hd).2 (hr rfl)⟩
  | far => exact ⟨fun _ h => (nomatch h), fun _ hn => absurd hn (farJump_not_near _ _)⟩
  | pushRet => exact ⟨fun _ h => (nomatch h), fun _ hn => (nomatch hn.1)⟩

/-! ## The whole plan -/

theorem liftExcept_ok {α : Type} {r : Except Status α} {m m' : HookMessage} {a : α}
    (h : liftExcept r m = (.ok a, m')) : r = .ok a ∧ m' = m := by
  cases r with
  | error c => cases h
  | ok b =>
    cases h
    exact ⟨rfl, rfl⟩

theorem emit_allocateCmd_ok {bytes : List Byte} {m m' : HookMessage} {u : Unit}
    (h : emit (allocateCmd bytes) m = (.ok u, m')) :
    m'.workBufferRaw = m.workBufferRaw ++ bytes := by
  unfold emit at h
  cases hcmd : allocateCmd bytes m.toMessage with
  | mk st m₁ =>
    rw [hcmd] at h
    cases h
    obtain ⟨bs, hraw, rfl⟩ := emitsSat_allocateCmd bytes _ _ _ hcmd
    exact hraw

/-- A command takes as many bytes in the trampoline as in the function. The induction is on the
turns. -/
theorem moveCommands_sizes {t : Target} {addressToHook movedAddress : Addr}
    {size fuel src dest : Nat} {prevWasRet : Bool} {m m' : HookMessage} {res : Nat × Nat}
    (h : moveCommands t addressToHook movedAddress size fuel src dest prevWasRet m =
      (.ok res, m')) :
    res.1 + dest = src + res.2 := by
  induction fuel generalizing src dest prevWasRet m with
  | zero => cases h
  | succ fuel ih =>
    rw [moveCommands] at h
    split at h
    · split at h
      · cases h
      · obtain ⟨r, m₁, hr, h⟩ := Hook.bind_ok h
        obtain ⟨moved, m₂, hmoved, h⟩ := Hook.bind_ok h
        obtain ⟨copy, -, -, rfl⟩ := analyzeCommand_ok hmoved
        have := ih h
        dsimp only at this
        omega
    · cases h
      omega

/-- The jumps of a plan, and the tail jump as the last thing emitted. -/
theorem plan64_ok {t : Target} {options : Options} {allocatedAddress addressToHook : Addr}
    {m m' : HookMessage} {p : Plan64}
    (h : plan64 t options allocatedAddress addressToHook m = (.ok p, m')) :
    p.hook = ⟨addressToHook, allocatedAddress, hookCode allocatedAddress addressToHook
        (chooseStrategy options allocatedAddress addressToHook)⟩ ∧
      p.tail = ⟨allocatedAddress + BitVec.ofNat 64 stubSize64 + BitVec.ofNat 64 p.src,
        addressToHook + BitVec.ofNat 64 p.src,
        tailJump (allocatedAddress + BitVec.ofNat 64 stubSize64 + BitVec.ofNat 64 p.src)
          (addressToHook + BitVec.ofNat 64 p.src)⟩ ∧
      ∃ moved, m'.workBufferRaw = moved ++ p.tail.code := by
  obtain ⟨-, m₁, -, h⟩ := Hook.bind_ok h
  obtain ⟨⟨src, dest⟩, m₂, hmove, h⟩ := Hook.bind_ok h
  obtain ⟨u, m₃, hemit, h⟩ := Hook.bind_ok h
  have hsize : src + 0 = 0 + dest := moveCommands_sizes hmove
  obtain rfl : src = dest := by omega
  cases h
  exact ⟨rfl, rfl, _, emit_allocateCmd_ok hemit⟩

/-- Every near jump the 64-bit patcher chooses arrives exactly when neither of its two jumps goes
back too far. -/
theorem nearJumps_iff (t : Target) (options : Options) (allocatedAddress addressToHook : Addr)
    (m m' : HookMessage) (p : Plan64)
    (h : plan64 t options allocatedAddress addressToHook m = (.ok p, m')) :
    (∀ j ∈ [p.hook, p.tail], j.isNear → j.arrives) ↔
      (chooseStrategy options allocatedAddress addressToHook = .near →
        ¬ OutOfReach addressToHook allocatedAddress) ∧
      ¬ OutOfReach (allocatedAddress + BitVec.ofNat 64 stubSize64 + BitVec.ofNat 64 p.src)
        (addressToHook + BitVec.ofNat 64 p.src) := by
  obtain ⟨hhook, htail, -⟩ := plan64_ok h
  rw [List.forall_mem_cons, List.forall_mem_singleton, hhook, htail, hookCode_arrives_iff,
    tailJump_arrives_iff]

/-- Five `nop`, the message of a fresh call. -/
def nops : Target where
  moveTo _ := .ok ()
  bytes _ := [0x90, 0x90, 0x90, 0x90, 0x90]
  decode _ _ := .ok ⟨⟨⟨[0x90], none⟩, 1, 4, []⟩, false, 0, 0⟩

def freshMessage : HookMessage := ⟨emptyMessage, 0, by decide⟩

/-- A function a little more than 2 GB above its trampoline. -/
theorem nearJumps_nops : ∃ p m', plan64 nops {} 0x10000 0x80000000 freshMessage = (.ok p, m') ∧
    ∀ j ∈ [p.hook, p.tail], j.isNear → j.arrives := by
  refine ⟨_, _, rfl, ?_⟩
  rw [nearJumps_iff nops {} 0x10000 0x80000000 freshMessage _ _ rfl]
  decide

/-- Of a function 2^31 - 4 bytes above its trampoline the hook goes 2^32 bytes too far. -/
theorem hook_misses : ¬ ∀ p m',
    plan64 nops {} 0x10000 (0x10000 + 0x7FFFFFFC) freshMessage = (.ok p, m') →
    ∀ j ∈ [p.hook, p.tail], j.isNear → j.arrives := by
  intro h
  have hj : (shortDistance (0x10000 + 0x7FFFFFFC) 0x10000).arrives :=
    h _ _ rfl _ List.mem_cons_self ⟨rfl, rfl⟩
  exact (arrives_iff (by decide)).1 hj (by decide)

/-! ## The entry jumps of a 32-bit function -/

/-- `DIANA_HOOK_MAX_JUMPS_COUNT` -/
def maxJumpsCount : Nat := 20

/-- The size of `g_stubData` of the 32-bit patcher. -/
def stubSize32 : Nat := 22

/-- `DIANA_HOOK_TRAMPOLINE_SIZE_IN_BYTES` -/
def trampolineSize32 : Nat := 5

/-- The first command is a jump `DianaHook_PatchStream32` follows: one operand, of four bytes. -/
def Parsed.followed (r : Parsed) : Bool :=
  r.isJmp && r.linkedOperands.length == 1 && r.usedSize == 4

/-- What the 32-bit patcher has made when it begins to write: the address it hooks, and where the
stream stood when the first command of the function was parsed. -/
structure Plan32 where
  addressToHook : Addr
  parsedAt : Addr
  deriving DecidableEq, Repr

/-- The loop of `DianaHook_PatchStream32` behind the first command: the stream is at `position`, the
commands are copied from `addressToHook`. -/
def moveRest32 (t : Target) (addressToHook movedAddress : Addr) :
    Nat → Addr → Nat → Nat → Bool → Hook (Nat × Nat)
  | 0, _, _, _, _ => throw .error
  | fuel + 1, position, src, dest, prevWasRet =>
    if src < trampolineSize32 then
      if prevWasRet then throw .ended
      else do
        let r ← liftExcept (t.parse .mode32 position)
        let address := addressToHook + BitVec.ofNat 64 src
        let moved ← analyzeCommand r.toParserResult (t.bytes address) address
          (movedAddress + BitVec.ofNat 64 dest)
        moveRest32 t addressToHook movedAddress fuel (position + BitVec.ofNat 64 r.fullCmdSize)
          (src + r.fullCmdSize) (dest + moved.1) moved.2
    else return (src, dest)

/-- The loop while nothing has been moved yet. A jump that is followed changes the address to hook
and leaves the stream where it is, behind the jump. -/
def followJumps32 (t : Target) (options : Options) (movedAddress : Addr) :
    Nat → Addr → Addr → Hook (Plan32 × Nat × Nat)
  | jumpsLeft, addressToHook, position => do
    let r ← liftExcept (t.parse .mode32 position)
    let next := position + BitVec.ofNat 64 r.fullCmdSize
    if r.isJmp then
      match jumpsLeft with
      | 0 => throw .errorNotImplemented
      | jumpsLeft + 1 =>
        if r.followed && !options.dontFollowJumps then
          followJumps32 t options movedAddress jumpsLeft
            (addressToHook - r.relField + BitVec.ofNat 64 r.fullCmdSize) next
        else throw .errorNotImplemented
    else do
      let moved ← analyzeCommand r.toParserResult (t.bytes addressToHook) addressToHook movedAddress
      let sizes ← moveRest32 t addressToHook movedAddress (maxCommands - 1) next r.fullCmdSize
        moved.1 moved.2
      return (⟨addressToHook, position⟩, sizes)

/-- `DianaHook_PatchStream32` with the block it was given at `allocatedAddress`, up to its first
write. -/
def plan32 (t : Target) (options : Options) (allocatedAddress addressToHook : Addr) :
    Hook Plan32 := do
  liftExcept (t.moveTo addressToHook)
  let movedAddress := allocatedAddress + BitVec.ofNat 64 stubSize32
  let (plan, src, dest) ← followJumps32 t options movedAddress maxJumpsCount addressToHook
    addressToHook
  let jmpCommandAddress := movedAddress + BitVec.ofNat 64 dest
  let jmpTargetAddress := plan.addressToHook + BitVec.ofNat 64 src
  emit
    (allocateCmd (0xE9 :: putWord
      (jmpTargetAddress.setWidth 32 - jmpCommandAddress.setWidth 32 - 5)))
  return plan

/-- The displacement of a `jmp rel32`. -/
def jmpRel32 : List Byte → Option Word
  | op :: a :: b :: c :: d :: _ =>
    if op = 0xE9 then some (BitVec.ofNat 32 (fieldValue [a, b, c, d])) else none
  | _ => none

/-- The chain of `jmp rel32` at an address of the 32-bit address space leads to another. -/
inductive LeadsTo (t : Target) : Addr → Addr → Prop where
  | arrived {a : Addr} : jmpRel32 (t.bytes a) = none → LeadsTo t a a
  | jump {a e : Addr} {d : Word} : jmpRel32 (t.bytes a) = some d →
      LeadsTo t (((a + 5 + d.signExtend 64).setWidth 32).setWidth 64) e → LeadsTo t a e

/-- The commands from an address on, one behind the other, that the patcher follows. -/
def followedRun (t : Target) : Nat → Addr → List Parsed
  | 0, _ => []
  | n + 1, position =>
    match t.parse .mode32 position with
    | .ok r =>
      if r.followed then r :: followedRun t n (position + BitVec.ofNat 64 r.fullCmdSize) else []
    | .error _ => []

/-- Their size. -/
def runSize (run : List Parsed) : Addr := (run.map fun r => BitVec.ofNat 64 r.fullCmdSize).sum

/-- The sum of their displacements. -/
def runDisplacement (run : List Parsed) : Addr := (run.map Parsed.relField).sum

/-- What the loop over the entry jumps comes to. The induction is on the jumps it may still
follow. -/
theorem followJumps32_ok {t : Target} {options : Options}
    {movedAddress addressToHook position : Addr} {n : Nat} {m m' : HookMessage}
    {res : Plan32 × Nat × Nat}
    (h : followJumps32 t options movedAddress n addressToHook position m = (.ok res, m')) :
    res.1.addressToHook = addressToHook - runDisplacement (followedRun t n position) +
        runSize (followedRun t n position) ∧
      res.1.parsedAt = position + runSize (followedRun t n position) := by
  induction n generalizing addressToHook position m with
  | zero =>
    rw [followJumps32] at h
    obtain ⟨r, m₁, -, h⟩ := Hook.bind_ok h
    dsimp only at h
    split at h
    · cases h
    · obtain ⟨moved, m₂, -, h⟩ := Hook.bind_ok h
      obtain ⟨sizes, m₃, -, h⟩ := Hook.bind_ok h
      cases h
      simp [followedRun, runSize, runDisplacement]
  | succ n ih =>
    rw [followJumps32] at h
    obtain ⟨r, m₁, hr, hrest⟩ := Hook.bind_ok h
    obtain ⟨hparse, -⟩ := liftExcept_ok hr
    dsimp only at hrest
    rw [followedRun, hparse]
    dsimp only
    split at hrest
    · split at hrest
      · next hfollow =>
        rw [Bool.and_eq_true] at hfollow
        obtain ⟨h1, h2⟩ := ih hrest
        rw [if_pos hfollow.1, h1, h2]
        simp only [runSize, runDisplacement, List.map_cons, List.sum_cons]
        exact ⟨by ring, by ring⟩
      · cases hrest
    · next hjmp =>
      obtain ⟨moved, m₂, -, hrest⟩ := Hook.bind_ok hrest
      obtain ⟨sizes, m₃, -, hrest⟩ := Hook.bind_ok hrest
      cases hrest
      have hfollow : r.followed = false := by simp [Parsed.followed, hjmp]
      simp [hfollow, runSize, runDisplacement]

theorem plan32_ok {t : Target} {options : Options} {allocatedAddress addressToHook : Addr}
    {m m' : HookMessage} {p : Plan32}
    (h : plan32 t options allocatedAddress addressToHook m = (.ok p, m')) :
    p.addressToHook = addressToHook - runDisplacement (followedRun t maxJumpsCount addressToHook) +
        runSize (followedRun t maxJumpsCount addressToHook) ∧
      p.parsedAt = addressToHook + runSize (followedRun t maxJumpsCount addressToHook) := by
  obtain ⟨-, m₁, -, h⟩ := Hook.bind_ok h
  obtain ⟨⟨plan, src, dest⟩, m₂, hfollow, h⟩ := Hook.bind_ok h
  obtain ⟨u, m₃, -, h⟩ := Hook.bind_ok h
  cases h
  exact followJumps32_ok hfollow

/-- The 32-bit patcher hooks the function the entry jumps lead to, and looks at its code,
exactly when that function stands right behind the jumps it follows and their
displacements add up to nothing. -/
theorem follows_iff (t : Target) (options : Options)
    (allocatedAddress addressToHook function : Addr) (m m' : HookMessage) (p : Plan32)
    (_hleads : LeadsTo t addressToHook function)
    (h : plan32 t options allocatedAddress addressToHook m = (.ok p, m')) :
    (p.addressToHook = function ∧ p.parsedAt = function) ↔
      addressToHook + runSize (followedRun t maxJumpsCount addressToHook) = function ∧
        runDisplacement (followedRun t maxJumpsCount addressToHook) = 0 := by
  obtain ⟨h1, h2⟩ := plan32_ok h
  rw [h1, h2]
  generalize runSize (followedRun t maxJumpsCount addressToHook) = size
  generalize runDisplacement (followedRun t maxJumpsCount addressToHook) = displacement
  constructor
  · rintro ⟨ha, hb⟩
    exact ⟨hb, by linear_combination hb - ha⟩
  · rintro ⟨ha, hb⟩
    exact ⟨by linear_combination ha - hb, ha⟩

/-- A `jmp` at 0x1000 over `gap` bytes, `nop` everywhere else. -/
def jumpOver (gap : Byte) : Target where
  moveTo _ := .ok ()
  bytes a := if a = 0x1000 then [0xE9, gap, 0, 0, 0] else [0x90]
  decode _ _ := .ok ⟨⟨⟨[0x90], none⟩, 1, 4, []⟩, false, 0, 0⟩

/-- A jump to the next instruction. -/
theorem follows_next : LeadsTo (jumpOver 0) 0x1000 0x1005 ∧
    ∃ p m', plan32 (jumpOver 0) {} 0x2000 0x1000 freshMessage = (.ok p, m') ∧
      p.addressToHook = 0x1005 ∧ p.parsedAt = 0x1005 := by
  have hleads : LeadsTo (jumpOver 0) 0x1000 0x1005 := .jump (d := 0) rfl (.arrived rfl)
  refine ⟨hleads, _, _, rfl, ?_⟩
  rw [follows_iff (jumpOver 0) {} 0x2000 0x1000 0x1005 freshMessage _ _ hleads rfl]
  decide

/-- A jump over 16 bytes: the hook goes to 0xFF5 and the code moved is that at 0x1005. -/
theorem not_follows_gap : ¬ ∀ function p m', LeadsTo (jumpOver 16) 0x1000 function →
    plan32 (jumpOver 16) {} 0x2000 0x1000 freshMessage = (.ok p, m') →
      p.addressToHook = function ∧ p.parsedAt = function := by
  intro h
  have hleads : LeadsTo (jumpOver 16) 0x1000 0x1015 := .jump (d := 16) rfl (.arrived rfl)
  have hp := (h 0x1015 _ _ hleads rfl).2
  exact absurd hp (by decide)

end Diana.Patcher.X86
