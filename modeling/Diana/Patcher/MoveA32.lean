import Diana.A32.Decode
import Diana.Patcher.EmitA64

/-!
# Moving one A32 or T32 instruction

`diana_ultimate_patcher_a32.c`: `b`, `bl`, `cbz` and `cbnz` become short sequences that reach the
target from the new place, an instruction that is seen to read pc is refused, everything else is
copied.

* `alignT32`, `emitJump`: the helpers, `moveInstructionA32` the mover;
* `LinkedOperand.readsPc`: the operands that depend on the address of their instruction;
* `copied_readsPc_iff`: the copied instructions that read pc.
-/

namespace Diana.A32

open Diana.A64 (Word Byte)
open Diana.Patcher (Emit Message emptyMessage allocateCmd emitWord putWord
  workBufferSizeRaw EmitsSat emitsSat_pure emitsSat_throw emitsSat_throw_bind emitsSat_allocateCmd)

/-- `OPERAND_SIZE` -/
abbrev OperandSize := BitVec 64

/-! ## Emission -/

def emitHalf (half : BitVec 16) : Emit Unit :=
  allocateCmd [half.setWidth 8, (half >>> 8).setWidth 8]

/-- A T32 32-bit instruction, hw1 first in memory. -/
def emitThumb2 (hw1 hw2 : BitVec 16) : Emit Unit := do
  emitHalf hw1
  emitHalf hw2

/-- Where the next emission goes. -/
def nextAddress (movedAddress : OperandSize) (m : Message) : OperandSize :=
  movedAddress + BitVec.ofNat 64 m.workBufferRaw.length

/-- The loop of `AlignT32`. The buffer is full before the fuel is used up. -/
def alignLoop (movedAddress : OperandSize) : Nat → Emit Unit
  | 0 => throw .error
  | fuel + 1 => fun m =>
    if nextAddress movedAddress m &&& 3 = 0 then (.ok (), m)
    else (do emitHalf 0xBF00; alignLoop movedAddress fuel : Emit Unit) m

/-- nop until the next emission is 4-aligned: before a T32 pc-relative word. -/
def alignT32 (movedAddress : OperandSize) : Emit Unit := alignLoop movedAddress workBufferSizeRaw

/-- An unconditional jump to an absolute target, no register touched. -/
def emitJump (movedAddress : OperandSize) (thumb : Bool) (target : OperandSize) : Emit Unit := do
  if thumb then
    alignT32 movedAddress
    emitThumb2 0xF8DF 0xF000   -- ldr.w pc, [pc, #0]
    emitWord (target.setWidth 32 ||| 1)
  else
    emitWord 0xE51FF004        -- ldr pc, [pc, #-4]
    emitWord (target.setWidth 32)

/-! ## The mover -/

/-- The operands the mover refuses: a literal load, a pc that is read or written as a register. -/
def refused : LinkedOperand → Bool
  | .index base _ => base = pc
  | .register r => r = pc
  | _ => false

/-- The offset of the last label among the operands. -/
def relValue (operands : List LinkedOperand) : Option (BitVec 64) :=
  operands.reverse.findSome? fun
    | .rel value => some value
    | _ => none

/-- `rn` of `cbz` and `cbnz`. -/
def firstRegister (operands : List LinkedOperand) : Reg :=
  match operands with
  | .register r :: _ => r
  | _ => 0

/-- `b<!cond>` over the jump behind it. -/
def emitSkip (movedAddress : OperandSize) (thumb : Bool) (cond : BitVec 4) : Emit Unit := do
  let opposite := cond ^^^ 1
  if thumb then
    alignT32 movedAddress
    emitHalf (0xD000#16 ||| (opposite.setWidth 16 <<< 8) ||| 4)
    emitHalf 0xBF00            -- pad so ldr.w is 4-aligned
  else emitWord ((opposite.setWidth 32 <<< 28) ||| 0x0A000000#32 ||| 1)

/-- `bl`: lr is set to what follows the sequence. -/
def emitCall (movedAddress : OperandSize) (thumb : Bool) (target : OperandSize) : Emit Unit := do
  if thumb then
    alignT32 movedAddress
    emitThumb2 0xF8DF 0xE008   -- ldr.w lr, [pc, #8]
    emitThumb2 0xF8DF 0xF000   -- ldr.w pc, [pc, #0]
    emitWord (target.setWidth 32)
    fun m => emitWord ((nextAddress movedAddress m + 4).setWidth 32 ||| 1) m
  else
    emitWord 0xE28FE004        -- add lr, pc, #4
    emitWord 0xE51FF004        -- ldr pc, [pc, #-4]
    emitWord (target.setWidth 32)

/-- `cbz` and `cbnz`: the opposite test skips a jump. -/
def emitCompare (movedAddress : OperandSize) (nonzero : Bool) (rn : Reg) : Emit Unit := do
  alignT32 movedAddress
  let op : BitVec 16 := if nonzero then 0 else 0x0800
  emitHalf (0xB100#16 ||| op ||| (4#16 <<< 3) ||| rn.setWidth 16)
  emitHalf 0xBF00

/-- The bytes of the instruction, as they are. -/
def emitCopy (thumb : Bool) (bytes : List Byte) : Emit Unit :=
  match bytes with
  | [b0, b1] => allocateCmd [b0, b1]
  | [b0, b1, b2, b3] =>
    if thumb then do
      allocateCmd [b0, b1]
      allocateCmd [b2, b3]
    else allocateCmd [b0, b1, b2, b3]
  | _ => throw .error

/-- `target`: bit 0 is set in T32. -/
def branchTarget (thumb : Bool) (r : ParserResult) (src : OperandSize) : OperandSize :=
  let next := src + BitVec.ofNat 64 r.bytes.length
  match relValue r.linkedOperands with
  | some value => if thumb then (next + value) ||| 1 else next + value
  | none => 0

/-- `MoveInstructionA32`: the instruction at `src`, moved to where the next emission goes. The
result is `*pbEndsFlow`: nothing after it runs. -/
def moveInstructionA32 (thumb : Bool) (r : ParserResult) (src movedAddress : OperandSize) :
    Emit Bool := do
  -- an IT block is not moved: the condition of the following instructions is in the IT state
  if r.cmd = .it ∨ r.inIt then throw .errorNotImplemented
  if r.linkedOperands.any refused then throw .errorNotImplemented
  let target := branchTarget thumb r src
  match r.cmd with
  | .b =>
    if r.cond = 14 then
      emitJump movedAddress thumb target
      return true
    emitSkip movedAddress thumb r.cond
    emitJump movedAddress thumb target
    return false
  | .bl =>
    emitCall movedAddress thumb target
    return false
  | .cbz =>
    emitCompare movedAddress false (firstRegister r.linkedOperands)
    emitJump movedAddress thumb target
    return false
  | .cbnz =>
    emitCompare movedAddress true (firstRegister r.linkedOperands)
    emitJump movedAddress thumb target
    return false
  | cmd =>
    -- adr, blx <label> and the rest with a target: not handled yet
    if (relValue r.linkedOperands).isSome then throw .errorNotImplemented
    emitCopy thumb r.bytes
    -- bx, bxj and a pop/mov that writes pc end the flow
    return cmd = .bx ∨ cmd = .bxj ∨ r.linkedOperands.head? = some (.register pc)

/-! ## Where pc hides -/

/-- The descriptors through which pc gets past the mover: the register of a shift or its amount, the
index of a memory operand, a stored list. -/
def OperandDesc.hidesPc (cmd : Command) (desc : OperandDesc) (word : Word) : Bool :=
  match desc.kind with
  | .shreg => getR (fieldAt desc 0 word) = pc
  | .shregReg =>
    getR (fieldAt desc 0 word) = pc ||
      getR (if desc.param ≠ 0 then fieldAt desc 1 word else fieldAt desc 2 word) = pc
  | .memReg =>
    getR (fieldAt desc ((if desc.arr ≠ 0 then 0 else 1) + (if desc.flags.hasU then 1
      else 0)) word) = pc
  | .vmem => desc.flags.vmemPostReg && getR (fieldAt desc (desc.fields.length - 1) word) = pc
  | .reglist => readsPc cmd (fillReglist desc word)
  | _ => false

/-- An operand the mover lets pass, and no label, reads pc where its descriptor hides it. -/
theorem readsPc_fillOperand {size : Nat} {desc : OperandDesc} {word : Word} {cmd : Command}
    (h : refused (fillOperand size desc word) = false)
    (hrel : ∀ value, fillOperand size desc word ≠ .rel value) :
    readsPc cmd (fillOperand size desc word) = desc.hidesPc cmd word := by
  cases hk : desc.kind with
  | reg =>
    simp only [fillOperand, hk, fillReg, refused, decide_eq_false_iff_not] at h
    simp only [fillOperand, hk, OperandDesc.hidesPc, fillReg, readsPc, h, decide_false]
  | shreg => simp [fillOperand, hk, OperandDesc.hidesPc, readsPc]
  | shregReg => simp [fillOperand, hk, OperandDesc.hidesPc, readsPc]
  | label =>
    have hlabel : fillOperand size desc word = fillLabel size desc word := by
      simp only [fillOperand, hk]
    exact absurd (hlabel.trans rfl) (hrel _)
  | memImm =>
    simp only [fillOperand, hk, fillMem, refused, decide_eq_false_iff_not] at h
    simp only [fillOperand, hk, OperandDesc.hidesPc, fillMem, readsPc, h]
    rfl
  | memReg =>
    simp only [fillOperand, hk, fillMem, refused, decide_eq_false_iff_not] at h
    simp only [fillOperand, hk, OperandDesc.hidesPc, fillMem, readsPc, h, ↓reduceIte, decide_false,
      Bool.false_or, Option.some.injEq]
  | reglist => simp only [fillOperand, hk, OperandDesc.hidesPc]
  | vmem =>
    simp only [fillOperand, hk, refused, decide_eq_false_iff_not] at h
    cases hp : desc.flags.vmemPostReg <;>
      simp [fillOperand, hk, OperandDesc.hidesPc, readsPc, h, hp]
  | plain => simp [fillOperand, hk, OperandDesc.hidesPc, readsPc]

/-! ## What an emission appends at an address -/

/-- A successful run of `e`, with `dst` the address of the next emission, appends bytes with the
property `P`. -/
def EmitsFrom {α : Type} (movedAddress dst : OperandSize) (e : Emit α) (P : List Byte → Prop) :
    Prop :=
  ∀ m a m', nextAddress movedAddress m = dst → e m = (.ok a, m') →
    ∃ bs, m'.workBufferRaw = m.workBufferRaw ++ bs ∧ P bs

section Emission

variable {α β : Type} {movedAddress dst : OperandSize}

theorem emitsFrom_of_emitsSat {e : Emit α} {P : List Byte → Prop} (h : EmitsSat e P) :
    EmitsFrom movedAddress dst e P :=
  fun m a m' _ he => h m a m' he

theorem emitsFrom_mono {e : Emit α} {P Q : List Byte → Prop} (h : EmitsFrom movedAddress dst e P)
    (hPQ : ∀ bs, P bs → Q bs) : EmitsFrom movedAddress dst e Q := by
  intro m a m' hd he
  obtain ⟨bs, hbs, hP⟩ := h m a m' hd he
  exact ⟨bs, hbs, hPQ bs hP⟩

theorem emitsFrom_bind {e : Emit α} {f : α → Emit β} {P Q : List Byte → Prop}
    (he : EmitsFrom movedAddress dst e P)
    (hf : ∀ a bs, P bs → EmitsFrom movedAddress (dst + BitVec.ofNat 64 bs.length) (f a)
      fun cs => Q (bs ++ cs)) :
    EmitsFrom movedAddress dst (e >>= f) Q := by
  intro m b m' hd h
  rcases hem : e m with ⟨_ | a, m₁⟩
  · have : (e >>= f) m = (.error ‹_›, m₁) := by
      simp [bind, ExceptT.bind, ExceptT.mk, StateT.bind, hem, ExceptT.bindCont]
      rfl
    rw [this] at h
    cases h
  · have hfm : f a m₁ = (.ok b, m') := by
      rw [← h]
      simp [bind, ExceptT.bind, ExceptT.mk, StateT.bind, hem, ExceptT.bindCont]
    obtain ⟨bs, hbs, hP⟩ := he m a m₁ hd hem
    have hnext : nextAddress movedAddress m₁ = dst + BitVec.ofNat 64 bs.length := by
      rw [← hd, nextAddress, nextAddress, hbs, List.length_append, BitVec.ofNat_add,
        BitVec.add_assoc]
    obtain ⟨cs, hcs, hQ⟩ := hf a bs hP m₁ b m' hnext hfm
    exact ⟨bs ++ cs, by rw [hcs, hbs, List.append_assoc], hQ⟩

theorem emitsFrom_ite {c : Prop} [Decidable c] {e f : Emit α} {P : List Byte → Prop}
    (he : c → EmitsFrom movedAddress dst e P) (hf : ¬ c → EmitsFrom movedAddress dst f P) :
    EmitsFrom movedAddress dst (if c then e else f) P := by
  split
  · next h => exact he h
  · next h => exact hf h

/-- Emitting bytes, then the rest. -/
theorem emitsFrom_allocateCmd_bind {bytes : List Byte} {f : Unit → Emit β} {Q : List Byte → Prop}
    (hf : EmitsFrom movedAddress (dst + BitVec.ofNat 64 bytes.length) (f ())
      fun cs => Q (bytes ++ cs)) :
    EmitsFrom movedAddress dst (allocateCmd bytes >>= f) Q := by
  refine emitsFrom_bind (emitsFrom_of_emitsSat (emitsSat_allocateCmd bytes)) ?_
  rintro _ bs rfl
  exact hf

theorem emitsFrom_bind_pure {e : Emit α} {b : β} {P : List Byte → Prop}
    (h : EmitsFrom movedAddress dst e P) :
    EmitsFrom movedAddress dst (e >>= fun _ => pure b) P := by
  refine emitsFrom_bind h fun _ bs hP => emitsFrom_of_emitsSat (emitsSat_pure ?_)
  rwa [List.append_nil]

theorem emitsFrom_allocateCmd {bytes : List Byte} {P : List Byte → Prop} (h : P bytes) :
    EmitsFrom movedAddress dst (allocateCmd bytes) P :=
  emitsFrom_mono (emitsFrom_of_emitsSat (emitsSat_allocateCmd bytes)) (by rintro _ rfl; exact h)

end Emission

/-! ### The helpers -/

theorem and_three_eq_zero {x : OperandSize} : x &&& 3 = 0 ↔ x.toNat % 4 = 0 := by
  rw [← BitVec.toNat_inj, BitVec.toNat_and]
  show x.toNat &&& (2 ^ 2 - 1) = 0 ↔ _
  rw [Nat.and_two_pow_sub_one_eq_mod]

/-- The bytes of a nop. -/
def nopBytes : List Byte := [0x00, 0xBF]

/-- What `alignT32` appends. -/
def pad (dst : OperandSize) : List Byte := if dst &&& 3 = 0 then [] else nopBytes

section Helpers

variable {movedAddress dst : OperandSize}

/-- By induction on the fuel: an address that is not aligned after one nop never is. -/
theorem emitsFrom_alignLoop (fuel : Nat) (dst : OperandSize) :
    EmitsFrom movedAddress dst (alignLoop movedAddress fuel) fun bs =>
      bs = pad dst ∧ (dst + BitVec.ofNat 64 bs.length) &&& 3 = 0 := by
  induction fuel generalizing dst with
  | zero => exact emitsFrom_of_emitsSat emitsSat_throw
  | succ fuel ih =>
    intro m a m' hd h
    simp only [alignLoop, hd] at h
    by_cases h0 : dst &&& 3 = 0
    · rw [if_pos h0] at h
      cases h
      exact ⟨[], by simp, by rw [pad, if_pos h0], by simpa using h0⟩
    · rw [if_neg h0] at h
      have hrest : EmitsFrom movedAddress dst
        (emitHalf 0xBF00 >>= fun _ => alignLoop movedAddress fuel)
          fun bs => bs = pad dst ∧ (dst + BitVec.ofNat 64 bs.length) &&& 3 = 0 := by
        refine emitsFrom_allocateCmd_bind (emitsFrom_mono (ih _) ?_)
        rintro bs ⟨rfl, haligned⟩
        rw [pad] at haligned
        rw [pad, pad, if_neg h0]
        rw [and_three_eq_zero] at h0
        split_ifs at haligned ⊢ with h2
        · refine ⟨rfl, ?_⟩
          rw [and_three_eq_zero] at h2 ⊢
          exact h2
        · rw [and_three_eq_zero] at haligned
          simp only [nopBytes, List.length_cons, List.length_nil, BitVec.toNat_add,
            BitVec.toNat_ofNat] at haligned
          omega
      exact hrest m a m' hd h

theorem emitsFrom_alignT32 :
    EmitsFrom movedAddress dst (alignT32 movedAddress) fun bs =>
      bs = pad dst ∧ (dst + BitVec.ofNat 64 bs.length) &&& 3 = 0 :=
  emitsFrom_alignLoop _ _

/-- The bytes of `emitJump`, from an aligned address in T32. -/
def jumpCode (thumb : Bool) (target : OperandSize) : List Byte :=
  if thumb then codeBytes true 0xF8DFF000 ++ putWord (target.setWidth 32 ||| 1)
  else putWord 0xE51FF004 ++ putWord (target.setWidth 32)

/-- The padding before a sequence: none in A32. -/
def padT32 (thumb : Bool) (dst : OperandSize) : List Byte := if thumb then pad dst else []

theorem padT32_false (dst : OperandSize) : padT32 false dst = [] := if_neg Bool.false_ne_true

/-- An aligned address takes no padding. -/
theorem padT32_aligned (h : dst &&& 3 = 0) : padT32 true dst = [] := by
  rw [padT32, if_pos rfl, pad, if_pos h]

theorem emitsFrom_emitThumb2 {hw1 hw2 : BitVec 16} {P : List Byte → Prop}
    (h : P ([hw1.setWidth 8, (hw1 >>> 8).setWidth 8] ++ [hw2.setWidth 8, (hw2 >>> 8).setWidth 8])) :
    EmitsFrom movedAddress dst (emitThumb2 hw1 hw2) P := by
  unfold emitThumb2 emitHalf
  exact emitsFrom_allocateCmd_bind (emitsFrom_allocateCmd h)

theorem emitsFrom_emitJump {thumb : Bool} {target : OperandSize} {P : List Byte → Prop}
    (h : P (padT32 thumb dst ++ jumpCode thumb target)) :
    EmitsFrom movedAddress dst (emitJump movedAddress thumb target) P := by
  unfold emitJump
  rw [padT32, jumpCode] at h
  cases thumb with
  | false =>
    rw [if_neg Bool.false_ne_true, if_neg Bool.false_ne_true, List.nil_append] at h
    rw [if_neg Bool.false_ne_true]
    exact emitsFrom_allocateCmd_bind (emitsFrom_allocateCmd h)
  | true =>
    rw [if_pos rfl, if_pos rfl] at h
    rw [if_pos rfl]
    refine emitsFrom_bind emitsFrom_alignT32 ?_
    rintro _ _ ⟨rfl, -⟩
    refine emitsFrom_bind (P := (· = codeBytes true 0xF8DFF000))
      (emitsFrom_emitThumb2 (by decide)) ?_
    rintro _ _ rfl
    exact emitsFrom_allocateCmd h

/-- A halfword in memory. -/
def halfBytes (half : BitVec 16) : List Byte := [half.setWidth 8, (half >>> 8).setWidth 8]

theorem emitsFrom_emitHalf_bind {β : Type} {half : BitVec 16} {f : Unit → Emit β}
    {Q : List Byte → Prop}
    (hf : EmitsFrom movedAddress (dst + 2) (f ()) fun cs => Q (halfBytes half ++ cs)) :
    EmitsFrom movedAddress dst (emitHalf half >>= f) Q := emitsFrom_allocateCmd_bind hf

/-- `b<!cond>.n`, over the jump and the padding behind it. -/
def skipHalf (cond : BitVec 4) : BitVec 16 := 0xD000#16 ||| ((cond ^^^ 1).setWidth 16 <<< 8) ||| 4

/-- `b<!cond>`, over the jump behind it. -/
def skipWord (cond : BitVec 4) : Word := ((cond ^^^ 1).setWidth 32 <<< 28) ||| 0x0A000000#32 ||| 1

def skipCode (thumb : Bool) (cond : BitVec 4) : List Byte :=
  if thumb then halfBytes (skipHalf cond) ++ nopBytes else putWord (skipWord cond)

theorem emitsFrom_emitSkip {thumb : Bool} {cond : BitVec 4} :
    EmitsFrom movedAddress dst (emitSkip movedAddress thumb cond) fun bs =>
      bs = padT32 thumb dst ++ skipCode thumb cond ∧
        (thumb = true → (dst + BitVec.ofNat 64 bs.length) &&& 3 = 0) := by
  unfold emitSkip
  cases thumb with
  | false =>
    rw [if_neg Bool.false_ne_true]
    refine emitsFrom_allocateCmd ⟨?_, nofun⟩
    rw [padT32, skipCode, if_neg Bool.false_ne_true, if_neg Bool.false_ne_true, List.nil_append]
    rfl
  | true =>
    rw [if_pos rfl]
    refine emitsFrom_bind emitsFrom_alignT32 ?_
    rintro _ _ ⟨rfl, haligned⟩
    refine emitsFrom_emitHalf_bind (emitsFrom_allocateCmd ⟨?_, fun _ => ?_⟩)
    · rw [padT32, skipCode, if_pos rfl, if_pos rfl]
      rfl
    · rw [and_three_eq_zero] at haligned ⊢
      simp only [List.length_append, halfBytes, List.length_cons, List.length_nil, BitVec.toNat_add,
        BitVec.toNat_ofNat] at haligned ⊢
      omega

/-- The bytes of `emitCall`, from an aligned address in T32. -/
def callCode (thumb : Bool) (dst target : OperandSize) : List Byte :=
  if thumb then
    codeBytes true 0xF8DFE008 ++ (codeBytes true 0xF8DFF000 ++
      (putWord (target.setWidth 32) ++ putWord ((dst + 16).setWidth 32 ||| 1)))
  else putWord 0xE28FE004 ++ (putWord 0xE51FF004 ++ putWord (target.setWidth 32))

/-- An emission that looks at its address. -/
theorem emitsFrom_at {α : Type} {e : OperandSize → Emit α} {P : List Byte → Prop}
    (h : EmitsFrom movedAddress dst (e dst) P) :
    EmitsFrom movedAddress dst (fun m => e (nextAddress movedAddress m) m) P := by
  intro m a m' hd he
  refine h m a m' hd ?_
  rw [← hd]
  exact he

theorem emitsFrom_emitCall {thumb : Bool} {target : OperandSize} {P : List Byte → Prop}
    (h : P (padT32 thumb dst ++
      callCode thumb (dst + BitVec.ofNat 64 (padT32 thumb dst).length) target)) :
    EmitsFrom movedAddress dst (emitCall movedAddress thumb target) P := by
  unfold emitCall
  cases thumb with
  | false =>
    rw [padT32, callCode, if_neg Bool.false_ne_true, if_neg Bool.false_ne_true,
      List.nil_append] at h
    rw [if_neg Bool.false_ne_true]
    exact emitsFrom_allocateCmd_bind (emitsFrom_allocateCmd_bind (emitsFrom_allocateCmd h))
  | true =>
    rw [padT32, callCode, if_pos rfl, if_pos rfl] at h
    rw [if_pos rfl]
    refine emitsFrom_bind emitsFrom_alignT32 ?_
    rintro _ _ ⟨rfl, -⟩
    refine emitsFrom_bind (P := (· = codeBytes true 0xF8DFE008))
      (emitsFrom_emitThumb2 (by decide)) ?_
    rintro _ _ rfl
    refine emitsFrom_bind (P := (· = codeBytes true 0xF8DFF000))
      (emitsFrom_emitThumb2 (by decide)) ?_
    rintro _ _ rfl
    refine emitsFrom_allocateCmd_bind
      (emitsFrom_at (e := fun a => emitWord ((a + 4).setWidth 32 ||| 1)) ?_)
    refine emitsFrom_allocateCmd ?_
    have hlast : dst + BitVec.ofNat 64 (pad dst).length + BitVec.ofNat 64
      (codeBytes true 0xF8DFE008).length +
        BitVec.ofNat 64 (codeBytes true 0xF8DFF000).length +
        BitVec.ofNat 64 (putWord (target.setWidth 32)).length + 4 =
        dst + BitVec.ofNat 64 (pad dst).length + 16 := by
      rw [BitVec.add_assoc, BitVec.add_assoc, BitVec.add_assoc]
      rfl
    rw [hlast]
    exact h

/-- `cbz` or `cbnz`, over the jump and the padding behind it. -/
def compareHalf (nonzero : Bool) (rn : Reg) : BitVec 16 :=
  0xB100#16 ||| (if nonzero then 0#16 else 0x0800#16) ||| (4#16 <<< 3) ||| rn.setWidth 16

theorem emitsFrom_emitCompare {nonzero : Bool} {rn : Reg} :
    EmitsFrom movedAddress dst (emitCompare movedAddress nonzero rn) fun bs =>
      bs = pad dst ++ (halfBytes (compareHalf nonzero rn) ++ nopBytes) ∧
        (dst + BitVec.ofNat 64 bs.length) &&& 3 = 0 := by
  unfold emitCompare
  refine emitsFrom_bind emitsFrom_alignT32 ?_
  rintro _ _ ⟨rfl, haligned⟩
  refine emitsFrom_emitHalf_bind (emitsFrom_allocateCmd ⟨?_, ?_⟩)
  · rw [compareHalf]
    rfl
  rw [and_three_eq_zero] at haligned ⊢
  simp only [List.length_append, halfBytes, List.length_cons, List.length_nil, BitVec.toNat_add,
    BitVec.toNat_ofNat] at haligned ⊢
  omega

theorem emitsFrom_emitCopy {thumb : Bool} {bytes : List Byte} :
    EmitsFrom movedAddress dst (emitCopy thumb bytes) (· = bytes) := by
  unfold emitCopy
  split
  · exact emitsFrom_allocateCmd rfl
  · split
    · exact emitsFrom_allocateCmd_bind (emitsFrom_allocateCmd rfl)
    · exact emitsFrom_allocateCmd rfl
  · exact emitsFrom_of_emitsSat emitsSat_throw

end Helpers

/-! ### The mover -/

/-- The code of a moved instruction, from the address `dst` on. -/
def movedCode (thumb : Bool) (r : ParserResult) (src dst : OperandSize) : List Byte :=
  let target := branchTarget thumb r src
  match r.cmd with
  | .b =>
    if r.cond = 14 then padT32 thumb dst ++ jumpCode thumb target
    else padT32 thumb dst ++ skipCode thumb r.cond ++ jumpCode thumb target
  | .bl =>
    padT32 thumb dst ++ callCode thumb (dst + BitVec.ofNat 64 (padT32 thumb dst).length) target
  | .cbz =>
    pad dst ++ (halfBytes (compareHalf false (firstRegister r.linkedOperands)) ++ nopBytes) ++
      jumpCode thumb target
  | .cbnz =>
    pad dst ++ (halfBytes (compareHalf true (firstRegister r.linkedOperands)) ++ nopBytes) ++
      jumpCode thumb target
  | _ => r.bytes

/-- The mover looks at an instruction and does not refuse it. -/
structure Accepted (r : ParserResult) : Prop where
  notIt : r.cmd ≠ .it
  outside : r.inIt = false
  operands : r.linkedOperands.any refused = false
  /-- only the branches have a label -/
  label : r.cmd.isBranch = false → relValue r.linkedOperands = none

section Mover

variable {movedAddress dst src : OperandSize} {thumb : Bool} {r : ParserResult}

theorem emitsFrom_jump_behind {β : Type} {e : Emit Unit} {target : OperandSize} {b : β}
    {first : List Byte}
    (h : EmitsFrom movedAddress dst e fun bs =>
      bs = first ∧ (thumb = true → (dst + BitVec.ofNat 64 bs.length) &&& 3 = 0)) :
    EmitsFrom movedAddress dst
    (e >>= fun _ => emitJump movedAddress thumb target >>= fun _ => pure b)
      (· = first ++ jumpCode thumb target) := by
  refine emitsFrom_bind h ?_
  rintro _ bs ⟨rfl, haligned⟩
  refine emitsFrom_bind_pure (emitsFrom_emitJump ?_)
  have hpad : padT32 thumb (dst + BitVec.ofNat 64 bs.length) = [] := by
    cases thumb with
    | false => exact padT32_false _
    | true => exact padT32_aligned (haligned rfl)
  rw [hpad, List.nil_append]

/-- What the mover appends. -/
theorem emitsFrom_moveInstructionA32 :
    EmitsFrom movedAddress dst (moveInstructionA32 thumb r src movedAddress) fun bs =>
      Accepted r ∧ bs = movedCode thumb r src dst := by
  unfold moveInstructionA32
  refine emitsFrom_ite (fun _ => emitsFrom_of_emitsSat emitsSat_throw_bind) fun hit => ?_
  refine emitsFrom_ite (fun _ => emitsFrom_of_emitsSat emitsSat_throw_bind) fun href => ?_
  have hacc (h : r.cmd.isBranch = false → relValue r.linkedOperands = none) : Accepted r :=
    ⟨fun h => hit (Or.inl h), by simpa using fun h => hit (Or.inr h), by simpa using href, h⟩
  have hbranch : r.cmd.isBranch = true → Accepted r := fun h => hacc fun hn => by simp [h] at hn
  -- a branch: the padding, then the sequence of its command
  have hcode {e : Emit Bool} {code : List Byte} (hb : r.cmd.isBranch = true)
      (hm : movedCode thumb r src dst = code) (h : EmitsFrom movedAddress dst e (· = code)) :
      EmitsFrom movedAddress dst e fun bs => Accepted r ∧ bs = movedCode thumb r src dst :=
    emitsFrom_mono h fun bs hbs => ⟨hbranch hb, hbs.trans hm.symm⟩
  split
  · next hcmd =>
    refine emitsFrom_ite (fun hal => ?_) fun hal => ?_
    · refine hcode (by rw [hcmd]; rfl) ?_ (emitsFrom_bind_pure (emitsFrom_emitJump rfl))
      simp only [movedCode, hcmd, if_pos hal]
    · refine hcode (by rw [hcmd]; rfl) ?_ (emitsFrom_jump_behind emitsFrom_emitSkip)
      simp only [movedCode, hcmd, if_neg hal]
  · next hcmd =>
    refine hcode (by rw [hcmd]; rfl) ?_ (emitsFrom_bind_pure (emitsFrom_emitCall rfl))
    simp only [movedCode, hcmd]
  · next hcmd =>
    refine hcode (by rw [hcmd]; rfl) ?_ (emitsFrom_jump_behind (emitsFrom_mono emitsFrom_emitCompare
      fun _ h => ⟨h.1, fun _ => h.2⟩))
    simp only [movedCode, hcmd]
  · next hcmd =>
    refine hcode (by rw [hcmd]; rfl) ?_ (emitsFrom_jump_behind (emitsFrom_mono emitsFrom_emitCompare
      fun _ h => ⟨h.1, fun _ => h.2⟩))
    simp only [movedCode, hcmd]
  · next h1 h2 h3 h4 =>
    refine emitsFrom_ite (fun _ => emitsFrom_of_emitsSat emitsSat_throw_bind) fun hrel => ?_
    refine emitsFrom_bind_pure (emitsFrom_mono emitsFrom_emitCopy ?_)
    rintro _ rfl
    refine ⟨hacc fun _ => by simpa using hrel, ?_⟩
    cases hcmd : r.cmd with
    | b => exact absurd hcmd h1
    | bl => exact absurd hcmd h2
    | cbz => exact absurd hcmd h3
    | cbnz => exact absurd hcmd h4
    | _ => simp only [movedCode, hcmd]

end Mover

/-! ## What is copied -/

section Copied

variable {thumb : Bool} {itState : BitVec 8} {info : CmdInfo} {word : Word}
  {src dst movedAddress : OperandSize} {m m' : Message} {endsFlow : Bool}

theorem codeBytes_length_le : (codeBytes thumb word).length ≤ 4 := by
  rw [codeBytes]
  split
  · exact List.length_take_le' _ _
  · exact Nat.le_refl 4

theorem jumpCode_length (target : OperandSize) : (jumpCode thumb target).length = 8 := by
  cases thumb <;> rfl

theorem callCode_length {target : OperandSize} : 12 ≤ (callCode thumb dst target).length := by
  cases thumb <;> simp [callCode, putWord, codeBytes, instrSize]

/-- A moved branch is longer than any instruction. -/
theorem movedCode_length {r : ParserResult} (hb : r.cmd.isBranch = true) :
    8 ≤ (movedCode thumb r src dst).length := by
  cases hcmd : r.cmd with
  | b =>
    simp only [movedCode, hcmd]
    split <;> simp only [List.length_append, jumpCode_length] <;> omega
  | bl =>
    simp only [movedCode, hcmd, List.length_append]
    exact le_trans (by decide) (le_trans callCode_length (Nat.le_add_left _ _))
  | cbz => simp only [movedCode, hcmd, List.length_append, jumpCode_length]; omega
  | cbnz => simp only [movedCode, hcmd, List.length_append, jumpCode_length]; omega
  | _ => rw [hcmd] at hb; cases hb

theorem ne_rel_of_relValue {operands : List LinkedOperand} (h : relValue operands = none)
    {op : LinkedOperand} (hop : op ∈ operands) (value : BitVec 64) : op ≠ .rel value := by
  rintro rfl
  rw [relValue, List.findSome?_eq_none_iff] at h
  exact absurd (h _ (List.mem_reverse.mpr hop)) (Option.some_ne_none _)

/-- An instruction the mover accepts and copies does not depend on its address exactly when it does
not branch by a table and no descriptor of its entry hides pc. -/
theorem copied_readsPc_iff
    (h : moveInstructionA32 thumb (fillResult thumb itState info word) src movedAddress m =
      (.ok endsFlow, m'))
    (hcopy : m'.workBufferRaw = m.workBufferRaw ++ (fillResult thumb itState info word).bytes) :
    (fillResult thumb itState info word).readsPc = false ↔
      branchesByTable info.cmd = false ∧ ∀ desc ∈ info.operands,
      desc.hidesPc info.cmd word = false := by
  set r := fillResult thumb itState info word with hr
  obtain ⟨bs, hbs, hacc, rfl⟩ := emitsFrom_moveInstructionA32 m endsFlow m' rfl h
  have hbranch : r.cmd.isBranch = false := by
    by_contra hb
    have hlen : 8 ≤ (movedCode thumb r src (nextAddress movedAddress m)).length :=
      movedCode_length (by simpa using hb)
    have hle : r.bytes.length ≤ 4 := codeBytes_length_le
    rw [List.append_cancel_left (hbs.symm.trans hcopy)] at hlen
    omega
  have hoperand : ∀ desc ∈ info.operands,
      readsPc info.cmd (fillOperand info.size desc word) = desc.hidesPc info.cmd word := by
    intro desc hdesc
    have hmem : fillOperand info.size desc word ∈ r.linkedOperands := List.mem_map_of_mem hdesc
    refine readsPc_fillOperand ?_ (ne_rel_of_relValue (hacc.label hbranch) hmem)
    simpa using List.any_eq_false.mp hacc.operands _ hmem
  have hany : r.linkedOperands.any (readsPc r.cmd) = false ↔
      ∀ desc ∈ info.operands, readsPc info.cmd (fillOperand info.size desc word) = false := by
    simp [hr, fillResult]
  rw [ParserResult.readsPc, Bool.or_eq_false_iff, hany]
  refine and_congr Iff.rfl (forall₂_congr fun desc hdesc => ?_)
  rw [hoperand desc hdesc]

/-- The entry of `add` with a shifted register. -/
def addShifted : CmdInfo :=
  { cmd := .other, condLsb := some 28, size := 4,
    operands := [{ kind := .reg, fields := [⟨12, 4⟩] }, { kind := .reg, fields := [⟨16, 4⟩] },
      { kind := .shreg, fields := [⟨0, 4⟩, ⟨5, 2⟩, ⟨7, 5⟩] }] }

/-- `add r0, r1, r2` is copied. -/
theorem copied_readsPc_add :
    (fillResult false 0 addShifted 0xE0810002).readsPc = false ↔
      branchesByTable addShifted.cmd = false ∧
        ∀ desc ∈ addShifted.operands, desc.hidesPc addShifted.cmd 0xE0810002 = false :=
  copied_readsPc_iff (show moveInstructionA32 false _ 0x1000 0x2000 emptyMessage =
    (Except.ok false, _) from rfl) rfl

/-- `add r0, r1, pc` is accepted and copied, and reads pc. -/
theorem copied_add_pc :
    ∃ m', moveInstructionA32 false (fillResult false 0 addShifted 0xE081000F) 0x1000 0x2000
        emptyMessage = (.ok false, m') ∧
      m'.workBufferRaw = (fillResult false 0 addShifted 0xE081000F).bytes ∧
      (fillResult false 0 addShifted 0xE081000F).readsPc = true :=
  ⟨_, rfl, rfl, by decide⟩

end Copied

end Diana.A32
