import Mathlib.Data.BitVec
import Mathlib.Tactic.IntervalCases
import Mathlib.Tactic.LinearCombination
import Diana.Patcher.EmitA64
import Diana.Patcher.RelX86

/-!
# Moving one x86 instruction

`DianaHook_AnalyzeCommand` of `diana_ultimate_patcher_32.c` and `diana_ultimate_patcher_64.c`, the
same in both: an instruction is copied to the trampoline, and the displacement of a near branch is
corrected by the distance of the two addresses.

* `moveCommand`: the bytes of the moved copy, `analyzeCommand` the step on the work buffer;
* `keepsTarget_iff`: the moved relative instructions that go where the original goes;
* `keepsAddresses_iff`: the moved instructions with a RIP-relative operand that refer to the same
  memory.
-/

namespace Diana.Patcher.X86

open Diana.A64

/-! ## The message -/

/-- `DIANAHOOK_INTERNALMESSAGE_WORK_BUFFER_SIZE_META` -/
def workBufferSizeMeta : Nat := 256

/-- `DianaHook_InternalMessage`: the two work buffers, of the metainfo only its size. -/
structure HookMessage extends Message where
  workBufferMetaSize : Nat
  meta_le : workBufferMetaSize ≤ workBufferSizeMeta

/-- A function of the x86 patchers: its status, and the message as it left it. -/
abbrev Hook := ExceptT Status (StateM HookMessage)

/-- `DianaHook_AllocateMetainfo` -/
def allocateMetainfo (structSize : Nat) : Hook Unit := fun m =>
  if h0 : structSize > workBufferSizeMeta then (.error .error, m)
  else if h : m.workBufferMetaSize > workBufferSizeMeta - structSize then (.error .error, m)
  else (.ok (),
    { m with workBufferMetaSize := m.workBufferMetaSize + structSize, meta_le := by omega })

/-- An emission on the raw work buffer. -/
def emit {α : Type} (e : Emit α) : Hook α := fun m =>
  ((e m.toMessage).1, { m with toMessage := (e m.toMessage).2 })

/-! ## The copy -/

/-- The instruction changes RIP by a relative operand, its only one, and is no return. -/
def needsCorrection (r : ParserResult) : Bool :=
  match r.info.linkedInfo, r.linkedOperands with
  | some info, [.rel _ _ _] => info.canChangeRip && !info.ret
  | _, _ => false

/-- `*pDataToChange += delta`, at an offset of the copy. -/
def addToDword (code : List Byte) (offset : Nat) (delta : BitVec 32) : List Byte :=
  let value := BitVec.ofNat 32 (fieldValue ((code.drop offset).take 4))
  code.take offset ++ (putWord (value + delta) ++ code.drop (offset + 4))

/-- `CopyCommand32`, `CopyCommand64`: `code` is what can be read at the address of the command. -/
def copyCommand (code : List Byte) (size : Nat) : Except Status (List Byte) :=
  if code.length < size then .error .error else .ok (code.take size)

/-- The bytes of the moved command. The displacements of one and two bytes are left to do. -/
def moveCommand (r : ParserResult) (code : List Byte) (commandAddress newCommandAddress : Addr) :
    Except Status (List Byte) := do
  if needsCorrection r then
    match r.linkedOperands with
    | .rel offset 4 _ :: _ =>
      let buffer ← copyCommand code r.fullCmdSize
      return addToDword buffer offset
        (commandAddress.setWidth 32 - newCommandAddress.setWidth 32)
    | _ => throw .error
  else copyCommand code r.fullCmdSize

/-- `DianaHook_AnalyzeCommand`: `newCommandSize` and `*pbIsRet`. -/
def analyzeCommand (r : ParserResult) (code : List Byte) (commandAddress newCommandAddress : Addr) :
    Hook (Nat × Bool) := do
  -- sizeof(DianaHook_DianaCommandInfo64), one DI_UINT32
  allocateMetainfo 4
  let bytes ← ExceptT.mk (pure (moveCommand r code commandAddress newCommandAddress))
  emit (allocateCmd bytes)
  return (r.fullCmdSize, r.info.linkedInfo.any (·.ret))

theorem Hook.bind_ok {α β : Type} {e : Hook α} {f : α → Hook β} {m m' : HookMessage} {b : β}
    (h : (e >>= f) m = (.ok b, m')) : ∃ a m₁, e m = (.ok a, m₁) ∧ f a m₁ = (.ok b, m') := by
  rcases hem : e m with ⟨c | a, m₁⟩
  · have : (e >>= f) m = (.error c, m₁) := by
      simp [bind, ExceptT.bind, ExceptT.mk, StateT.bind, hem, ExceptT.bindCont]
      rfl
    rw [this] at h
    cases h
  · refine ⟨a, m₁, rfl, ?_⟩
    rw [← h]
    simp [bind, ExceptT.bind, ExceptT.mk, StateT.bind, hem, ExceptT.bindCont]

theorem allocateMetainfo_raw {n : Nat} {m m' : HookMessage}
    (h : allocateMetainfo n m = (.ok (), m')) : m'.workBufferRaw = m.workBufferRaw := by
  unfold allocateMetainfo at h
  split at h
  · cases h
  · split at h
    · cases h
    · cases h
      rfl

/-- A command that is accepted leaves its moved copy at the end of the work buffer. -/
theorem analyzeCommand_ok {r : ParserResult} {code : List Byte} {old new : Addr}
    {m m' : HookMessage} {res : Nat × Bool}
    (h : analyzeCommand r code old new m = (.ok res, m')) :
    ∃ copy, moveCommand r code old new = .ok copy ∧
      m'.workBufferRaw = m.workBufferRaw ++ copy ∧
      res = (r.fullCmdSize, r.info.linkedInfo.any (·.ret)) := by
  obtain ⟨_, m₁, h1, h⟩ := Hook.bind_ok h
  obtain ⟨copy, m₂, h2, h⟩ := Hook.bind_ok h
  obtain ⟨_, m₃, h3, h⟩ := Hook.bind_ok h
  have hm : moveCommand r code old new = .ok copy ∧ m₂ = m₁ := by
    cases hmove : moveCommand r code old new with
    | error c => rw [hmove] at h2; cases h2
    | ok bytes => rw [hmove] at h2; cases h2; exact ⟨rfl, rfl⟩
  obtain ⟨bs, hraw, hbs⟩ := emitsSat_allocateCmd copy m₂.toMessage () m₃.toMessage (by
    cases hcmd : allocateCmd copy m₂.toMessage with
    | mk st m₄ =>
      simp only [emit, hcmd] at h3
      cases h3
      rfl)
  cases h
  refine ⟨copy, hm.1, ?_, rfl⟩
  rw [hraw, hbs, hm.2, allocateMetainfo_raw h1]

/-! ## Where a branch goes -/

/-- The bits of the instruction pointer after a branch: a 16-bit operand size cuts it. -/
def targetBits (mode : Mode) (operandSize : Nat) : Nat :=
  if operandSize = 2 then 16 else mode.bits

/-- Where a relative instruction at an address goes: `rip + m_value + iFullCmdSize`. -/
def target (mode : Mode) (r : ParserResult) (address : Addr) : Option Nat :=
  match r.linkedOperands.getLast? with
  | some (.rel _ _ value) =>
    some ((address + BitVec.ofNat 64 r.fullCmdSize + value).toNat % 2 ^
      targetBits mode r.operandSize)
  | _ => none

/-- An instruction with a relative operand: its bytes, and what they decode to. -/
structure RelInstruction (mode : Mode) where
  code : List Byte
  result : ParserResult
  parses : parseRel mode code = some result
  size : code.length = result.fullCmdSize

/-- The operand of a relative instruction. -/
def relValue (r : ParserResult) : BitVec 64 :=
  match r.linkedOperands.getLast? with
  | some (.rel _ _ value) => value
  | _ => 0

/-- The size of its displacement. -/
def relFieldSize (r : ParserResult) : Nat :=
  match r.linkedOperands.getLast? with
  | some (.rel _ size _) => size
  | _ => 0

/-- The same entry of the tables at the same sizes, so that only the displacement may differ. -/
def SameCommand (r r' : ParserResult) : Prop :=
  r'.info = r.info ∧ r'.fullCmdSize = r.fullCmdSize ∧ r'.operandSize = r.operandSize ∧
    relFieldSize r' = relFieldSize r

/-- The instruction at `old`, if it is moved to `new`, still is the same branch, to the same
address. -/
def KeepsTarget {mode : Mode} (i : RelInstruction mode) (old new : Addr) : Prop :=
  ∀ copy, moveCommand i.result i.code old new = .ok copy →
    ∃ r, parseRel mode copy = some r ∧ SameCommand i.result r ∧
      target mode r new = target mode i.result old

/-! ## Bytes and words -/

theorem fieldValue_putWord (w : Word) : fieldValue (putWord w) = w.toNat := by
  have h := w.isLt
  simp only [putWord, fieldValue_cons, BitVec.toNat_setWidth, BitVec.toNat_ushiftRight,
    Nat.shiftRight_eq_div_pow]
  simp only [fieldValue, List.map_nil, Nat.ofDigits_nil]
  omega

theorem readSigned_four {field : List Byte} (h : field.length = 4) :
    readSigned field = (BitVec.ofNat 32 (fieldValue field)).signExtend 64 := by
  match field, h with
  | [_, _, _, _], _ => rfl

theorem addToDword_length {code : List Byte} {offset : Nat} (delta : BitVec 32)
    (h : offset + 4 ≤ code.length) : (addToDword code offset delta).length = code.length := by
  simp only [addToDword, List.length_append, List.length_take, List.length_drop, putWord_length]
  omega

/-- The code as a number, before and after the dword at the offset has been changed. -/
theorem fieldValue_addToDword {code : List Byte} {offset : Nat} (delta : BitVec 32)
    (h : offset + 4 ≤ code.length) :
    ∃ a b d : Nat, d < 2 ^ 32 ∧ fieldValue code = a + 256 ^ offset * (d + 2 ^ 32 * b) ∧
      fieldValue (addToDword code offset delta) =
        a + 256 ^ offset * ((d + delta.toNat) % 2 ^ 32 + 2 ^ 32 * b) := by
  have hlen : ((code.drop offset).take 4).length = 4 := by
    rw [List.length_take, List.length_drop]; omega
  have hoff : (code.take offset).length = offset := by rw [List.length_take]; omega
  have h4 : 256 ^ 4 = 2 ^ 32 := by norm_num
  have hd := fieldValue_lt ((code.drop offset).take 4)
  rw [hlen, h4] at hd
  refine ⟨fieldValue (code.take offset), fieldValue (code.drop (offset + 4)),
    fieldValue ((code.drop offset).take 4), hd, ?_, ?_⟩
  · conv_lhs =>
      rw [← List.take_append_drop offset code, ← List.take_append_drop 4 (code.drop offset)]
    rw [fieldValue_append, fieldValue_append, hlen, hoff, List.drop_drop, h4]
  · rw [addToDword, fieldValue_append, fieldValue_append, fieldValue_putWord, hoff, putWord_length,
      h4, BitVec.toNat_add, BitVec.toNat_ofNat, Nat.mod_eq_of_lt hd]

/-! ## Copies that are not corrected -/

theorem copyCommand_self {code : List Byte} {n : Nat} (h : code.length = n) :
    copyCommand code n = .ok code := by
  rw [copyCommand, if_neg (by omega), List.take_of_length_le (by omega)]

theorem moveCommand_verbatim {r : ParserResult} {code : List Byte} {old new : Addr}
    (h : needsCorrection r = false) (hs : code.length = r.fullCmdSize) :
    moveCommand r code old new = .ok code := by
  rw [moveCommand, if_neg (by rw [h]; decide), copyCommand_self hs]

theorem add_toNat_mod (a b : Addr) {n : Nat} (hn : n ≤ 64) :
    (a + b).toNat % 2 ^ n = (a.toNat + b.toNat) % 2 ^ n := by
  rw [BitVec.toNat_add, Nat.mod_mod_of_dvd _ (pow_dvd_pow 2 hn)]

theorem add_toNat_mod_eq_iff (a b c : Addr) (n : Nat) :
    (a + c).toNat % 2 ^ n = (b + c).toNat % 2 ^ n ↔ a.toNat % 2 ^ n = b.toNat % 2 ^ n := by
  by_cases hn : n ≤ 64
  · rw [add_toNat_mod a c hn, add_toNat_mod b c hn]
    exact ⟨Nat.ModEq.add_right_cancel' _, Nat.ModEq.add_right _⟩
  · have hlt (x : Addr) : x.toNat % 2 ^ n = x.toNat :=
      Nat.mod_eq_of_lt (x.isLt.trans_le (Nat.pow_le_pow_right (by decide) (by omega)))
    rw [hlt, hlt, hlt, hlt, ← BitVec.toNat_eq, ← BitVec.toNat_eq]
    exact add_left_inj c

/-- The same instruction at two addresses goes to one address only if the two are one. -/
theorem target_eq_iff (mode : Mode) {r : ParserResult} {offset size : Nat} {value : BitVec 64}
    (h : r.linkedOperands.getLast? = some (.rel offset size value)) (old new : Addr) :
    target mode r new = target mode r old ↔
      new.toNat % 2 ^ targetBits mode r.operandSize =
      old.toNat % 2 ^ targetBits mode r.operandSize := by
  simp only [target, h, Option.some.injEq]
  rw [add_toNat_mod_eq_iff, add_toNat_mod_eq_iff]

/-! ## The displacement of a corrected branch -/

/-- A dword added at offset 1 does not move the displacement behind it by as much, when the
displacement is not at offset 1 too: `H` and `op` are what is in front of the displacement `d`, and
`x` is the dword that is changed. -/
theorem correction_misplaced {n : Nat} (h1 : 1 ≤ n) (h2 : n ≤ 10) {H H' op d d' a b x δ : Nat}
    (hH : H < 256 ^ n) (hH' : H' < 256 ^ n) (hd : d < 2 ^ 32) (hx : x < 2 ^ 32)
    (hδ : δ < 2 ^ 32)
    (hN : H + 256 ^ n * (op + 256 * d) = a + 256 * (x + 2 ^ 32 * b))
    (hN' : H' + 256 ^ n * (op + 256 * d') = a + 256 * ((x + δ) % 2 ^ 32 + 2 ^ 32 * b))
    (he : d' = (d + δ) % 2 ^ 32) : δ = 0 := by
  -- whether the two sums wrap decides the signs of what is added to each
  have hu : (x + δ) % 2 ^ 32 = x + δ ∨ (x + δ) % 2 ^ 32 + 2 ^ 32 = x + δ := by omega
  have hv : d' = d + δ ∨ d' + 2 ^ 32 = d + δ := by omega
  clear he
  generalize (x + δ) % 2 ^ 32 = x' at *
  rcases hu with hu | hu <;> rcases hv with hv | hv <;> interval_cases n <;> omega

theorem putWord_fieldValue {field : List Byte} (h : field.length = 4) :
    putWord (BitVec.ofNat 32 (fieldValue field)) = field := by
  match field, h with
  | [a, b, c, d], _ =>
    have ha := a.isLt
    have hb := b.isLt
    have hc := c.isLt
    have hd := d.isLt
    simp only [putWord, List.cons.injEq, and_true]
    refine ⟨?_, ?_, ?_, ?_⟩ <;> apply BitVec.eq_of_toNat_eq <;>
      simp only [BitVec.toNat_setWidth, BitVec.toNat_ushiftRight, Nat.shiftRight_eq_div_pow,
        BitVec.toNat_ofNat, fieldValue_cons] <;>
      simp only [fieldValue, List.map_nil, Nat.ofDigits_nil] <;> omega

theorem addToDword_zero {code : List Byte} {offset : Nat} (h : offset + 4 ≤ code.length) :
    addToDword code offset 0 = code := by
  have hlen : ((code.drop offset).take 4).length = 4 := by
    rw [List.length_take, List.length_drop]; omega
  have hzero (w : Word) : w + 0 = w := BitVec.add_zero w
  rw [addToDword, hzero, putWord_fieldValue hlen, ← List.drop_drop, List.take_append_drop,
    List.take_append_drop]

/-- The distance from the copy to the target fits a signed displacement of 32 bits. -/
def InReach (r : ParserResult) (old new : Addr) : Prop :=
  -2 ^ 31 ≤ (old + relValue r - new).toInt ∧ (old + relValue r - new).toInt < 2 ^ 31

/-- The instruction is not moved; or its correction is right: the displacement follows a one-byte
opcode without prefixes, and reaches; or it is moved to where it is. -/
def MovesRight {mode : Mode} (i : RelInstruction mode) (old new : Addr) : Prop :=
  (needsCorrection i.result = true ∧ relFieldSize i.result ≠ 4) ∨
  (needsCorrection i.result = true ∧ i.code.length = 5 ∧
    (mode = .mode64 → InReach i.result old new)) ∨
  new.toNat % 2 ^ targetBits mode i.result.operandSize =
    old.toNat % 2 ^ targetBits mode i.result.operandSize

section Shapes

variable {mode : Mode} {code : List Byte} {r : ParserResult}

theorem Shape.getLast (s : Shape code r) :
    r.linkedOperands.getLast? = some (.rel 1 s.field.length (readSigned s.field)) := by
  rw [s.operands, List.getLast?_concat]

theorem Shape.relFieldSize_eq (s : Shape code r) : relFieldSize r = s.field.length := by
  simp only [relFieldSize, s.getLast]

/-- What decides on the correction stands in the entry. -/
theorem Shape.needsCorrection_eq (s : Shape code r) :
    needsCorrection r =
      (s.info.linkedInfo.any (fun info => info.canChangeRip && !info.ret) &&
        s.info.operandsBefore.isEmpty) := by
  have h1 : r.info.linkedInfo = s.info.linkedInfo := by rw [s.info_eq]
  simp only [needsCorrection, h1, s.operands]
  cases s.info.linkedInfo with
  | none => rfl
  | some info =>
    cases s.info.operandsBefore with
    | nil => simp
    | cons a l => cases l <;> simp

theorem Shape.opcode_ne_nil (s : Shape code r) : s.info.opcode ≠ [] := by
  rcases findRel_cases s.found with ⟨op, h⟩ | h | ⟨op, h | ⟨op2, h⟩⟩ | h <;> rw [h] <;>
    exact List.cons_ne_nil _ _

/-- The displacement behind the last byte of the opcode. -/
theorem Shape.split (s : Shape code r) (hs : code.length = r.fullCmdSize) :
    ∃ head op, code = head ++ op :: s.field ∧ s.info.opcode.getLast? = some op ∧
      head.length + 1 + s.field.length = r.fullCmdSize := by
  have hrest : s.rest = [] := by
    have h := congrArg List.length s.code_eq
    rw [hs, s.size] at h
    simp only [List.length_append] at h
    exact List.eq_nil_of_length_eq_zero (by omega)
  refine ⟨s.start ++ s.info.opcode.dropLast, s.info.opcode.getLast s.opcode_ne_nil, ?_, ?_, ?_⟩
  · have h := List.dropLast_append_getLast s.opcode_ne_nil
    conv_lhs => rw [s.code_eq, hrest, ← h]
    simp
  · exact List.getLast?_eq_getLast_of_ne_nil s.opcode_ne_nil
  · have := List.length_pos_of_ne_nil s.opcode_ne_nil
    rw [List.length_append, List.length_dropLast, s.size]
    omega

theorem moveCommand_corrected (s : Shape code r) (hs : code.length = r.fullCmdSize)
    (h : needsCorrection r = true) (h4 : s.field.length = 4) (old new : Addr) :
    moveCommand r code old new =
      .ok (addToDword code 1 (old.setWidth 32 - new.setWidth 32)) := by
  have hb : s.info.operandsBefore = [] := by
    rw [s.needsCorrection_eq, Bool.and_eq_true, List.isEmpty_iff] at h
    exact h.2
  rw [moveCommand, if_pos h, s.operands, hb, h4, copyCommand_self hs]
  rfl

theorem moveCommand_refused (s : Shape code r) (h : needsCorrection r = true)
    (h4 : s.field.length ≠ 4) (old new : Addr) : moveCommand r code old new = .error .error := by
  have hb : s.info.operandsBefore = [] := by
    rw [s.needsCorrection_eq, Bool.and_eq_true, List.isEmpty_iff] at h
    exact h.2
  rw [moveCommand, if_pos h, s.operands, hb]
  split
  · next h1 =>
    simp only [List.nil_append, List.cons.injEq, LinkedOperand.rel.injEq] at h1
    exact absurd h1.1.2.1 h4
  · rfl

/-- A copy without a change goes to the same address only from the same address. -/
theorem keepsTarget_self {i : RelInstruction mode} {old new : Addr}
    (h : moveCommand i.result i.code old new = .ok i.code) :
    KeepsTarget i old new ↔
      new.toNat % 2 ^ targetBits mode i.result.operandSize =
        old.toNat % 2 ^ targetBits mode i.result.operandSize := by
  obtain ⟨s⟩ := parseRel_shape i.parses
  rw [← target_eq_iff mode s.getLast old new]
  constructor
  · intro hk
    obtain ⟨r', hp, -, ht⟩ := hk _ h
    rw [i.parses] at hp
    cases hp
    exact ht
  · intro ht copy hc
    rw [h] at hc
    cases hc
    exact ⟨i.result, i.parses, ⟨rfl, rfl, rfl, rfl⟩, ht⟩

theorem setWidth_signExtend (v : BitVec 32) : (v.signExtend 64).setWidth 32 = v := by
  apply BitVec.eq_of_getLsbD_eq
  intro k hk
  rw [BitVec.getLsbD_setWidth, BitVec.getLsbD_signExtend]
  simp [hk, show k < 64 by omega]

theorem setWidth_eq_of_mod_eq {a b : Addr} {n : Nat} (hn : 32 ≤ n)
    (h : a.toNat % 2 ^ n = b.toNat % 2 ^ n) : a.setWidth 32 = b.setWidth 32 := by
  apply BitVec.eq_of_toNat_eq
  rw [BitVec.toNat_setWidth, BitVec.toNat_setWidth]
  exact Nat.ModEq.of_dvd (pow_dvd_pow 2 hn) h

theorem Mode.le_bits (mode : Mode) : 32 ≤ mode.bits := by
  cases mode <;> simp [Mode.bits]

theorem add_add_sub {a b l d : BitVec 32} : b + l + (d + (a - b)) = a + l + d := by
  ring

theorem eq_add_sub_of_add_eq {a b l d d' : BitVec 32} (h : b + l + d' = a + l + d) :
    d' = d + (a - b) := by
  linear_combination h

/-- The displacement is not where the correction is: the copy goes elsewhere, unless nothing is
added. -/
theorem setWidth_eq_of_misplaced {i : RelInstruction mode} (s : Shape i.code i.result)
    (hc : needsCorrection i.result = true) (h4 : s.field.length = 4)
    (ho : i.result.operandSize ≠ 2) (hlen : 5 < i.code.length) {old new : Addr}
    (hk : KeepsTarget i old new) : new.setWidth 32 = old.setWidth 32 := by
  have hmove := moveCommand_corrected s i.size hc h4 old new
  obtain ⟨r', hp, ⟨hinfo, hsize, hop, hfield⟩, ht⟩ := hk _ hmove
  generalize hδ : old.setWidth 32 - new.setWidth 32 = δ at hp
  obtain ⟨s'⟩ := parseRel_shape hp
  have hcl : (addToDword i.code 1 δ).length = i.code.length := addToDword_length δ (by omega)
  obtain ⟨head, op, hcode, hlast, hl⟩ := s.split i.size
  obtain ⟨head', op', hcode', hlast', hl'⟩ := s'.split (by rw [hcl, i.size, hsize])
  have h4' : s'.field.length = 4 := by rw [← s'.relFieldSize_eq, hfield, s.relFieldSize_eq, h4]
  have hopcode : op' = op := by
    have : s'.info.toCmdInfo = s.info.toCmdInfo := by rw [← s'.info_eq, ← s.info_eq, hinfo]
    rw [this, hlast] at hlast'
    cases hlast'
    rfl
  -- the two displacements differ by the distance, as far as 32 bits go
  have hdisp : BitVec.ofNat 32 (fieldValue s'.field) =
      BitVec.ofNat 32 (fieldValue s.field) + δ := by
    simp only [target, s.getLast, s'.getLast, Option.some.injEq, hop, hsize, targetBits, if_neg ho]
      at ht
    have h32 := setWidth_eq_of_mod_eq mode.le_bits ht
    rw [readSigned_four h4, readSigned_four h4', BitVec.setWidth_add _ _ (by decide),
      BitVec.setWidth_add _ _ (by decide), BitVec.setWidth_add _ _ (by decide),
      BitVec.setWidth_add _ _ (by decide), setWidth_signExtend, setWidth_signExtend] at h32
    exact (eq_add_sub_of_add_eq h32).trans (by rw [hδ])
  -- so does the dword the correction changes, and it is not the same dword
  have hzero : δ.toNat = 0 := by
    obtain ⟨a, b, x, hx, hN, hN'⟩ := fieldValue_addToDword δ (show 1 + 4 ≤ i.code.length by omega)
    have hd := fieldValue_lt s.field
    have hd' := fieldValue_lt s'.field
    have hH := fieldValue_lt head
    have hH' := fieldValue_lt head'
    have hhead : head'.length = head.length := by omega
    have hmax := s.size_le
    have h256 : 256 ^ 4 = 2 ^ 32 := by norm_num
    rw [hcode, fieldValue_append, fieldValue_cons, pow_one] at hN
    rw [hcode', fieldValue_append, fieldValue_cons, hopcode, hhead, pow_one] at hN'
    rw [hhead] at hH'
    rw [h4, h256] at hd
    rw [h4', h256] at hd'
    have he := congrArg BitVec.toNat hdisp
    rw [BitVec.toNat_add, BitVec.toNat_ofNat, BitVec.toNat_ofNat, Nat.mod_eq_of_lt hd,
      Nat.mod_eq_of_lt hd'] at he
    have hlow : 1 ≤ head.length := by rw [i.size] at hlen; omega
    have hhigh : head.length ≤ 10 := by simp only [maxInstructionSize] at hmax; omega
    exact correction_misplaced hlow hhigh hH hH' hd hx δ.isLt hN hN' he
  have hz : δ = 0#32 := BitVec.eq_of_toNat_eq hzero
  rw [hz, BitVec.sub_eq_iff_eq_add, BitVec.zero_add] at hδ
  exact hδ.symm

/-- `call` and `jmp` with a displacement of 32 bits, and nothing in front of them. -/
def plainResult (mode : Mode) (op : Byte) (field : List Byte) : ParserResult :=
  linkRel (nearBranch [op]) 0 (linkedOpsize mode (nearBranch [op]).toCmdInfo 4) field

theorem parseRel_plain (mode : Mode) {op : Byte} (hop : op = 0xE8 ∨ op = 0xE9) {field : List Byte}
    (h4 : field.length = 4) : parseRel mode (op :: field) = some (plainResult mode op field) := by
  match field, h4 with
  | [a, b, c, d], _ =>
    rcases hop with rfl | rfl <;> cases mode <;> rfl

theorem target_plainResult (mode : Mode) (op : Byte) {field : List Byte} (h4 : field.length = 4)
    (address : Addr) :
    target mode (plainResult mode op field) address =
      some ((address + 5 + (BitVec.ofNat 32 (fieldValue field)).signExtend 64).toNat %
        2 ^ mode.bits) := by
  rw [← readSigned_four h4]
  match field, h4 with
  | [a, b, c, d], _ => cases mode <;> rfl

theorem relValue_plainResult (mode : Mode) (op : Byte) {field : List Byte} (h4 : field.length = 4) :
    relValue (plainResult mode op field) =
      (BitVec.ofNat 32 (fieldValue field)).signExtend 64 := by
  rw [← readSigned_four h4]
  rfl

/-- A value of 64 bits is its low half, sign-extended, when it is a signed number of 32 bits. -/
theorem signExtend_setWidth_iff (x : BitVec 64) :
    (x.setWidth 32).signExtend 64 = x ↔ -2 ^ 31 ≤ x.toInt ∧ x.toInt < 2 ^ 31 := by
  constructor
  · intro h
    have h1 := BitVec.le_two_mul_toInt (x := x.setWidth 32)
    have h2 := BitVec.two_mul_toInt_lt (x := x.setWidth 32)
    rw [← h, BitVec.toInt_signExtend_of_le (by decide)]
    omega
  · rintro ⟨h1, h2⟩
    exact Lib.signExtend_setWidth_of_fits (by decide) (by decide) h1 h2

/-- A displacement `d` corrected by the distance, in 64 bits: right if the new one is a signed
number of 32 bits. -/
theorem corrected_iff (d : Word) (old new : Addr) :
    new + 5 + (d + (old.setWidth 32 - new.setWidth 32)).signExtend 64 = old + 5 + d.signExtend 64 ↔
      -2 ^ 31 ≤ (old + d.signExtend 64 - new).toInt ∧
        (old + d.signExtend 64 - new).toInt < 2 ^ 31 := by
  have hd : d + (old.setWidth 32 - new.setWidth 32) =
      (old + d.signExtend 64 - new).setWidth 32 := by
    have hx : old + d.signExtend 64 = (old + d.signExtend 64 - new) + new := by ring
    have h := congrArg (BitVec.setWidth 32) hx
    rw [BitVec.setWidth_add _ _ (by decide), BitVec.setWidth_add _ _ (by decide),
      setWidth_signExtend] at h
    linear_combination h
  rw [hd, ← signExtend_setWidth_iff]
  constructor
  · intro h
    linear_combination h
  · intro h
    linear_combination h

/-- The displacement is where the correction is: the copy goes to the same address, if that is in
reach. -/
theorem target_plain (mode : Mode) (op : Byte) {field : List Byte} (h4 : field.length = 4)
    (old new : Addr) :
    target mode (plainResult mode op
        (putWord (BitVec.ofNat 32 (fieldValue field) + (old.setWidth 32 - new.setWidth 32)))) new =
      target mode (plainResult mode op field) old ↔
    (mode = .mode64 → InReach (plainResult mode op field) old new) := by
  rw [target_plainResult mode op h4, target_plainResult mode op (putWord_length _),
    fieldValue_putWord, BitVec.ofNat_toNat, BitVec.setWidth_eq, Option.some.injEq, InReach,
    relValue_plainResult mode op h4, ← corrected_iff]
  generalize BitVec.ofNat 32 (fieldValue field) = d
  cases mode with
  | mode32 =>
    refine ⟨fun _ h => (nomatch h), fun _ => ?_⟩
    have h : (new + 5 + (d + (old.setWidth 32 - new.setWidth 32)).signExtend 64).setWidth 32 =
        (old + 5 + d.signExtend 64).setWidth 32 := by
      rw [BitVec.setWidth_add _ _ (by decide), BitVec.setWidth_add _ _ (by decide),
        BitVec.setWidth_add _ _ (by decide), BitVec.setWidth_add _ _ (by decide),
        setWidth_signExtend, setWidth_signExtend]
      exact add_add_sub
    have h := congrArg BitVec.toNat h
    rwa [BitVec.toNat_setWidth, BitVec.toNat_setWidth] at h
  | mode64 =>
    rw [Mode.bits, Nat.mod_eq_of_lt (BitVec.isLt _), Nat.mod_eq_of_lt (BitVec.isLt _)]
    exact ⟨fun h _ => BitVec.eq_of_toNat_eq h, fun h => congrArg BitVec.toNat (h rfl)⟩

theorem keepsTarget_plain {i : RelInstruction mode} {op : Byte} (hop : op = 0xE8 ∨ op = 0xE9)
    {field : List Byte} (h4 : field.length = 4) (hcode : i.code = op :: field) (old new : Addr) :
    KeepsTarget i old new ↔ (mode = .mode64 → InReach i.result old new) := by
  have hr : i.result = plainResult mode op field := by
    have h := i.parses
    rw [hcode, parseRel_plain mode hop h4] at h
    exact (Option.some.inj h).symm
  have hmove : moveCommand i.result i.code old new =
      .ok (op :: putWord (BitVec.ofNat 32 (fieldValue field) +
        (old.setWidth 32 - new.setWidth 32))) := by
    rw [hr, hcode]
    match field, h4 with
    | [a, b, c, d], _ => rfl
  have hparse := parseRel_plain mode hop
    (putWord_length (BitVec.ofNat 32 (fieldValue field) + (old.setWidth 32 - new.setWidth 32)))
  rw [hr, ← target_plain mode op h4 old new]
  constructor
  · intro hk
    obtain ⟨r', hp, -, ht⟩ := hk _ hmove
    rw [hparse] at hp
    cases hp
    rw [ht, hr]
  · intro ht copy hc
    rw [hmove] at hc
    cases hc
    refine ⟨_, hparse, ⟨by rw [hr]; rfl, ?_, by rw [hr]; rfl, ?_⟩, by rw [ht, hr]⟩
    · rw [hr]
      simp [plainResult, linkRel, h4, putWord_length]
    · rw [hr]
      simp [relFieldSize, plainResult, linkRel, h4, putWord_length]

theorem nearBranch_one {op : Byte} {rest : List Byte}
    (h : findRel (op :: rest) = some (nearBranch [op])) : op = 0xE8 ∨ op = 0xE9 := by
  simp only [findRel] at h
  split_ifs at h with h1 h2 h3 h4 h5
  · cases h
  · cases h
  · exact h3
  · cases rest with
    | nil => cases h
    | cons op2 rest =>
      simp only [Option.ite_none_right_eq_some, Option.some.injEq] at h
      exact absurd (congrArg RelInfo.toCmdInfo h.2) (by simp [nearBranch])
  · cases rest with
    | nil => cases h
    | cons op2 rest =>
      simp only [Option.ite_none_right_eq_some, Option.some.injEq] at h
      exact absurd (congrArg RelInfo.toCmdInfo h.2) (by simp [nearBranch, xbegin])

theorem Shape.plain (s : Shape code r) (hs : code.length = r.fullCmdSize) {opcode : List Byte}
    (h : s.info = nearBranch opcode) (h4 : s.field.length = 4) (h5 : code.length = 5) :
    ∃ op, (op = 0xE8 ∨ op = 0xE9) ∧ code = op :: s.field := by
  obtain ⟨head, op, hcode, hlast, hlen⟩ := s.split hs
  have hhead : head = [] := List.eq_nil_of_length_eq_zero (by omega)
  have hone : s.info.opcode = [op] := by
    have := List.length_pos_of_ne_nil s.opcode_ne_nil
    have hsize := s.size
    obtain ⟨op', hop'⟩ := List.length_eq_one_iff.mp (show s.info.opcode.length = 1 by omega)
    rw [hop'] at hlast ⊢
    simpa using hlast
  have hfound := s.found
  rw [hone, List.singleton_append] at hfound
  have hop : opcode = [op] := by rw [← hone, h]; rfl
  rw [h, hop] at hfound
  rw [hhead] at hcode
  exact ⟨op, nearBranch_one hfound, hcode⟩

/-- A branch whose displacement has the operand size. -/
theorem keepsTarget_near {i : RelInstruction mode} (s : Shape i.code i.result) {opcode : List Byte}
    (h : s.info = nearBranch opcode) (h4 : s.field.length = 4) (old new : Addr) :
    KeepsTarget i old new ↔
      (i.code.length = 5 ∧ (mode = .mode64 → InReach i.result old new)) ∨
        new.toNat % 2 ^ targetBits mode i.result.operandSize =
          old.toNat % 2 ^ targetBits mode i.result.operandSize := by
  have hc : needsCorrection i.result = true := by rw [s.needsCorrection_eq, h]; rfl
  have ho : i.result.operandSize ≠ 2 := by
    intro h2
    have hf := s.field_length
    rw [h, h2, h4] at hf
    simp [relSize, nearBranch] at hf
  have hself (heq : new.setWidth 32 = old.setWidth 32) :
      moveCommand i.result i.code old new = .ok i.code := by
    have h5 : 1 + 4 ≤ i.code.length := by
      have := List.length_pos_of_ne_nil s.opcode_ne_nil
      rw [i.size, s.size, h4]; omega
    rw [moveCommand_corrected s i.size hc h4, heq, BitVec.sub_self]
    exact congrArg _ (addToDword_zero h5)
  have hplain (h5 : i.code.length = 5) :
      KeepsTarget i old new ↔ (mode = .mode64 → InReach i.result old new) := by
    obtain ⟨op, hop, hcode⟩ := s.plain i.size h h4 h5
    exact keepsTarget_plain hop h4 hcode old new
  constructor
  · intro hk
    by_cases h5 : i.code.length = 5
    · exact .inl ⟨h5, (hplain h5).mp hk⟩
    · have h6 : 5 < i.code.length := by
        have := List.length_pos_of_ne_nil s.opcode_ne_nil
        rw [i.size, s.size, h4] at h5 ⊢; omega
      exact .inr ((keepsTarget_self (hself (setWidth_eq_of_misplaced s hc h4 ho h6 hk))).mp hk)
  · rintro (⟨h5, hreach⟩ | heq)
    · exact (hplain h5).mpr hreach
    · have hbits : 32 ≤ targetBits mode i.result.operandSize := by
        rw [targetBits, if_neg ho]; exact mode.le_bits
      exact (keepsTarget_self (hself (setWidth_eq_of_mod_eq hbits heq))).mpr heq

end Shapes

/-- **Moved relative branches.** The moved copy goes where the original goes if and only if the
instruction is refused, or has the one form the correction is right for and stays in reach, or does
not move. -/
theorem keepsTarget_iff {mode : Mode} (i : RelInstruction mode) (old new : Addr) :
    KeepsTarget i old new ↔ MovesRight i old new := by
  obtain ⟨s⟩ := parseRel_shape i.parses
  have hrefused (h : needsCorrection i.result = true) (h4 : s.field.length ≠ 4) :
      KeepsTarget i old new := by
    intro copy hcopy
    rw [moveCommand_refused s h h4] at hcopy
    cases hcopy
  have hverbatim (h : needsCorrection i.result = false) :
      KeepsTarget i old new ↔ MovesRight i old new := by
    rw [keepsTarget_self (moveCommand_verbatim h i.size)]
    simp [MovesRight, h]
  have hcorrected (h : needsCorrection i.result = true) (opcode : List Byte)
      (hinfo : s.info = nearBranch opcode) : KeepsTarget i old new ↔ MovesRight i old new := by
    by_cases h4 : s.field.length = 4
    · rw [keepsTarget_near s hinfo h4]
      simp [MovesRight, h, s.relFieldSize_eq, h4]
    · exact iff_of_true (hrefused h h4) (.inl ⟨h, by rw [s.relFieldSize_eq]; exact h4⟩)
  have hneeds := s.needsCorrection_eq
  rcases findRel_cases s.found with ⟨op, hinfo⟩ | hinfo | ⟨op, hinfo | ⟨op2, hinfo⟩⟩ | hinfo
  · have h : needsCorrection i.result = true := by rw [hneeds, hinfo]; rfl
    have h4 : s.field.length ≠ 4 := by
      rw [s.field_length, hinfo]
      simp [relSize, shortBranch]
    exact iff_of_true (hrefused h h4) (.inl ⟨h, by rw [s.relFieldSize_eq]; exact h4⟩)
  · exact hverbatim (by rw [hneeds, hinfo]; rfl)
  · exact hcorrected (by rw [hneeds, hinfo]; rfl) _ hinfo
  · exact hcorrected (by rw [hneeds, hinfo]; rfl) _ hinfo
  · exact hverbatim (by rw [hneeds, hinfo]; rfl)

/-- `je` over 16 bytes, in its near form. -/
def jeNear : RelInstruction .mode64 where
  code := [0x0F, 0x84, 0x10, 0, 0, 0]
  result :=
    { info := { opcode := [0x0F, 0x84], linkedInfo := branchInfo }
      fullCmdSize := 6
      operandSize := 8
      linkedOperands := [.rel 1 4 0x10] }
  parses := by decide +kernel
  size := rfl

/-- The correction goes to the second byte of the opcode: the copy at 0x2000 is `je` to 0x2006. -/
theorem jeNear_moved : ¬ KeepsTarget jeNear 0x1000 0x2000 := by
  intro h
  have hmove : moveCommand jeNear.result jeNear.code 0x1000 0x2000 =
      .ok [0x0F, 0x84, 0, 0, 0, 0] := by decide +kernel
  obtain ⟨r, hp, -, ht⟩ := h _ hmove
  have hparse : parseRel .mode64 [0x0F, 0x84, 0, 0, 0, 0] =
      some { info := { opcode := [0x0F, 0x84], linkedInfo := branchInfo }
             fullCmdSize := 6
             operandSize := 8
             linkedOperands := [.rel 1 4 0] } := by decide +kernel
  rw [hparse] at hp
  cases hp
  revert ht
  decide +kernel

/-! ## RIP-relative operands -/

/-- `Diana_ParseCmd` on the code at an address, in 64-bit mode. -/
abbrev Decoder := List Byte → Except Status ParserResult

/-- An instruction with an operand relative to RIP: its bytes, and what they decode to. -/
structure RipInstruction (decode : Decoder) where
  code : List Byte
  result : ParserResult
  decodes : decode code = .ok result
  size : code.length = result.fullCmdSize
  ripRelative : ∃ addressSize dispValue, .ripIndex addressSize dispValue ∈ result.linkedOperands

/-- The memory an operand of an instruction at an address refers to, if it is relative to RIP: the
address of the next instruction, and the displacement, cut to the address size. -/
def LinkedOperand.ripAddress (fullCmdSize : Nat) (address : Addr) : LinkedOperand → Option Nat
  | .ripIndex addressSize dispValue =>
    some ((address + BitVec.ofNat 64 fullCmdSize + dispValue).toNat % 2 ^ (8 * addressSize))
  | _ => none

/-- The memory that the operands relative to RIP refer to. -/
def ripAddresses (r : ParserResult) (address : Addr) : List (Option Nat) :=
  r.linkedOperands.map (·.ripAddress r.fullCmdSize address)

/-- The instruction at `old`, if it is moved to `new`, still refers to the same memory. -/
def KeepsAddresses {decode : Decoder} (i : RipInstruction decode) (old new : Addr) : Prop :=
  ∀ copy, moveCommand i.result i.code old new = .ok copy →
    ∃ r, decode copy = .ok r ∧ ripAddresses r new = ripAddresses i.result old

/-- An instruction that refers to memory relative to RIP is copied as it is: a relative branch has
no other operand. -/
theorem RipInstruction.needsCorrection_eq {decode : Decoder} (i : RipInstruction decode) :
    needsCorrection i.result = false := by
  obtain ⟨addressSize, dispValue, h⟩ := i.ripRelative
  unfold needsCorrection
  split
  · next h1 =>
    rw [h1] at h
    simp at h
  · rfl

theorem LinkedOperand.ripAddress_eq_iff (fullCmdSize : Nat) (old new : Addr) (op : LinkedOperand) :
    op.ripAddress fullCmdSize new = op.ripAddress fullCmdSize old ↔
      ∀ addressSize dispValue, op = .ripIndex addressSize dispValue →
        new.toNat % 2 ^ (8 * addressSize) = old.toNat % 2 ^ (8 * addressSize) := by
  cases op with
  | ripIndex addressSize dispValue =>
    simp only [ripAddress, Option.some.injEq, add_toNat_mod_eq_iff]
    constructor
    · rintro h _ _ ⟨⟩
      exact h
    · intro h
      exact h _ _ rfl
  | rel offset size value => simp [ripAddress]
  | other => simp [ripAddress]

/-- **Moved RIP-relative operands.** The copy of an instruction with a RIP-relative operand refers
to the memory of the original if and only if it does not move, as far as the address size goes. -/
theorem keepsAddresses_iff {decode : Decoder} (i : RipInstruction decode) (old new : Addr) :
    KeepsAddresses i old new ↔
      ∀ addressSize dispValue, .ripIndex addressSize dispValue ∈ i.result.linkedOperands →
        new.toNat % 2 ^ (8 * addressSize) = old.toNat % 2 ^ (8 * addressSize) := by
  have hmove : moveCommand i.result i.code old new = .ok i.code :=
    moveCommand_verbatim i.needsCorrection_eq i.size
  have hmem : ripAddresses i.result new = ripAddresses i.result old ↔
      ∀ addressSize dispValue, .ripIndex addressSize dispValue ∈ i.result.linkedOperands →
        new.toNat % 2 ^ (8 * addressSize) = old.toNat % 2 ^ (8 * addressSize) := by
    rw [ripAddresses, ripAddresses, List.map_inj_left]
    constructor
    · intro h addressSize dispValue hop
      exact (LinkedOperand.ripAddress_eq_iff _ _ _ _).mp (h _ hop) _ _ rfl
    · intro h op hop
      refine (LinkedOperand.ripAddress_eq_iff _ _ _ _).mpr ?_
      rintro addressSize dispValue rfl
      exact h _ _ hop
  rw [← hmem]
  constructor
  · intro hk
    obtain ⟨r, hr, h⟩ := hk _ hmove
    rw [i.decodes] at hr
    cases hr
    exact h
  · intro h copy hc
    rw [hmove] at hc
    cases hc
    exact ⟨_, i.decodes, h⟩

/-- A decoder that knows `lea rax, [rip + disp32]`. -/
def decodeLea : Decoder
  | 0x48 :: 0x8D :: 0x05 :: a :: b :: c :: d :: _ =>
    .ok { info := { opcode := [0x8D], linkedInfo := none }
          fullCmdSize := 7
          operandSize := 8
          linkedOperands := [.other, .ripIndex 8 (readSigned [a, b, c, d])] }
  | _ => .error .error

/-- `lea rax, [rip + 0x10]` -/
def leaRip : RipInstruction decodeLea where
  code := [0x48, 0x8D, 0x05, 0x10, 0, 0, 0]
  result :=
    { info := { opcode := [0x8D], linkedInfo := none }
      fullCmdSize := 7
      operandSize := 8
      linkedOperands := [.other, .ripIndex 8 0x10] }
  decodes := by decide +kernel
  size := rfl
  ripRelative := ⟨8, 0x10, by decide⟩

/-- At 0x1000 the address is 0x1017, and the copy at 0x2000 loads 0x2017. -/
theorem leaRip_moved : ¬ KeepsAddresses leaRip 0x1000 0x2000 := by
  intro h
  have hmove : moveCommand leaRip.result leaRip.code 0x1000 0x2000 = .ok leaRip.code := by
    decide +kernel
  obtain ⟨r, hr, ht⟩ := h _ hmove
  rw [leaRip.decodes] at hr
  cases hr
  revert ht
  decide +kernel

end Diana.Patcher.X86
