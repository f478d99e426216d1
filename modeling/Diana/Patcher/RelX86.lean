import Mathlib.Data.Nat.Digits.Lemmas
import Diana.Decoder.PrefixRuns
import Diana.Patcher.MoveA64

/-!
# Relative branches of x86

What `Diana_ParseCmd` makes of the instructions whose operand is relative to the next instruction:
the prefixes, the entries of the opcode tables with a `diana_orRel` operand, and the operand
`Diana_LinkOperands` links for it. Every other instruction is left to a parameter (`Decoder`).

* `readPrefixes`, `findRel`, `linkRel`: the three parts, `parseRel` the whole;
* `readPrefixes_of_parsePrefixes`: the first one is the loop of the decoder;
* `parseRel_shape`: where the opcode and the displacement of such an instruction are.
-/

namespace Diana.Patcher.X86

open Diana.A64
open Diana.Decoder (isCustomPrefix parsePrefixes)

/-! ## Results of the decoder -/

/-- `DIANA_MODE32`, `DIANA_MODE64` -/
inductive Mode where
  | mode32
  | mode64
  deriving DecidableEq, Repr

/-- The width of the instruction pointer. -/
def Mode.bits : Mode → Nat
  | .mode32 => 32
  | .mode64 => 64

/-- `Diana_LinkedAdditionalGroupInfo`: the flags the patchers look at. -/
structure LinkedInfo where
  canChangeRip : Bool
  ret : Bool
  deriving DecidableEq, Repr

/-- `DianaCmdInfo`: the opcode of the entry, and the information its group is linked with. -/
structure CmdInfo where
  opcode : List Byte
  linkedInfo : Option LinkedInfo
  deriving DecidableEq, Repr

/-- `DianaLinkedOperand` -/
inductive LinkedOperand where
  /-- `diana_rel`: `iOffset`, `m_size` and `m_value` -/
  | rel (offset size : Nat) (value : BitVec 64)
  /-- `diana_index` on `reg_RIP`: `usedAddressSize` and `dispValue` -/
  | ripIndex (addressSize : Nat) (dispValue : BitVec 64)
  | other
  deriving DecidableEq, Repr

/-- `DianaParserResult` of an instruction that decodes. -/
structure ParserResult where
  info : CmdInfo
  fullCmdSize : Nat
  operandSize : Nat
  linkedOperands : List LinkedOperand
  deriving DecidableEq, Repr

/-! ## Prefixes -/

/-- `DI_REX_PREFIX_START` to `DI_REX_PREFIX_END`, in 64-bit mode only. -/
def isRex (mode : Mode) (data : Byte) : Bool := mode = .mode64 && Decoder.isRex data

/-- The loop of `Diana_ParseCmdEx` over the prefixes: what it takes and what it leaves. -/
def readPrefixes (mode : Mode) : List Byte → List Byte × List Byte
  | [] => ([], [])
  | data :: rest =>
    if isCustomPrefix data then (data :: (readPrefixes mode rest).1, (readPrefixes mode rest).2)
    else if isRex mode data && rest.head?.any isCustomPrefix then
      -- a REX before a legacy prefix has no effect
      (data :: (readPrefixes mode rest).1, (readPrefixes mode rest).2)
    else ([], data :: rest)

/-- `Di_ProcessRexPrefix` on what the loop leaves: the REX byte, if there is one, and the rest. -/
def readRex (mode : Mode) : List Byte → List Byte × List Byte
  | [] => ([], [])
  | data :: rest => if isRex mode data then ([data], rest) else ([], data :: rest)

/-- `iCurrentCmd_opsize` once the prefixes are applied. REX is applied last, so its W wins over an
operand size prefix. -/
def currentOpsize (prefixes rex : List Byte) : Nat :=
  if rex.any (fun data => data &&& 8 ≠ 0) then 8
  else if 0x66 ∈ prefixes then 2
  else 4

/-! ## Entries with a relative operand -/

/-- The part of an entry that `Diana_LinkOperands` uses for a relative operand. -/
structure RelInfo extends CmdInfo where
  /-- `m_iCSIPExtensionSizeInBytes` -/
  csipSize : Nat
  /-- `DI_FLAG_CMD_HAS32BIT_ANALOG` -/
  has32BitAnalog : Bool
  /-- the operands before the relative one -/
  operandsBefore : List LinkedOperand
  deriving DecidableEq, Repr

/-- Calls, jumps and loops: `g_infoForCalls`, `g_infoForJmps`, `g_infoForLoops`, `g_infoForJecxz`,
`g_infoForJcc`. -/
def branchInfo : Option LinkedInfo := some { canChangeRip := true, ret := false }

/-- `jo` to `jg`, the loops, `jmp`: an 8-bit displacement. -/
def shortBranch (opcode : Byte) : RelInfo where
  opcode := [opcode]
  linkedInfo := branchInfo
  csipSize := 1
  has32BitAnalog := false
  operandsBefore := []

/-- `jo` to `jg` behind 0F, `call`, `jmp`: the displacement has the operand size. -/
def nearBranch (opcode : List Byte) : RelInfo where
  opcode := opcode
  linkedInfo := branchInfo
  csipSize := 2
  has32BitAnalog := true
  operandsBefore := []

/-- `jcxz`, `jecxz`, `jrcxz`: the counter is the first operand. -/
def jecxz : RelInfo where
  opcode := [0xE3]
  linkedInfo := branchInfo
  csipSize := 1
  has32BitAnalog := true
  operandsBefore := [.other]

/-- `xbegin`: its group is not among those `InitJmps` links. -/
def xbegin : RelInfo where
  opcode := [0xC7, 0xF8]
  linkedInfo := none
  csipSize := 2
  has32BitAnalog := true
  operandsBefore := []

/-- The opcode tables on these entries. None of them has a mandatory prefix. -/
def findRel : List Byte → Option RelInfo
  | [] => none
  | op :: rest =>
    if op &&& 0xF0 = 0x70 ∨ op = 0xE0 ∨ op = 0xE1 ∨ op = 0xE2 ∨ op = 0xEB then
      some (shortBranch op)
    else if op = 0xE3 then some jecxz
    else if op = 0xE8 ∨ op = 0xE9 then some (nearBranch [op])
    else if op = 0x0F then
      match rest with
      | op2 :: _ => if op2 &&& 0xF0 = 0x80 then some (nearBranch [op, op2]) else none
      | [] => none
    else if op = 0xC7 then
      match rest with
      | op2 :: _ => if op2 = 0xF8 then some xbegin else none
      | [] => none
    else none

/-! ## Linking -/

/-- A little-endian field of the code. -/
def fieldValue (field : List Byte) : Nat :=
  Nat.ofDigits 256 (field.map BitVec.toNat)

/-- `DianaReadValueAsLong`, signed. -/
def readSigned (field : List Byte) : BitVec 64 :=
  (BitVec.ofNat (8 * field.length) (fieldValue field)).signExtend 64

/-- `iCurrentCmd_opsize` as `Diana_LinkOperands` leaves it: 64 bits by default for what changes
RIP. -/
def linkedOpsize (mode : Mode) (info : CmdInfo) (opsize : Nat) : Nat :=
  if mode = .mode64 ∧ info.linkedInfo.any (·.canChangeRip) ∧ opsize = 4 then 8 else opsize

/-- `value.rel.m_size` -/
def relSize (info : RelInfo) (opsize : Nat) : Nat :=
  let iCSIPSize := if info.has32BitAnalog ∧ info.csipSize ≠ 1 then opsize else info.csipSize
  if iCSIPSize = 8 then 4 else iCSIPSize

/-- `Diana_LinkOperands` on a relative entry. `iOffset` counts from the last byte of the opcode. -/
def linkRel (info : RelInfo) (start opsize : Nat) (field : List Byte) : ParserResult where
  info := info.toCmdInfo
  fullCmdSize := start + info.opcode.length + field.length
  operandSize := opsize
  linkedOperands := info.operandsBefore ++ [.rel 1 field.length (readSigned field)]

/-- `DI_MAX_INSTRUCTION_SIZE` -/
def maxInstructionSize : Nat := 15

/-- `Diana_ParseCmd` on the code at an address, for the instructions with a relative operand. No
branch can be locked, and no instruction is longer than `maxInstructionSize`. -/
def parseRel (mode : Mode) (code : List Byte) : Option ParserResult := do
  let (prefixes, afterPrefixes) := readPrefixes mode code
  let (rex, afterRex) := readRex mode afterPrefixes
  let info ← findRel afterRex
  let opsize := linkedOpsize mode info.toCmdInfo (currentOpsize prefixes rex)
  let field := (afterRex.drop info.opcode.length).take (relSize info opsize)
  guard (field.length = relSize info opsize)
  guard (0xF0 ∉ prefixes)
  let result := linkRel info (prefixes.length + rex.length) opsize field
  guard (result.fullCmdSize ≤ maxInstructionSize)
  return result

/-! ## Fields -/

theorem fieldValue_append (a b : List Byte) :
    fieldValue (a ++ b) = fieldValue a + 256 ^ a.length * fieldValue b := by
  simp [fieldValue, Nat.ofDigits_append]

theorem fieldValue_cons (a : Byte) (b : List Byte) :
    fieldValue (a :: b) = a.toNat + 256 * fieldValue b := by
  simp [fieldValue, Nat.ofDigits_cons]

theorem fieldValue_lt (a : List Byte) : fieldValue a < 256 ^ a.length := by
  have h := Nat.ofDigits_lt_base_pow_length (b := 256) (l := a.map BitVec.toNat) (by omega) (by
    intro x hx
    obtain ⟨y, -, rfl⟩ := List.mem_map.mp hx
    exact y.isLt)
  simpa [fieldValue] using h

/-! ## Where the parts are -/

theorem readPrefixes_append (mode : Mode) (code : List Byte) :
    (readPrefixes mode code).1 ++ (readPrefixes mode code).2 = code := by
  induction code with
  | nil => rfl
  | cons data rest ih =>
    rw [readPrefixes]
    split
    · simp [ih]
    · split
      · simp [ih]
      · rfl

/-- `readPrefixes` takes what the loop of the decoder takes before the byte it returns. -/
theorem readPrefixes_of_parsePrefixes {mode : Mode} {n : Nat} {first nop : Bool}
    {c d : Decoder.Context} {f g : Decoder.Feed} {data : Byte} (hf : f.Ready)
    (hmode : c.amd64Mode = decide (mode = .mode64))
    (h : parsePrefixes n first nop ⟨c, f⟩ = .ok (some data) ⟨d, g⟩) :
    ∃ prefixes, readPrefixes mode f.bytes = (prefixes, data :: g.bytes) := by
  induction n generalizing first nop c f with
  | zero => cases h
  | succ n ih =>
    cases hb : f.bytes with
    | nil =>
      rw [Decoder.parsePrefixes_of_bytes_eq_nil _ _ hb] at h
      cases h
    | cons b rest =>
      obtain ⟨g', hg', hrest, hturn⟩ := Decoder.parsePrefixes_succ (n := n) (c := c) first nop hf hb
      have hrex : isRex mode b = (c.amd64Mode && Decoder.isRex b) := by rw [isRex, hmode]
      rw [hturn] at h
      rw [readPrefixes, hrex]
      by_cases h90 : ((first || !nop) && b == 0x90) = true
      · rw [if_pos h90] at h
        cases h
      rw [if_neg h90] at h
      by_cases hcustom : isCustomPrefix b = true
      · rw [if_pos hcustom] at h ⊢
        cases hi : Decoder.insertPrefix c b false with
        | error e =>
          rw [hi] at h
          cases h
        | ok c' =>
          rw [hi] at h
          obtain ⟨prefixes, hp⟩ := ih hg' ((Decoder.insertPrefix_amd64Mode hi).trans hmode) h
          rw [hrest] at hp
          exact ⟨b :: prefixes, by rw [hp]⟩
      rw [if_neg hcustom] at h ⊢
      by_cases hr : (c.amd64Mode && Decoder.isRex b) = true
      · rw [if_pos hr] at h
        by_cases hnext : rest.head?.any isCustomPrefix = true
        · -- a REX before a legacy prefix
          rw [if_pos hnext] at h
          obtain ⟨prefixes, hp⟩ := ih (hg'.fill false) hmode h
          rw [Decoder.Feed.fill_bytes, hrest] at hp
          rw [if_pos (by rw [hr, hnext]; rfl)]
          exact ⟨b :: prefixes, by rw [hp]⟩
        · rw [if_neg hnext] at h
          cases h
          rw [if_neg (by simp [hnext]), Decoder.Feed.fill_bytes, hrest]
          exact ⟨[], rfl⟩
      · rw [if_neg hr] at h
        cases h
        rw [if_neg (by simp [hr]), hrest]
        exact ⟨[], rfl⟩

theorem readRex_append (mode : Mode) (code : List Byte) :
    (readRex mode code).1 ++ (readRex mode code).2 = code := by
  cases code with
  | nil => rfl
  | cons data rest =>
    rw [readRex]
    split <;> rfl

/-- The opcode found is at the front of the code. -/
theorem findRel_opcode {code : List Byte} {info : RelInfo} (h : findRel code = some info) :
    code = info.opcode ++ code.drop info.opcode.length := by
  cases code with
  | nil => cases h
  | cons op rest =>
    simp only [findRel] at h
    split_ifs at h with h1 h2 h3 h4 h5
    · cases h; rfl
    · cases h; simp [jecxz, h2]
    · cases h; rfl
    · cases rest with
      | nil => cases h
      | cons op2 rest =>
        simp only [Option.ite_none_right_eq_some, Option.some.injEq] at h
        obtain ⟨-, rfl⟩ := h
        rfl
    · cases rest with
      | nil => cases h
      | cons op2 rest =>
        simp only [Option.ite_none_right_eq_some, Option.some.injEq] at h
        obtain ⟨rfl, rfl⟩ := h
        simp [xbegin, h5]

theorem findRel_cases {code : List Byte} {info : RelInfo} (h : findRel code = some info) :
    (∃ op, info = shortBranch op) ∨ info = jecxz ∨
      (∃ op, info = nearBranch [op] ∨ ∃ op2, info = nearBranch [op, op2]) ∨ info = xbegin := by
  cases code with
  | nil => cases h
  | cons op rest =>
    simp only [findRel] at h
    split_ifs at h
    · cases h; exact .inl ⟨op, rfl⟩
    · cases h; exact .inr (.inl rfl)
    · cases h; exact .inr (.inr (.inl ⟨op, .inl rfl⟩))
    · cases rest with
      | nil => cases h
      | cons op2 rest =>
        simp only [Option.ite_none_right_eq_some, Option.some.injEq] at h
        exact .inr (.inr (.inl ⟨op, .inr ⟨op2, h.2.symm⟩⟩))
    · cases rest with
      | nil => cases h
      | cons op2 rest =>
        simp only [Option.ite_none_right_eq_some, Option.some.injEq] at h
        exact .inr (.inr (.inr h.2.symm))

/-- A relative instruction: its prefixes, the opcode of its entry, the displacement. -/
structure Shape (code : List Byte) (r : ParserResult) where
  start : List Byte
  info : RelInfo
  field : List Byte
  rest : List Byte
  code_eq : code = start ++ (info.opcode ++ (field ++ rest))
  found : findRel (info.opcode ++ (field ++ rest)) = some info
  field_length : field.length = relSize info r.operandSize
  info_eq : r.info = info.toCmdInfo
  size : r.fullCmdSize = start.length + info.opcode.length + field.length
  operands : r.linkedOperands = info.operandsBefore ++ [.rel 1 field.length (readSigned field)]
  size_le : r.fullCmdSize ≤ maxInstructionSize

theorem parseRel_shape {mode : Mode} {code : List Byte} {r : ParserResult}
    (h : parseRel mode code = some r) : Nonempty (Shape code r) := by
  simp only [parseRel, Option.bind_eq_bind, Option.bind_eq_some_iff] at h
  obtain ⟨info, hi, u, hf, -, -, v, hs, hr⟩ := h
  rw [Option.guard_eq_some'] at hf hs
  cases hr
  have h1 := readPrefixes_append mode code
  have h2 := readRex_append mode (readPrefixes mode code).2
  have h3 := findRel_opcode hi
  generalize (readPrefixes mode code).1 = prefixes at *
  generalize (readPrefixes mode code).2 = afterPrefixes at *
  generalize (readRex mode afterPrefixes).1 = rex at *
  generalize (readRex mode afterPrefixes).2 = afterRex at *
  generalize linkedOpsize mode info.toCmdInfo (currentOpsize prefixes rex) = opsize at *
  have h4 := List.take_append_drop (relSize info opsize) (afterRex.drop info.opcode.length)
  refine ⟨⟨prefixes ++ rex, info, (afterRex.drop info.opcode.length).take (relSize info opsize),
    (afterRex.drop info.opcode.length).drop (relSize info opsize), ?_, ?_, hf, rfl,
    by rw [List.length_append]; rfl, rfl, hs⟩⟩
  · rw [h4, ← h3, List.append_assoc, h2, h1]
  · rw [h4, ← h3]
    exact hi

end Diana.Patcher.X86
