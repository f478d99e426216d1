import Diana.A32.Decode
import Diana.Lib.LittleEndian
import Diana.Status

/-!
# IT blocks in T32

`DianaA32_DecodeT32` keeps ITSTATE in the low byte of the context's `iArmFlags`: an `it` sets it,
every other instruction advances it by a shift, and what it says goes into the prefix of the result.

* `decodeT32`, `parseCmdT32`, `resetItState`: the calls that use it;
* `itBlock`: the conditions of the instructions that an `it` covers; `pending`: those
  that a state stands for;
* `Follows`: what a run of calls reports goes along with the conditions that are pending;
* `t32_follows_itState`: every run does.

A condition field of an instruction's own (`B<c>`) comes before the condition of the block.
-/

namespace Diana.A32

open Diana.Lib
open Diana.A64 (Word Byte)

/-! ## The decoder -/

/-- `DianaContext`, as far as `iArmFlags` goes. -/
structure Context where
  iArmFlags : BitVec 32
  deriving DecidableEq, Repr

/-- The IT state, `iArmFlags & 0xFF`. -/
def Context.state (c : Context) : BitVec 8 := c.iArmFlags.setWidth 8

def Context.setState (c : Context) (state : BitVec 8) : Context :=
  ⟨(c.iArmFlags &&& ~~~0xFF#32) ||| state.setWidth 32⟩

/-- `AdvanceIt` -/
def advanceIt (state : BitVec 8) : BitVec 8 :=
  if state &&& 7 = 0 then 0 else (state &&& 0xE0) ||| ((state <<< 1) &&& 0x1F)

/-- The T32 entries: `Lookup`, and the `.inst` command of a word it finds nothing for
(`GetUndefinedCmd`). -/
structure T32Tables where
  lookup : Word → Option CmdInfo
  undefinedCmd : Word → CmdInfo

/-- `DianaParserResult`; the word is kept for its fields. -/
structure T32Result where
  info : CmdInfo
  word : Word
  iPrefix : BitVec 32
  linkedOperands : List LinkedOperand
  iFullCmdSize : Nat
  bytes : List Byte
  deriving DecidableEq, Repr

/-- `DianaA32_GetT32Size` -/
def getT32Size (hw1 : BitVec 32) : Nat := if 0x1D ≤ (hw1 >>> 11) &&& 0x1F then 4 else 2

/-- The condition in the prefix: the instruction's own, else that of the block. `.inst` has none. -/
def prefixCond (found : Option CmdInfo) (word : Word) (state : BitVec 8) : BitVec 32 :=
  match found with
  | none => 14
  | some info =>
    match info.condLsb with
    | some lsb => (word >>> lsb) &&& 15
    | none => if state &&& 0x0F ≠ 0 then (state >>> 4).setWidth 32 else 14

/-- `DIANA_A32_PREFIX_IN_IT`, `DIANA_A32_PREFIX_NOT_LAST` and the condition of the
block, with a condition. -/
def withItState (cond : BitVec 32) (state : BitVec 8) : BitVec 32 :=
  if state &&& 0x0F ≠ 0 then
    let inBlock := cond ||| (0x10 ||| ((state >>> 4).setWidth 32 <<< 8))
    if advanceIt state ≠ 0 then inBlock ||| 0x20 else inBlock
  else cond

/-- `DianaA32_DecodeT32` -/
def decodeT32 (T : T32Tables) (c : Context) (hw1 hw2 : BitVec 32) : T32Result × Context :=
  let size := getT32Size hw1
  let word := ((hw1 &&& 0xFFFF) <<< 16) ||| (if size = 4 then hw2 &&& 0xFFFF else 0)
  let found := T.lookup word
  let info := found.getD (T.undefinedCmd word)
  let halfword (hw : BitVec 32) : List Byte := [hw.setWidth 8, (hw >>> 8).setWidth 8]
  ({ info := info
     word := word
     iPrefix := withItState (prefixCond found word c.state) c.state
     linkedOperands := info.operands.map (fillOperand info.size · word)
     iFullCmdSize := size
     bytes := halfword hw1 ++ if size = 4 then halfword hw2 else [] },
   c.setState (if info.cmd = .it then hw1.setWidth 8 else advanceIt c.state))

/-- `DianaA32_ResetItState` -/
def resetItState (c : Context) : Context := ⟨c.iArmFlags &&& ~~~0xFF#32⟩

/-- `DianaReadStream` over a state `σ`. -/
abbrev ReadStream (σ : Type) := σ → Nat → Except Status (List Byte) × σ

/-- What a call of the parser leaves: without a result, `iFullCmdSize` is the number of
bytes that were there. -/
structure Parsed (σ : Type) where
  result : Except Status T32Result
  iFullCmdSize : Nat
  context : Context
  stream : σ

variable {σ : Type}

/-- A halfword of the stream. -/
def halfwordOf (bs : List Byte) : BitVec 32 := BitVec.ofNat 32 (leNat bs)

/-- `DianaA32_ParseCmd` for `DIANA_ARCH_THUMB`. -/
def parseCmdT32 (T : T32Tables) (S : ReadStream σ) (c : Context) (s : σ) : Parsed σ :=
  let decoded (hw1 hw2 : BitVec 32) (s : σ) : Parsed σ :=
    let (r, c) := decodeT32 T c hw1 hw2
    ⟨.ok r, r.iFullCmdSize, c, s⟩
  match S s 2 with
  | (.error e, s) => ⟨.error e, 0, c, s⟩
  | (.ok [], s) => ⟨.error .ended, 0, c, s⟩
  | (.ok bs, s) =>
    if bs.length ≠ 2 then ⟨.error .endOfStream, bs.length, c, s⟩
    else if getT32Size (halfwordOf bs) = 4 then
      match S s 2 with
      | (.error e, s) => ⟨.error e, 0, c, s⟩
      | (.ok bs', s) =>
        if bs'.length ≠ 2 then ⟨.error .endOfStream, 2 + bs'.length, c, s⟩
        else decoded (halfwordOf bs) (halfwordOf bs') s
    else decoded (halfwordOf bs) 0 s

/-! ## What a prefix says -/

/-- `DianaA32_GetCondition` -/
def T32Result.cond (r : T32Result) : BitVec 4 := r.iPrefix.setWidth 4

/-- `DIANA_A32_PREFIX_IN_IT` -/
def T32Result.inIt (r : T32Result) : Bool := r.iPrefix.getLsbD 4

/-- `DIANA_A32_PREFIX_NOT_LAST` -/
def T32Result.notLast (r : T32Result) : Bool := r.iPrefix.getLsbD 5

/-- `DIANA_A32_PREFIX_IT_SHIFT` -/
def T32Result.itCond (r : T32Result) : BitVec 4 := r.iPrefix.extractLsb' 8 4

/-! ## Blocks -/

/-- The zeros below the lowest bit that is set. -/
def trailingZeros (mask : BitVec 4) : Nat := (List.range 4).findIdx fun i => mask.getLsbD i

/-- The condition with its lowest bit replaced: itself or its inverse. -/
def withLowBit (cond : BitVec 4) (b : Bool) : BitVec 4 := (cond &&& 14) ||| (if b then 1 else 0)

/-- The conditions of the instructions behind an `it`. -/
def itBlock (firstcond mask : BitVec 4) : List (BitVec 4) :=
  (List.range (4 - trailingZeros mask)).map fun k =>
    if k = 0 then firstcond else withLowBit firstcond (mask.getLsbD (4 - k))

/-- The conditions of the next instructions, `n` of them at most. -/
def pendingFor : Nat → BitVec 8 → List (BitVec 4)
  | 0, _ => []
  | n + 1, state =>
    if state.setWidth 4 = 0#4 then [] else state.extractLsb' 4 4 :: pendingFor n (advanceIt state)

/-- The conditions of the instructions that are left in the block. -/
def pending (state : BitVec 8) : List (BitVec 4) := pendingFor 4 state

/-- An `it` covers what its mask says. -/
theorem pending_it (firstcond mask : BitVec 4) :
    pending (firstcond ++ mask) = itBlock firstcond mask := by
  revert firstcond mask
  decide +kernel

/-- Advancing takes off one instruction. -/
theorem pending_advanceIt (state : BitVec 8) :
    pending (advanceIt state) = (pending state).tail := by
  revert state
  decide +kernel

theorem head?_pending (state : BitVec 8) (h : pending state ≠ []) :
    (pending state).head? = some (state.extractLsb' 4 4) := by
  unfold pending pendingFor at h ⊢
  split
  · next hzero => exact absurd (if_pos hzero) h
  · rfl

/-! ## Prefixes -/

/-- The condition is only put in front. -/
theorem withItState_eq (cond : BitVec 32) (state : BitVec 8) :
    withItState cond state = cond ||| withItState 0 state := by
  unfold withItState
  split
  · dsimp only
    split <;> simp only [BitVec.ofNat_eq_ofNat, BitVec.zero_or, BitVec.or_assoc]
  · exact BitVec.or_zero.symm

/-- What is put behind a condition. -/
theorem withItState_zero (state : BitVec 8) : (withItState 0 state).setWidth 4 = 0#4 ∧
    ((withItState 0 state).getLsbD 4 = true ↔ pending state ≠ []) ∧
    ((withItState 0 state).getLsbD 5 = true ↔ 1 < (pending state).length) ∧
    (pending state ≠ [] → (withItState 0 state).extractLsb' 8 4 = state.extractLsb' 4 4) := by
  revert state
  decide +kernel

theorem getLsbD_cond {cond : BitVec 4} {i : Nat} (hi : 4 ≤ i) :
    (cond.setWidth 32).getLsbD i = false := by
  rw [BitVec.getLsbD_setWidth, BitVec.getLsbD_of_ge _ _ hi, Bool.and_false]

section

variable (cond : BitVec 4) (state : BitVec 8)

theorem cond_withItState : (withItState (cond.setWidth 32) state).setWidth 4 = cond := by
  rw [withItState_eq, BitVec.setWidth_or, (withItState_zero state).1, BitVec.or_zero,
    BitVec.setWidth_setWidth_of_le _ (by decide), BitVec.setWidth_eq]

theorem inIt_withItState :
    (withItState (cond.setWidth 32) state).getLsbD 4 = true ↔ pending state ≠ [] := by
  rw [withItState_eq, BitVec.getLsbD_or, getLsbD_cond (by decide), Bool.false_or]
  exact (withItState_zero state).2.1

theorem notLast_withItState :
    (withItState (cond.setWidth 32) state).getLsbD 5 = true ↔ 1 < (pending state).length := by
  rw [withItState_eq, BitVec.getLsbD_or, getLsbD_cond (by decide), Bool.false_or]
  exact (withItState_zero state).2.2.1

theorem itCond_withItState (h : pending state ≠ []) :
    (withItState (cond.setWidth 32) state).extractLsb' 8 4 = state.extractLsb' 4 4 := by
  have hzero : (cond.setWidth 32).extractLsb' 8 4 = 0#4 := by
    apply BitVec.eq_of_getLsbD_eq
    intro i hi
    rw [BitVec.getLsbD_extractLsb', getLsbD_cond (by omega), Bool.and_false, BitVec.getLsbD_zero]
  rw [withItState_eq, BitVec.extractLsb'_or, hzero, BitVec.zero_or]
  exact (withItState_zero state).2.2.2 h

end

/-- The condition in the prefix, of an instruction of the tables. -/
theorem prefixCond_eq (found : Option CmdInfo) (word : Word) (state : BitVec 8) :
    ∃ cond : BitVec 4, prefixCond found word state = cond.setWidth 32 ∧
      ∀ info, found = some info →
        (info.condLsb = none → cond = (pending state).headD 14) ∧
        ∀ lsb, info.condLsb = some lsb → cond = (word >>> lsb).setWidth 4 := by
  have hlow : ∀ w : BitVec 32, w &&& 15 = (w.setWidth 4).setWidth 32 := by
    intro w
    have hmask : (15 : BitVec 32) = (BitVec.allOnes 4).setWidth 32 := by decide
    apply BitVec.eq_of_getLsbD_eq
    intro i hi
    rw [hmask, BitVec.getLsbD_and, BitVec.getLsbD_setWidth, BitVec.getLsbD_setWidth,
      BitVec.getLsbD_setWidth, BitVec.getLsbD_allOnes]
    by_cases h4 : i < 4 <;> simp [hi, h4]
  cases found with
  | none => exact ⟨14, rfl, fun _ h => nomatch h⟩
  | some info =>
    cases hlsb : info.condLsb with
    | some lsb =>
      refine ⟨(word >>> lsb).setWidth 4, ?_, fun info' h => ?_⟩
      · unfold prefixCond
        dsimp only
        rw [hlsb]
        exact hlow _
      · cases h
        refine ⟨fun h => ?_, fun lsb' h => ?_⟩
        · rw [hlsb] at h
          cases h
        · rw [hlsb] at h
          cases h
          rfl
    | none =>
      refine ⟨(pending state).headD 14, ?_, fun info' h => ?_⟩
      · have hstate : (if state &&& 0x0F ≠ 0 then (state >>> 4).setWidth 32 else 14 : BitVec 32) =
            ((pending state).headD 14).setWidth 32 := by
          clear hlow hlsb
          revert state
          decide +kernel
        unfold prefixCond
        dsimp only
        rw [hlsb]
        exact hstate
      · cases h
        refine ⟨fun _ => rfl, fun lsb' h => ?_⟩
        rw [hlsb] at h
        cases h

/-! ## Runs -/

/-- What is reported of an instruction while these conditions are pending. A condition of its own
comes first; of a word that is no instruction nothing is said but the block it is in. -/
structure Reports (T : T32Tables) (p : List (BitVec 4)) (r : T32Result) : Prop where
  inIt : r.inIt = true ↔ p ≠ []
  notLast : r.notLast = true ↔ 1 < p.length
  itCond : ∀ cond, p.head? = some cond → r.itCond = cond
  cond : ∀ info, T.lookup r.word = some info → info.condLsb = none → r.cond = p.headD 14
  ownCond : ∀ info lsb, T.lookup r.word = some info → info.condLsb = some lsb →
    r.cond = (r.word >>> lsb).setWidth 4

/-- The same with no exceptions: the condition is that of the block, else `DIANA_A32_COND_AL`. -/
structure ReportsPlainly (p : List (BitVec 4)) (r : T32Result) : Prop where
  inIt : r.inIt = true ↔ p ≠ []
  notLast : r.notLast = true ↔ 1 < p.length
  cond : r.cond = p.headD 14

/-- A use of the context. -/
inductive Call (σ : Type) where
  | parseCmd (S : ReadStream σ) (s : σ)
  | decode (hw1 hw2 : BitVec 32)
  | resetItState

/-- What a call decodes, and the context behind it. -/
def Call.perform (T : T32Tables) (c : Context) : Call σ → Option T32Result × Context
  | .parseCmd S s =>
    let parsed := parseCmdT32 T S c s
    (parsed.result.toOption, parsed.context)
  | .decode hw1 hw2 =>
    let (r, c) := decodeT32 T c hw1 hw2
    (some r, c)
  | .resetItState => (none, A32.resetItState c)

/-- The conditions that are pending behind a call: an `it` starts a block, every other instruction
takes one off, and a call that decodes nothing leaves them. -/
def pendingAfter (p : List (BitVec 4)) : Call σ → Option T32Result → List (BitVec 4)
  | .resetItState, _ => []
  | _, none => p
  | _, some r =>
    if r.info.cmd = .it then itBlock (r.word.extractLsb' 20 4) (r.word.extractLsb' 16 4) else p.tail

/-- All that a run of calls reports goes along with the conditions that are pending. -/
def Follows (T : T32Tables) (reports : List (BitVec 4) → T32Result → Prop) :
    List (Call σ) → Context → List (BitVec 4) → Prop
  | [], _, _ => True
  | call :: calls, c, p =>
    (∀ r, (call.perform T c).1 = some r → reports p r) ∧
      Follows T reports calls (call.perform T c).2 (pendingAfter p call (call.perform T c).1)

theorem state_setState (c : Context) (state : BitVec 8) : (c.setState state).state = state := by
  apply BitVec.eq_of_getLsbD_eq
  intro i hi
  have hmask : (~~~0xFF#32).getLsbD i = false := by
    rw [BitVec.getLsbD_not]
    have : ∀ i < 8, (0xFF#32).getLsbD i = true := by decide
    rw [this i hi, Bool.not_true, Bool.and_false]
  rw [Context.setState, Context.state, BitVec.getLsbD_setWidth, BitVec.getLsbD_or,
    BitVec.getLsbD_and, hmask, BitVec.getLsbD_setWidth]
  simp [hi, (show i < 32 by omega)]

variable {T : T32Tables} {c : Context}

theorem decodeT32_reports (hw1 hw2 : BitVec 32) :
    Reports T (pending c.state) (decodeT32 T c hw1 hw2).1 := by
  obtain ⟨cond, hcond, hinfo⟩ := prefixCond_eq (T.lookup (decodeT32 T c hw1 hw2).1.word)
    (decodeT32 T c hw1 hw2).1.word c.state
  have hprefix : (decodeT32 T c hw1 hw2).1.iPrefix = withItState (cond.setWidth 32) c.state :=
    congrArg (withItState · c.state) hcond
  have hc : (decodeT32 T c hw1 hw2).1.cond = cond := by
    rw [T32Result.cond, hprefix, cond_withItState]
  refine ⟨?_, ?_, fun head hhead => ?_, fun info hl hnone => ?_, fun info lsb hl hsome => ?_⟩
  · rw [T32Result.inIt, hprefix, inIt_withItState]
  · rw [T32Result.notLast, hprefix, notLast_withItState]
  · have hne : pending c.state ≠ [] := fun h => by
      rw [h] at hhead
      cases hhead
    rw [head?_pending _ hne] at hhead
    rw [T32Result.itCond, hprefix, itCond_withItState _ _ hne]
    exact Option.some.inj hhead
  · rw [hc]
    exact (hinfo info hl).1 hnone
  · rw [hc]
    exact (hinfo info hl).2 lsb hsome

theorem getLsbD_and_halfword (hw : BitVec 32) (i : Nat) :
    (hw &&& 0xFFFF).getLsbD i = (hw.getLsbD i && decide (i < 16)) := by
  have hmask : (0xFFFF : BitVec 32) = (BitVec.allOnes 16).setWidth 32 := by decide
  rw [hmask, BitVec.getLsbD_and, BitVec.getLsbD_setWidth, BitVec.getLsbD_allOnes]
  by_cases h : i < 16
  · have h32 : i < 32 := by omega
    simp [h, h32]
  · simp [h]

/-- The bits of the first halfword in the word. -/
theorem getLsbD_word {P : Prop} [Decidable P] (hw1 hw2 : BitVec 32) {i : Nat} (hi : i < 16) :
    (((hw1 &&& 0xFFFF) <<< 16) ||| (if P then hw2 &&& 0xFFFF else 0)).getLsbD
    (16 + i) = hw1.getLsbD i := by
  have hlow : (if P then hw2 &&& 0xFFFF else 0).getLsbD (16 + i) = false := by
    split
    · rw [getLsbD_and_halfword]
      simp
    · exact BitVec.getLsbD_zero
  have h32 : 16 + i < 32 := by omega
  have hsub : 16 + i - 16 = i := Nat.add_sub_cancel_left 16 i
  rw [BitVec.getLsbD_or, hlow, Bool.or_false, BitVec.getLsbD_shiftLeft, hsub, getLsbD_and_halfword]
  simp [h32, hi]

/-- The low byte of the first halfword, from the fields of the word. -/
theorem low_byte_eq {P : Prop} [Decidable P] (hw1 hw2 : BitVec 32) :
    hw1.setWidth 8 =
      (((hw1 &&& 0xFFFF) <<< 16) ||| (if P then hw2 &&& 0xFFFF else 0)).extractLsb' 20 4 ++
        (((hw1 &&& 0xFFFF) <<< 16) ||| (if P then hw2 &&& 0xFFFF else 0)).extractLsb' 16 4 := by
  apply BitVec.eq_of_getLsbD_eq
  intro i hi
  rw [BitVec.getLsbD_append, BitVec.getLsbD_setWidth, BitVec.getLsbD_extractLsb',
    BitVec.getLsbD_extractLsb']
  by_cases h4 : i < 4
  · rw [getLsbD_word hw1 hw2 (by omega)]
    simp [h4, hi]
  · have hadd : 20 + (i - 4) = 16 + i := by omega
    have hlt : i - 4 < 4 := by omega
    rw [hadd, getLsbD_word hw1 hw2 (by omega)]
    simp [h4, hi, hlt]

/-- What is pending behind a decoded instruction. -/
theorem decodeT32_pending (hw1 hw2 : BitVec 32) :
    pending (decodeT32 T c hw1 hw2).2.state =
      if (decodeT32 T c hw1 hw2).1.info.cmd = .it then
        itBlock ((decodeT32 T c hw1 hw2).1.word.extractLsb' 20 4)
          ((decodeT32 T c hw1 hw2).1.word.extractLsb' 16 4)
      else (pending c.state).tail := by
  have hword : hw1.setWidth 8 = (decodeT32 T c hw1 hw2).1.word.extractLsb' 20 4 ++
      (decodeT32 T c hw1 hw2).1.word.extractLsb' 16 4 :=
    low_byte_eq hw1 hw2
  change pending (c.setState (if (decodeT32 T c hw1 hw2).1.info.cmd = .it then hw1.setWidth 8
    else advanceIt c.state)).state = _
  rw [state_setState]
  split
  · rw [hword, pending_it]
  · exact pending_advanceIt _

/-- A call that decodes something: which instruction it is. -/
theorem parseCmdT32_cases (S : ReadStream σ) (s : σ) :
    ((parseCmdT32 T S c s).result.toOption = none ∧ (parseCmdT32 T S c s).context = c) ∨
      ∃ hw1 hw2, (parseCmdT32 T S c s).result = .ok (decodeT32 T c hw1 hw2).1 ∧
        (parseCmdT32 T S c s).context = (decodeT32 T c hw1 hw2).2 := by
  unfold parseCmdT32
  dsimp only
  split
  · exact .inl ⟨rfl, rfl⟩
  · exact .inl ⟨rfl, rfl⟩
  · split
    · exact .inl ⟨rfl, rfl⟩
    · split
      · split
        · exact .inl ⟨rfl, rfl⟩
        · split
          · exact .inl ⟨rfl, rfl⟩
          · exact .inr ⟨_, _, rfl, rfl⟩
      · exact .inr ⟨_, _, rfl, rfl⟩

/-- What a call reports goes along with what is pending, and so does the context behind it. -/
theorem perform_follows (call : Call σ) :
    (∀ r, (call.perform T c).1 = some r → Reports T (pending c.state) r) ∧
      pending (call.perform T c).2.state = pendingAfter (pending c.state) call
      (call.perform T c).1 := by
  cases call with
  | parseCmd S s =>
    unfold Call.perform
    dsimp only
    obtain ⟨hnone, hcontext⟩ | ⟨hw1, hw2, hok, hcontext⟩ := parseCmdT32_cases (T := T) (c := c) S s
    · rw [hnone, hcontext]
      exact ⟨fun _ h => (nomatch h), rfl⟩
    · rw [hok, hcontext]
      refine ⟨fun r h => ?_, decodeT32_pending hw1 hw2⟩
      cases h
      exact decodeT32_reports hw1 hw2
  | decode hw1 hw2 =>
    refine ⟨fun r h => ?_, decodeT32_pending hw1 hw2⟩
    cases h
    exact decodeT32_reports hw1 hw2
  | resetItState =>
    refine ⟨fun _ h => (nomatch h), ?_⟩
    change pending (resetItState c).state = []
    have hreset : resetItState c = c.setState 0 := congrArg Context.mk (BitVec.or_zero).symm
    rw [hreset, state_setState]
    rfl

/-- In every run of calls on one context, from any context on, each result reports what the
architecture's ITSTATE says: whether the instruction is in a block and not its last one, the
condition of the block, and that it executes under this condition, outside of a block always. An
instruction with a condition field of its own reports that one. -/
theorem t32_follows_itState (T : T32Tables) (calls : List (Call σ)) (c : Context) :
    Follows T (Reports T) calls c (pending c.state) := by
  induction calls generalizing c with
  | nil => exact trivial
  | cons call calls ih =>
    obtain ⟨hreports, hpending⟩ := perform_follows (T := T) (c := c) call
    refine ⟨hreports, ?_⟩
    rw [← hpending]
    exact ih _

/-- The conditional branches of the tables. -/
def branchTables : T32Tables where
  lookup word := ((branchCmds true).find? fun e => e.1.matches word).map (·.2)
  undefinedCmd _ := { cmd := .other, size := 4, operands := [] }

/-- `beq` outside of a block is conditional. -/
theorem not_reportsPlainly :
    ¬ ∀ (T : T32Tables) (calls : List (Call Unit)) (c : Context),
      Follows T ReportsPlainly calls c (pending c.state) := by
  intro h
  obtain ⟨hreports, -⟩ := h branchTables [.decode 0xD0FE 0] ⟨0⟩
  exact absurd (hreports _ rfl).cond (by decide +kernel)

end Diana.A32
