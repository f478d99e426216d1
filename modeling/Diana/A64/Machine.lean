import Mathlib.Computability.StateTransition
import Diana.Lib.Field

/-!
# An A64 machine

The processor an A64 patcher moves code on: registers, flags, byte memory, and
what one instruction word does at a program counter.

* `State`: the general registers (slot 31 is the stack pointer), the flags,
  the SIMD registers, the memory and everything else the machine keeps (`ρ`).
* `Arch`: what the machine does on the instructions this file does not spell
  out (`other`), and the pointer authentication code. The only thing assumed
  of `other` is that an encoding without a label does not look at its address.
* `effect`: one word at one address. Branches, address formation, literal
  loads, register branches, loads with an unsigned offset and the signing of
  the return address are written out.
* `step`: fetch, execute, go on; runs are `StateTransition.Reaches (step A)`.

`SameEffect` says that a code sequence at `dst` does what a word at `src` does.
-/

namespace Diana.A64

open StateTransition Diana.Lib

abbrev Word := BitVec 32
abbrev Addr := BitVec 64
abbrev Byte := BitVec 8
abbrev Reg := BitVec 5

/-! ## State -/

/-- The processor and its memory. `x 31` is the stack pointer; `rest` is what no definition of this
file reads (system registers, vector lengths, ...). -/
structure State (ρ : Type) where
  x : Reg → BitVec 64
  nzcv : BitVec 4
  v : Reg → BitVec 128
  mem : Addr → Option Byte
  rest : ρ

variable {ρ : Type}

/-- A register operand in which 31 is the zero register. -/
def State.xr (s : State ρ) (r : Reg) : BitVec 64 := if r = 31 then 0 else s.x r

/-- A write to a register operand in which 31 is the zero register. -/
def State.setX (s : State ρ) (r : Reg) (a : BitVec 64) : State ρ :=
  if r = 31 then s else { s with x := fun i => if i = r then a else s.x i }

def State.setV (s : State ρ) (r : Reg) (a : BitVec 128) : State ρ :=
  { s with v := fun i => if i = r then a else s.v i }

@[simp] theorem State.setX_nzcv (s : State ρ) (r : Reg) (a : BitVec 64) :
    (s.setX r a).nzcv = s.nzcv := by unfold setX; split <;> rfl

@[simp] theorem State.setX_v (s : State ρ) (r : Reg) (a : BitVec 64) :
    (s.setX r a).v = s.v := by unfold setX; split <;> rfl

@[simp] theorem State.setX_mem (s : State ρ) (r : Reg) (a : BitVec 64) :
    (s.setX r a).mem = s.mem := by unfold setX; split <;> rfl

@[simp] theorem State.setX_rest (s : State ρ) (r : Reg) (a : BitVec 64) :
    (s.setX r a).rest = s.rest := by unfold setX; split <;> rfl

@[simp] theorem State.setX_same {s : State ρ} {r : Reg} {a : BitVec 64} (h : r ≠ 31) :
    (s.setX r a).x r = a := by
  rw [setX, if_neg h]
  exact if_pos rfl

theorem State.setX_other {s : State ρ} {r i : Reg} {a : BitVec 64} (h : i ≠ r) :
    (s.setX r a).x i = s.x i := by
  unfold setX
  split
  · rfl
  · simp [h]

theorem State.setX_setX (s : State ρ) (r : Reg) (a b : BitVec 64) :
    (s.setX r a).setX r b = s.setX r b := by
  by_cases h : r = 31
  · simp only [setX, if_pos h]
  · simp only [setX, if_neg h]
    congr 1
    funext i
    by_cases hi : i = r <;> simp [hi]

/-! ## Memory, little endian -/

def read32 (m : Addr → Option Byte) (a : Addr) : Option (BitVec 32) := do
  let b0 ← m a
  let b1 ← m (a + 1)
  let b2 ← m (a + 2)
  let b3 ← m (a + 3)
  pure (b3 ++ b2 ++ b1 ++ b0)

def read64 (m : Addr → Option Byte) (a : Addr) : Option (BitVec 64) := do
  let lo ← read32 m a
  let hi ← read32 m (a + 4)
  pure (hi ++ lo)

def read128 (m : Addr → Option Byte) (a : Addr) : Option (BitVec 128) := do
  let lo ← read64 m a
  let hi ← read64 m (a + 8)
  pure (hi ++ lo)

/-- The bytes `bs` stand at `a`. -/
def CodeAt (m : Addr → Option Byte) (a : Addr) (bs : List Byte) : Prop :=
  ∀ i (h : i < bs.length), m (a + BitVec.ofNat 64 i) = some (bs.get ⟨i, h⟩)

theorem codeAt_append {m : Addr → Option Byte} {a : Addr} {bs cs : List Byte} :
    CodeAt m a (bs ++ cs) ↔ CodeAt m a bs ∧ CodeAt m (a + BitVec.ofNat 64 bs.length) cs := by
  constructor
  · intro h
    refine ⟨fun i hi => ?_, fun i hi => ?_⟩
    · have := h i (by rw [List.length_append]; omega)
      simpa [List.getElem_append_left hi] using this
    · have := h (bs.length + i) (by rw [List.length_append]; omega)
      rw [BitVec.add_assoc, ← BitVec.ofNat_add]
      simpa [List.getElem_append_right] using this
  · rintro ⟨h1, h2⟩ i hi
    by_cases hlt : i < bs.length
    · simpa [List.getElem_append_left hlt] using h1 i hlt
    · have := h2 (i - bs.length) (by rw [List.length_append] at hi; omega)
      rw [BitVec.add_assoc, ← BitVec.ofNat_add, Nat.add_sub_cancel' (by omega)] at this
      simpa [List.getElem_append_right (show bs.length ≤ i by omega)] using this

/-! ## Instruction classes -/

/-- The condition `cond` of a conditional branch, on N, Z, C, V (bit 3 down to bit 0). -/
def condHolds (cond nzcv : BitVec 4) : Bool :=
  let n := nzcv.getLsbD 3
  let z := nzcv.getLsbD 2
  let c := nzcv.getLsbD 1
  let v := nzcv.getLsbD 0
  let base :=
    match (cond.extractLsb' 1 3).toNat with
    | 0 => z
    | 1 => c
    | 2 => n
    | 3 => v
    | 4 => c && !z
    | 5 => n == v
    | 6 => n == v && !z
    | _ => true
  -- 1111 is another always
  if cond.getLsbD 0 && cond != 0xF then !base else base

/-- Encodings outside the classes of `effect` with a label operand: `retaasppc`, `retabsppc`,
`autiasppc`, `autibsppc` and the compare-and-branch class. -/
def hasLabel (w : Word) : Bool :=
  w &&& 0xFFE0001F == 0x5500001F || w &&& 0xFFE0001F == 0x5520001F ||
  w &&& 0xFFE0001F == 0xF380001F || w &&& 0xFFE0001F == 0xF3A0001F ||
  w &&& 0x7E000000 == 0x74000000

inductive PacKey where
  | a
  | b
  deriving DecidableEq, Repr

/-- How a return address is signed. -/
inductive PacForm where
  /-- `paciasp`, `pacibsp`: with the address of the instruction only after a `pacm`. -/
  | sp
  /-- `paciasppc`, `pacibsppc`, `pacnbiasppc`, `pacnbibsppc`: with the address of the
  instruction. -/
  | spPc
  deriving DecidableEq, Repr

/-- The words that sign the return address. -/
def pacWord (w : Word) : Option (PacKey × PacForm) :=
  if w = 0xD503233F then some (.a, .sp)
  else if w = 0xD503237F then some (.b, .sp)
  else if w = 0xDAC1A3FE then some (.a, .spPc)
  else if w = 0xDAC1A7FE then some (.b, .spPc)
  else if w = 0xDAC183FE then some (.a, .spPc)
  else if w = 0xDAC187FE then some (.b, .spPc)
  else none

/-- What a word does: the next instruction, a branch, a call (the machine then sets `x30` to the
return address), or an exception. -/
inductive Effect (ρ : Type) where
  | next (s : State ρ)
  | jump (target : Addr) (s : State ρ)
  | call (target : Addr) (s : State ρ)
  | trap

/-- The machine beyond the instructions written out below. -/
structure Arch (ρ : Type) where
  other : Word → Addr → State ρ → Effect ρ
  /-- only a label reads the address of an instruction -/
  other_pc : ∀ w pc pc' s, hasLabel w = false → other w pc s = other w pc' s
  /-- the signed return address, from the key, the address, the stack pointer and the address of
  the signing instruction when that is a modifier too -/
  pac : PacKey → BitVec 64 → BitVec 64 → Option Addr → BitVec 64
  /-- the instruction before was `pacm` -/
  pacm : ρ → Bool

variable (A : Arch ρ)

/-- What a load brings: a general register, a SIMD register, or nothing (a prefetch). -/
inductive Loaded where
  | x (b : BitVec 64)
  | v (b : BitVec 128)
  | hint

/-- A load of the literal class: `opc` and the SIMD bit pick `ldr w`, `ldr x`, `ldrsw`, `prfm`, or
`ldr s`, `ldr d`, `ldr q`. SIMD with `opc` 3 is unallocated. -/
def loadValue (opc : BitVec 2) (simd : Bool) (m : Addr → Option Byte) (a : Addr) : Option Loaded :=
  match simd, opc.toNat with
  | false, 0 => (read32 m a).map fun b => .x (b.setWidth 64)
  | false, 1 => (read64 m a).map .x
  | false, 2 => (read32 m a).map fun b => .x (b.signExtend 64)
  | false, _ => some .hint
  | true, 0 => (read32 m a).map fun b => .v (b.setWidth 128)
  | true, 1 => (read64 m a).map fun b => .v (b.setWidth 128)
  | true, 2 => (read128 m a).map .v
  | true, _ => none

def State.put (s : State ρ) (r : Reg) : Loaded → State ρ
  | .x b => s.setX r b
  | .v b => s.setV r b
  | .hint => s

def loadLiteral (opc : BitVec 2) (simd : Bool) (r : Reg) (a : Addr) (s : State ρ) : Effect ρ :=
  match loadValue opc simd s.mem a with
  | some l => .next (s.put r l)
  | none => .trap

/-- Outside SIMD and prefetches a load brings a general register. -/
theorem loadValue_gpr {opc : BitVec 2} {simd : Bool} {m : Addr → Option Byte} {a : Addr}
    {l : Loaded} (hs : simd = false) (ho : opc ≠ 3) (h : loadValue opc simd m a = some l) :
    ∃ b, l = .x b := by
  subst hs
  have hcase : ∀ o : BitVec 2, o ≠ 3 → o = 0 ∨ o = 1 ∨ o = 2 := by decide
  rcases hcase opc ho with rfl | rfl | rfl
  all_goals
    obtain ⟨b, -, rfl⟩ := Option.map_eq_some_iff.mp h
    exact ⟨_, rfl⟩

/-- The loads with an unsigned offset that mirror the literal class, by their top ten bits: `opc`,
the SIMD bit, and the scale of the offset. -/
def loadOffsetClass (w : Word) : Option (BitVec 2 × Bool × Nat) :=
  if w &&& 0xFFC00000 = 0xB9400000 then some (0, false, 4)
  else if w &&& 0xFFC00000 = 0xF9400000 then some (1, false, 8)
  else if w &&& 0xFFC00000 = 0xB9800000 then some (2, false, 4)
  else if w &&& 0xFFC00000 = 0xF9800000 then some (3, false, 8)
  else if w &&& 0xFFC00000 = 0xBD400000 then some (0, true, 4)
  else if w &&& 0xFFC00000 = 0xFD400000 then some (1, true, 8)
  else if w &&& 0xFFC00000 = 0x3DC00000 then some (2, true, 16)
  else none

def imm26 (w : Word) : Addr := (w.extractLsb' 0 26).signExtend 64 * 4
def imm19 (w : Word) : Addr := (w.extractLsb' 5 19).signExtend 64 * 4
def imm14 (w : Word) : Addr := (w.extractLsb' 5 14).signExtend 64 * 4
def immAdr (w : Word) : BitVec 64 := (w.extractLsb' 5 19 ++ w.extractLsb' 29 2).signExtend 64
def rt (w : Word) : Reg := w.extractLsb' 0 5
def rn (w : Word) : Reg := w.extractLsb' 5 5

/-- The value `cbz` and `cbnz` test: `w` or `x`. -/
def cbValue (w : Word) (s : State ρ) : BitVec 64 :=
  if w.getLsbD 31 then s.xr (rt w) else ((s.xr (rt w)).setWidth 32).setWidth 64

/-- The bit number of `tbz` and `tbnz`. -/
def tbBit (w : Word) : Nat := (w.extractLsb' 31 1 ++ w.extractLsb' 19 5).toNat

/-- Whether `cbz`/`cbnz` (or `tbz`/`tbnz`) branches: bit 24 asks for nonzero. -/
def cbTaken (w : Word) (s : State ρ) : Bool := (cbValue w s != 0) == w.getLsbD 24
def tbTaken (w : Word) (s : State ρ) : Bool := (s.xr (rt w)).getLsbD (tbBit w) == w.getLsbD 24

def isB (w : Word) : Bool := w &&& 0x7C000000 == 0x14000000
def isBCond (w : Word) : Bool := w &&& 0xFF000000 == 0x54000000
def isCb (w : Word) : Bool := w &&& 0x7E000000 == 0x34000000
def isTb (w : Word) : Bool := w &&& 0x7E000000 == 0x36000000
def isAdr (w : Word) : Bool := w &&& 0x1F000000 == 0x10000000
def isLiteral (w : Word) : Bool := w &&& 0x3B000000 == 0x18000000
def isBr (w : Word) : Bool := w &&& 0xFFFFFC1F == 0xD61F0000
def isBlr (w : Word) : Bool := w &&& 0xFFFFFC1F == 0xD63F0000

/-- The page of an address. -/
def page (a : Addr) : Addr := a &&& ~~~0xFFF

def branchIf (c : Bool) (target : Addr) (s : State ρ) : Effect ρ :=
  if c then .jump target s else .next s

/-- `adr` and `adrp`. -/
def adrValue (w : Word) (pc : Addr) : BitVec 64 :=
  if w.getLsbD 31 then page pc + immAdr w * 4096 else pc + immAdr w

/-- The signing of `x30`. -/
def signReturn (key : PacKey) (form : PacForm) (pc : Addr) (s : State ρ) : State ρ :=
  let modifier := if form = .spPc ∨ A.pacm s.rest = true then some pc else none
  s.setX 30 (A.pac key (s.x 30) (s.x 31) modifier)

/-- One instruction word at the address `pc`. -/
def effect (w : Word) (pc : Addr) (s : State ρ) : Effect ρ :=
  if isB w then
    if w.getLsbD 31 then .call (pc + imm26 w) s else .jump (pc + imm26 w) s
  else if isBCond w then branchIf (condHolds (w.extractLsb' 0 4) s.nzcv) (pc + imm19 w) s
  else if isCb w then branchIf (cbTaken w s) (pc + imm19 w) s
  else if isTb w then branchIf (tbTaken w s) (pc + imm14 w) s
  else if isAdr w then .next (s.setX (rt w) (adrValue w pc))
  else if isLiteral w then
    loadLiteral (w.extractLsb' 30 2) (w.getLsbD 26) (rt w) (pc + imm19 w) s
  else if isBr w then .jump (s.xr (rn w)) s
  else if isBlr w then .call (s.xr (rn w)) s
  else
    match loadOffsetClass w with
    | some (opc, simd, scale) =>
      loadLiteral opc simd (rt w)
        (s.x (rn w) + BitVec.ofNat 64 ((w.extractLsb' 10 12).toNat * scale)) s
    | none =>
      match pacWord w with
      | some (key, form) => .next (signReturn A key form pc s)
      | none => A.other w pc s

/-! ### The classes, one by one -/

section Classes

variable {A} {w : Word} {pc : Addr} {s : State ρ}

theorem effect_b (h : isB w = true) :
    effect A w pc s =
      if w.getLsbD 31 then .call (pc + imm26 w) s else .jump (pc + imm26 w) s := by
  rw [effect, if_pos h]

theorem effect_bCond (h : isBCond w = true) :
    effect A w pc s = branchIf (condHolds (w.extractLsb' 0 4) s.nzcv) (pc + imm19 w) s := by
  have h1 : isB w = false := mask_exclusive h (by decide)
  simp only [effect, h1, h, Bool.false_eq_true, if_false, if_true]

theorem effect_cb (h : isCb w = true) :
    effect A w pc s = branchIf (cbTaken w s) (pc + imm19 w) s := by
  have h1 : isB w = false := mask_exclusive h (by decide)
  have h2 : isBCond w = false := mask_exclusive h (by decide)
  simp only [effect, h1, h2, h, Bool.false_eq_true, if_false, if_true]

theorem effect_tb (h : isTb w = true) :
    effect A w pc s = branchIf (tbTaken w s) (pc + imm14 w) s := by
  have h1 : isB w = false := mask_exclusive h (by decide)
  have h2 : isBCond w = false := mask_exclusive h (by decide)
  have h3 : isCb w = false := mask_exclusive h (by decide)
  simp only [effect, h1, h2, h3, h, Bool.false_eq_true, if_false, if_true]

theorem effect_adr (h : isAdr w = true) :
    effect A w pc s = .next (s.setX (rt w) (adrValue w pc)) := by
  have h1 : isB w = false := mask_exclusive h (by decide)
  have h2 : isBCond w = false := mask_exclusive h (by decide)
  have h3 : isCb w = false := mask_exclusive h (by decide)
  have h4 : isTb w = false := mask_exclusive h (by decide)
  simp only [effect, h1, h2, h3, h4, h, Bool.false_eq_true, if_false, if_true]

theorem effect_literal (h : isLiteral w = true) :
    effect A w pc s =
      loadLiteral (w.extractLsb' 30 2) (w.getLsbD 26) (rt w) (pc + imm19 w) s := by
  have h1 : isB w = false := mask_exclusive h (by decide)
  have h2 : isBCond w = false := mask_exclusive h (by decide)
  have h3 : isCb w = false := mask_exclusive h (by decide)
  have h4 : isTb w = false := mask_exclusive h (by decide)
  have h5 : isAdr w = false := mask_exclusive h (by decide)
  simp only [effect, h1, h2, h3, h4, h5, h, Bool.false_eq_true, if_false, if_true]

/-- The words outside the position-dependent classes. -/
theorem effect_rest (h1 : isB w = false) (h2 : isBCond w = false) (h3 : isCb w = false)
    (h4 : isTb w = false) (h5 : isAdr w = false) (h6 : isLiteral w = false) :
    effect A w pc s =
      if isBr w then .jump (s.xr (rn w)) s
      else if isBlr w then .call (s.xr (rn w)) s
      else
        match loadOffsetClass w with
        | some (opc, simd, scale) =>
          loadLiteral opc simd (rt w)
            (s.x (rn w) + BitVec.ofNat 64 ((w.extractLsb' 10 12).toNat * scale)) s
        | none =>
          match pacWord w with
          | some (key, form) => .next (signReturn A key form pc s)
          | none => A.other w pc s := by
  simp only [effect, h1, h2, h3, h4, h5, h6, Bool.false_eq_true, if_false]

/-- The top ten bits of the classes of `loadOffsetClass`. -/
def loadOffsetTops : List Word :=
  [0xB9400000, 0xF9400000, 0xB9800000, 0xF9800000, 0xBD400000, 0xFD400000, 0x3DC00000]

/-- A word of one of the load classes is in no class tested before. -/
theorem loadOffsetClass_exclusive {m v : Word} {c : BitVec 2 × Bool × Nat}
    (h : loadOffsetClass w = some c)
    (hm : loadOffsetTops.all (fun u => u &&& m != v &&& 0xFFC00000) = true) :
    (w &&& m == v) = false := by
  have hu : ∃ u ∈ loadOffsetTops, w &&& 0xFFC00000 = u := by
    unfold loadOffsetClass at h
    split_ifs at h
    all_goals
      refine ⟨_, ?_, by assumption⟩
      decide
  obtain ⟨u, hmem, hw⟩ := hu
  exact mask_exclusive (beq_iff_eq.mpr hw) (by simpa using List.all_eq_true.mp hm u hmem)

theorem effect_loadOffset {opc : BitVec 2} {simd : Bool} {scale : Nat}
    (h : loadOffsetClass w = some (opc, simd, scale)) :
    effect A w pc s = loadLiteral opc simd (rt w)
      (s.x (rn w) + BitVec.ofNat 64 ((w.extractLsb' 10 12).toNat * scale)) s := by
  have h7 : isBr w = false := loadOffsetClass_exclusive h (by decide)
  have h8 : isBlr w = false := loadOffsetClass_exclusive h (by decide)
  rw [effect_rest (loadOffsetClass_exclusive h (by decide))
    (loadOffsetClass_exclusive h (by decide))
    (loadOffsetClass_exclusive h (by decide)) (loadOffsetClass_exclusive h (by decide))
    (loadOffsetClass_exclusive h (by decide)) (loadOffsetClass_exclusive h (by decide)), h7, h8, h]
  rfl

/-- The words that sign the return address, listed. -/
def pacWords : List Word :=
  [0xD503233F, 0xD503237F, 0xDAC1A3FE, 0xDAC1A7FE, 0xDAC183FE, 0xDAC187FE]

/-- A signing word is in no class tested before. -/
theorem pacWord_exclusive {m v : Word} {c : PacKey × PacForm} (h : pacWord w = some c)
    (hm : pacWords.all (fun u => u &&& m != v) = true) : (w &&& m == v) = false := by
  have hmem : w ∈ pacWords := by
    unfold pacWord at h
    split_ifs at h with h1 h2 h3 h4 h5 h6
    · exact h1 ▸ by decide
    · exact h2 ▸ by decide
    · exact h3 ▸ by decide
    · exact h4 ▸ by decide
    · exact h5 ▸ by decide
    · exact h6 ▸ by decide
  simpa using List.all_eq_true.mp hm w hmem

theorem effect_pac {key : PacKey} {form : PacForm} (h : pacWord w = some (key, form)) :
    effect A w pc s = .next (signReturn A key form pc s) := by
  have h7 : isBr w = false := pacWord_exclusive h (by decide)
  have h8 : isBlr w = false := pacWord_exclusive h (by decide)
  have h9 : loadOffsetClass w = none := by
    cases hl : loadOffsetClass w with
    | none => rfl
    | some c =>
      exfalso
      unfold loadOffsetClass at hl
      split_ifs at hl with h1 h2 h3 h4 h5 h6 h7
      · exact absurd (beq_iff_eq.mpr h1) (by rw [pacWord_exclusive h (by decide)]; decide)
      · exact absurd (beq_iff_eq.mpr h2) (by rw [pacWord_exclusive h (by decide)]; decide)
      · exact absurd (beq_iff_eq.mpr h3) (by rw [pacWord_exclusive h (by decide)]; decide)
      · exact absurd (beq_iff_eq.mpr h4) (by rw [pacWord_exclusive h (by decide)]; decide)
      · exact absurd (beq_iff_eq.mpr h5) (by rw [pacWord_exclusive h (by decide)]; decide)
      · exact absurd (beq_iff_eq.mpr h6) (by rw [pacWord_exclusive h (by decide)]; decide)
      · exact absurd (beq_iff_eq.mpr h7) (by rw [pacWord_exclusive h (by decide)]; decide)
  rw [effect_rest (pacWord_exclusive h (by decide)) (pacWord_exclusive h (by decide))
    (pacWord_exclusive h (by decide)) (pacWord_exclusive h (by decide))
    (pacWord_exclusive h (by decide)) (pacWord_exclusive h (by decide)), h7, h8, h9, h]
  rfl

/-- Outside the position-dependent classes, without a label and without a signature of the return
address, the address of an instruction does not matter. -/
theorem effect_pc_independent (h1 : isB w = false) (h2 : isBCond w = false) (h3 : isCb w = false)
    (h4 : isTb w = false) (h5 : isAdr w = false) (h6 : isLiteral w = false)
    (hl : hasLabel w = false) (hp : pacWord w = none) (pc' : Addr) :
    effect A w pc s = effect A w pc' s := by
  rw [effect_rest h1 h2 h3 h4 h5 h6, effect_rest h1 h2 h3 h4 h5 h6, hp, A.other_pc w pc pc' s hl]

end Classes

/-! ## Runs -/

abbrev Config (ρ : Type) := Addr × State ρ

/-- Where the machine goes after the effect of the word at `pc`; `none` is an exception. -/
def Effect.goOn (pc : Addr) : Effect ρ → Option (Config ρ)
  | .next s => some (pc + 4, s)
  | .jump target s => some (target, s)
  | .call target s => some (target, s.setX 30 (pc + 4))
  | .trap => none

/-- Fetch and execute. -/
def step (c : Config ρ) : Option (Config ρ) :=
  (read32 c.2.mem c.1).bind fun w => (effect A w c.1 c.2).goOn c.1

/-- The run from `c` ends in an exception. -/
def Traps (c : Config ρ) : Prop := ∃ d, Reaches (step A) c d ∧ step A d = none

theorem Traps.of_reaches {c d : Config ρ} (h : Reaches (step A) c d) (ht : Traps A d) :
    Traps A c := by
  obtain ⟨e, he, hn⟩ := ht
  exact ⟨e, h.trans he, hn⟩

/-! ## What a moved instruction has to do -/

/-- The word writes the general register `r` as its result (address formation and literal loads). -/
def formsResult (w : Word) (r : Reg) : Bool :=
  rt w == r && (isAdr w || isLiteral w && !w.getLsbD 26 && w.extractLsb' 30 2 != 3)

/-- The scratch registers of a moved instruction: `x16` and `x17` for the position-dependent
classes, unless the register is the result. Every other word may clobber nothing. -/
def mayClobber (w : Word) (r : Reg) : Bool :=
  (r == 16 || r == 17) && !formsResult w r &&
    (isB w || isBCond w || isCb w || isTb w || isAdr w || isLiteral w)

/-- `t` is `s` up to the scratch registers of `w`. -/
structure Agree (w : Word) (s t : State ρ) : Prop where
  x : ∀ r, mayClobber w r = false → t.x r = s.x r
  nzcv : t.nzcv = s.nzcv
  v : t.v = s.v
  mem : t.mem = s.mem
  rest : t.rest = s.rest

theorem Agree.refl (w : Word) (s : State ρ) : Agree w s s := ⟨fun _ _ => rfl, rfl, rfl, rfl, rfl⟩

theorem Agree.setX {w : Word} {s t : State ρ} (h : Agree w s t) (r : Reg) (b : BitVec 64) :
    Agree w (s.setX r b) (t.setX r b) := by
  refine ⟨fun i hi => ?_, ?_, ?_, ?_, ?_⟩
  · by_cases h31 : r = 31
    · simp only [State.setX, if_pos h31]
      exact h.x i hi
    · by_cases hri : i = r
      · subst hri
        rw [State.setX_same h31, State.setX_same h31]
      · rw [State.setX_other hri, State.setX_other hri]
        exact h.x i hi
  · simpa using h.nzcv
  · simpa using h.v
  · simpa using h.mem
  · simpa using h.rest

theorem Agree.put {w : Word} {s t : State ρ} (h : Agree w s t) (r : Reg) (l : Loaded) :
    Agree w (s.put r l) (t.put r l) := by
  cases l with
  | x b => exact h.setX r b
  | v b => exact ⟨h.x, h.nzcv, by simp [State.put, State.setV, h.v], h.mem, h.rest⟩
  | hint => exact h

theorem agree_setX_scratch {w : Word} {r : Reg} (hr : mayClobber w r = true) (s : State ρ)
    (b : BitVec 64) : Agree w s (s.setX r b) := by
  refine ⟨fun i hi => ?_, by simp, by simp, by simp, by simp⟩
  refine State.setX_other ?_
  rintro rfl
  rw [hr] at hi
  cases hi

/-- Executing `code` at `dst` has the effect of executing `w` at `src`: the same branch target, the
fall-through into what follows `code`, for a call the same target and a return address from which
the machine gets to what follows `code`, with the state the word leaves behind. -/
def SameEffect (w : Word) (src dst : Addr) (code : List Byte) : Prop :=
  ∀ s : State ρ, CodeAt s.mem dst code →
    match effect A w src s with
    | .next s' => ∃ t, Reaches₁ (step A) (dst, s) (dst + BitVec.ofNat 64 code.length, t) ∧
        Agree w s' t
    | .jump a s' => ∃ t, Reaches₁ (step A) (dst, s) (a, t) ∧ Agree w s' t
    | .call a s' => ∃ t, Reaches₁ (step A) (dst, s) (a, t) ∧ Agree w (s'.setX 30 (t.x 30)) t ∧
        ∀ u : State ρ, CodeAt u.mem dst code →
          Reaches (step A) (t.x 30, u) (dst + BitVec.ofNat 64 code.length, u)
    | .trap => Traps A (dst, s)

end Diana.A64
