import Diana.Processor.State
import Mathlib.Data.List.FinRange

/-!
# Saving and restoring the processor

`DianaProcessor_QueryContext` copies the registers into a context and
`DianaProcessor_InitContext` loads a context into a processor. A context holds 64 bits of each x87
register, ST(i) for every TOP, so the physical register behind slot `i` depends on the status word,
which is restored before the slots are.

* `savedState_initContext`: what a context holds arrives in the other processor.
-/

namespace Diana.Processor

open Diana.Lib

/-- `Diana_Processor_Registers_Context`. The three bits of `fpuStateFlags` are `fpuStateValid`,
`ymmStateValid` and `zmmStateValid`. -/
structure Context where
  rip : Value
  flags : Value
  fpuState : Fpu
  fpuStateValid : Bool
  ymmStateValid : Bool
  zmmStateValid : Bool
  seg : SegReg → BitVec 16
  cr : Fin 8 → BitVec 32
  dr : Fin 8 → Value
  tr : Fin 8 → BitVec 32
  gp : Fin 16 → Value
  mm : Fin 8 → Value
  xmm : Fin 16 → BitVec 128
  ymmHigh : Fin 16 → BitVec 128
  k : Fin 8 → Value
  zmmHigh : Fin 16 → BitVec 256
  zmm16 : Fin 16 → BitVec 512

variable {μ : Type}

/-! ## The x87 stack -/

/-- `Diana_FPU_GetStackTop` -/
def Fpu.stackTop (f : Fpu) : Fin 8 := ⟨((f.statusWord &&& 0x3800) >>> 11).toNat % 8, by omega⟩

/-- `DianaProcessor_FPU_QueryReg`: the slot of ST(i). -/
def Fpu.queryReg (f : Fpu) (i : Fin 8) : Fin 8 :=
  ⟨(16 - i.val - f.stackTop.val - 1) % 8, by omega⟩

theorem Fpu.queryReg_injective (f : Fpu) : Function.Injective f.queryReg := by
  intro i j h
  have h' := congrArg Fin.val h
  simp only [queryReg] at h'
  have := f.stackTop.isLt
  omega

/-- `Diana_FPU_SetStackTop` -/
def Fpu.setStackTop (f : Fpu) (top : Nat) : Fpu :=
  { f with statusWord := (f.statusWord &&& ~~~0x3800#16) |||
    ((BitVec.ofNat 16 top <<< 11) &&& 0x3800) }

/-- `Diana_FPU_MarkRegState` of a register that is filled. -/
def Fpu.markBusy (f : Fpu) (number : Fin 8) : Fpu :=
  let j := f.stackTop + number
  { f with registerFlags := Function.update f.registerFlags j (f.registerFlags j ||| 1) }

/-- `Diana_FPU_Push` -/
def Fpu.push (f : Fpu) : Fpu :=
  let top := if f.stackTop.val = 0 then 8 else f.stackTop.val
  f.setStackTop (top - 1)

namespace Proc

/-- The 80 bits of ST(i) (`DianaProcessor_FPU_GetSTRegister_80`). -/
def getSTRegister80 (s : Proc μ) (i : Fin 8) : BitVec 80 :=
  s.regs.get (.mmInternal (s.fpu.queryReg i)) 0 80

/-- `DianaProcessor_FPU_SetSTRegister_80` -/
def setSTRegister80 (s : Proc μ) (i : Fin 8) (v : BitVec 80) : Proc μ :=
  { s with
    regs := s.regs.set (.mmInternal (s.fpu.queryReg i)) 0 80 v
    fpu := s.fpu.markBusy i }

/-- `DianaProcessor_ResetFPU` -/
def resetFPU (s : Proc μ) : Proc μ :=
  { s with fpu := { controlWord := 0x037F, statusWord := 0, registerFlags := fun _ => 0 } }

/-! ## Saving -/

def getContextMM (s : Proc μ) (i : Fin 8) : Value :=
  s.regs.get (.mmInternal (s.fpu.queryReg i)) 0 64

/-- The `zmm` cell of a register below and above 16. -/
abbrev zmmLow (i : Fin 16) : Cell := .zmm (i.castLE (by decide))

abbrev zmmUp (i : Fin 16) : Cell := .zmm (i.natAdd 16)

/-- `DianaProcessor_QueryContext` -/
def queryContext (s : Proc μ) : Context where
  rip := s.getValue .rip
  flags := s.flags
  fpuState := s.fpu
  fpuStateValid := true
  ymmStateValid := true
  zmmStateValid := true
  seg r := (s.getValue (.seg r)).setWidth 16
  cr i := (s.getValue (.cr i)).setWidth 32
  dr i := ((s.getValue (.dr i)).setWidth 32).setWidth 64
  tr i := (s.getValue (.tr i)).setWidth 32
  gp i := s.getValue (.r64 i)
  mm i := s.getContextMM i
  xmm i := s.regs.get (zmmLow i) 0 128
  ymmHigh i := (s.regs.get (zmmLow i) 0 256).extractLsb' 128 128
  k i := s.regs.get (.k i) 0 64
  zmmHigh i := (s.regs.get (zmmLow i) 0 512).extractLsb' 256 256
  zmm16 i := s.regs.get (zmmUp i) 0 512

/-! ## Restoring -/

/-- `SET_REG_X` for the registers of a group, one after the other. -/
def setAll {κ : Type} (l : List κ) (r : κ → Register) (v : κ → Value) (s : Proc μ) : Proc μ :=
  l.foldl (fun s i => s.setValue (r i) (v i)) s

/-- `DianaProcessor_InitRawRegister` -/
def initRaw (s : Proc μ) (c : Cell) (n : Nat) (v : BitVec n) : Proc μ :=
  { s with regs := s.regs.set c 0 n v }

def segRegs : List SegReg := [.es, .cs, .ss, .ds, .fs, .gs]

def initScalars (c : Context) (s : Proc μ) : Proc μ :=
  let s := setAll segRegs .seg (fun r => (c.seg r).setWidth 64) s
  let s := setAll (List.finRange 8) .cr (fun i => (c.cr i).setWidth 64) s
  let s := setAll (List.finRange 8) .dr c.dr s
  let s := setAll (List.finRange 8) .tr (fun i => (c.tr i).setWidth 64) s
  setAll (List.finRange 16) .r64 c.gp s

def initXmm (c : Context) (s : Proc μ) : Proc μ :=
  (List.finRange 16).foldl (fun s i => s.initRaw (zmmLow i) 128 (c.xmm i)) s

/-- The upper halves of `ymm0` to `ymm15`; the lower half is written back as it was read. -/
def initYmm (c : Context) (s : Proc μ) : Proc μ :=
  (List.finRange 16).foldl (fun s i =>
    s.initRaw (zmmLow i) 256 (setField (s.regs.get (zmmLow i) 0 256) 128 128 (c.ymmHigh i))) s

def initOpmask (c : Context) (s : Proc μ) : Proc μ :=
  (List.finRange 8).foldl (fun s i => s.initRaw (.k i) 64 (c.k i)) s

def initZmm (c : Context) (s : Proc μ) : Proc μ :=
  (List.finRange 16).foldl (fun s i =>
    let s := s.initRaw (zmmLow i) 512
      (setField (s.regs.get (zmmLow i) 0 512) 256 256 (c.zmmHigh i))
    s.initRaw (zmmUp i) 512 (c.zmm16 i)) s

def setContextMM (s : Proc μ) (i : Fin 8) (v : Value) : Proc μ :=
  s.initRaw (.mmInternal (s.fpu.queryReg i)) 64 v

def initStack (c : Context) (s : Proc μ) : Proc μ :=
  (List.finRange 8).foldl (fun s i => s.setContextMM i (c.mm i)) s

/-- `DianaProcessor_InitContext` -/
def initContext (s : Proc μ) (c : Context) : Proc μ :=
  let s := (s.setValue .rip c.rip).clearCache
  let s := initXmm c (initScalars c s)
  let s := if c.ymmStateValid then initYmm c s else s
  let s := if c.zmmStateValid then initZmm c (initOpmask c s) else s
  let s := if c.fpuStateValid then { s with fpu := c.fpuState } else s.resetFPU
  let s := initStack c s
  { s with flags := c.flags }

/-! ### Where each block writes -/

theorem foldl_sameRest {κ : Type} {step : Proc μ → κ → Proc μ} (h : ∀ s i, SameRest s (step s i))
    (l : List κ) (s : Proc μ) : SameRest s (l.foldl step s) := by
  induction l generalizing s with
  | nil => exact .refl s
  | cons i l ih => exact (h s i).trans (ih _)

theorem setAll_sameRest {κ : Type} (l : List κ) (r : κ → Register) (v : κ → Value) (s : Proc μ) :
    SameRest s (setAll l r v s) :=
  foldl_sameRest (fun s _ => sameRest_setValueEx s ..) l s

theorem initRaw_sameRest (s : Proc μ) (c : Cell) (n : Nat) (v : BitVec n) :
    SameRest s (s.initRaw c n v) := by
  constructor <;> rfl

theorem getLsbD_getValue (a : Proc μ) (r : Register) (i : Nat) :
    (a.getValue r).getLsbD i =
      (decide (i < 8 * r.size.bytes) && (a.regs r.cell).getLsbD (8 * r.offset + i)) := by
  have h64 : 8 * r.size.bytes ≤ 64 := by cases r.size <;> decide
  rw [getValue, getValueEx, Cells.get, BitVec.getLsbD_setWidth, BitVec.getLsbD_extractLsb']
  by_cases h : i < 8 * r.size.bytes
  · have : i < 64 := by omega
    simp [h, this]
  · simp [h]

/-- A register as wide as its cell, written back with the value read from another processor. -/
theorem setField_getValue (a : Proc μ) {r : Register} (h0 : r.offset = 0)
    (hw : 8 * r.size.bytes = r.cell.width) (w : BitVec r.cell.width) {v : Value}
    (hv : ∀ i, i < r.cell.width → v.getLsbD i = (a.getValue r).getLsbD i) :
    setField w (8 * r.offset) (8 * r.size.bytes) (v.setWidth _) = a.regs r.cell := by
  apply BitVec.eq_of_getLsbD_eq
  intro i hi
  have hin : i < 8 * r.size.bytes := by omega
  rw [getLsbD_setField _ _ _ _ hi, if_pos (by omega), BitVec.getLsbD_setWidth, h0, Nat.mul_zero,
    Nat.sub_zero, hv i hi, getLsbD_getValue, h0]
  simp [hin]

section SetAll

variable {κ : Type} {l : List κ} {r : κ → Register} {v : κ → Value}

theorem setAll_regs_other (hr : ∀ i, isGeneral32 (some (r i)) = false) {d : Cell}
    (hd : ∀ i ∈ l, d ≠ (r i).cell) (s : Proc μ) : (setAll l r v s).regs d = s.regs d := by
  refine Cells.foldl_keeps (p := fun s : Proc μ => s.regs d) l (fun s i hi => ?_) s
  show (s.setValueEx _ _ _ _).regs d = _
  rw [setValueEx_regs _ _ _ _ _ (by simp [hr i]), Cells.set_apply_other _ _ _ _ (hd i hi)]

theorem setAll_regs_same (hr : ∀ i, isGeneral32 (some (r i)) = false)
    (hinj : Function.Injective fun i => (r i).cell) (hl : l.Nodup) {i : κ} (hi : i ∈ l)
    (s : Proc μ) : (setAll l r v s).regs (r i).cell =
      setField (s.regs (r i).cell) (8 * (r i).offset) (8 * (r i).size.bytes)
      ((v i).setWidth _) := by
  refine Cells.foldl_turn (p := fun s : Proc μ => s.regs (r i).cell)
    (g := fun w => setField w (8 * (r i).offset) (8 * (r i).size.bytes) ((v i).setWidth _))
    hl hi (fun s j hj => ?_) (fun s => ?_) s
  · show (s.setValueEx _ _ _ _).regs _ = _
    rw [setValueEx_regs _ _ _ _ _ (by simp [hr j]),
      Cells.set_apply_other _ _ _ _ (fun h => hj (hinj h.symm))]
  · show (s.setValueEx _ _ _ _).regs _ = _
    rw [setValueEx_regs _ _ _ _ _ (by simp [hr i]), Cells.set_apply_same]

theorem setAll_restores (a : Proc μ) (hr : ∀ i, isGeneral32 (some (r i)) = false)
    (hinj : Function.Injective fun i => (r i).cell) (hl : l.Nodup) {i : κ} (hi : i ∈ l)
    (h0 : (r i).offset = 0) (hw : 8 * (r i).size.bytes = (r i).cell.width)
    (hv : ∀ j, j < (r i).cell.width → (v i).getLsbD j = (a.getValue (r i)).getLsbD j)
    {d : Cell} (hd : (r i).cell = d) (s : Proc μ) : (setAll l r v s).regs d = a.regs d := by
  subst hd
  exact (setAll_regs_same hr hinj hl hi s).trans (setField_getValue a h0 hw _ hv)

end SetAll

theorem initScalars_seg (a s : Proc μ) (r : SegReg) :
    (initScalars a.queryContext s).regs (.seg r) = a.regs (.seg r) := by
  unfold initScalars
  dsimp only
  rw [setAll_regs_other (fun _ => by rfl) (by simp [Register.cell]),
    setAll_regs_other (fun _ => by rfl) (by simp [Register.cell]),
    setAll_regs_other (fun _ => by rfl) (by simp [Register.cell]),
    setAll_regs_other (fun _ => by rfl) (by simp [Register.cell])]
  refine setAll_restores (r := .seg) (i := r) a (fun _ => rfl) (fun _ _ => Cell.seg.inj)
    (by decide) (by cases r <;> decide) rfl rfl (fun j hj => ?_) rfl s
  have hj : j < 16 := hj
  have h64 : j < 64 := by omega
  simp [queryContext, hj, h64]

theorem initScalars_cr (a s : Proc μ) (i : Fin 8) :
    (initScalars a.queryContext s).regs (.cr i) = a.regs (.cr i) := by
  unfold initScalars
  dsimp only
  rw [setAll_regs_other (fun _ => by rfl) (by simp [Register.cell]),
    setAll_regs_other (fun _ => by rfl) (by simp [Register.cell]),
    setAll_regs_other (fun _ => by rfl) (by simp [Register.cell])]
  refine setAll_restores (r := .cr) (i := i) a (fun _ => rfl) (fun _ _ => Cell.cr.inj)
    (List.nodup_finRange 8) (List.mem_finRange i) rfl rfl (fun j hj => ?_) rfl _
  have hj : j < 32 := hj
  have h64 : j < 64 := by omega
  simp [queryContext, hj, h64]

theorem initScalars_dr (a s : Proc μ) (i : Fin 8) :
    (initScalars a.queryContext s).regs (.dr i) = a.regs (.dr i) := by
  unfold initScalars
  dsimp only
  rw [setAll_regs_other (fun _ => by rfl) (by simp [Register.cell]),
    setAll_regs_other (fun _ => by rfl) (by simp [Register.cell])]
  refine setAll_restores (l := List.finRange 8) (r := .dr) (v := a.queryContext.dr) (i := i)
    (d := .dr i) a (fun _ => rfl) (fun _ _ => Cell.dr.inj)
    (List.nodup_finRange 8) (List.mem_finRange i) rfl rfl (fun j hj => ?_) rfl _
  have hj : j < 32 := hj
  have h64 : j < 64 := by omega
  simp [queryContext, hj, h64]

theorem initScalars_tr (a s : Proc μ) (i : Fin 8) :
    (initScalars a.queryContext s).regs (.tr i) = a.regs (.tr i) := by
  unfold initScalars
  dsimp only
  rw [setAll_regs_other (fun _ => by rfl) (by simp [Register.cell])]
  refine setAll_restores (l := List.finRange 8) (r := .tr)
    (v := fun i => (a.queryContext.tr i).setWidth 64) (i := i) (d := .tr i) a (fun _ => rfl)
    (fun _ _ => Cell.tr.inj)
    (List.nodup_finRange 8) (List.mem_finRange i) rfl rfl (fun j hj => ?_) rfl _
  have hj : j < 32 := hj
  have h64 : j < 64 := by omega
  simp [queryContext, hj, h64]

theorem initScalars_gp (a s : Proc μ) (i : Fin 16) :
    (initScalars a.queryContext s).regs (.gp i) = a.regs (.gp i) := by
  unfold initScalars
  dsimp only
  exact setAll_restores (l := List.finRange 16) (r := .r64) (v := a.queryContext.gp) (i := i)
    (d := .gp i) a (fun _ => rfl) (fun _ _ => Cell.gp.inj)
    (List.nodup_finRange 16) (List.mem_finRange i) rfl rfl (fun j hj => rfl) rfl _

theorem initScalars_other (c : Context) (s : Proc μ) {d : Cell} (hd : d.isVector) :
    (initScalars c s).regs d = s.regs d := by
  have hne : ∀ r : Register, r.cell.isVector = false → d ≠ r.cell := by
    rintro r hr rfl
    rw [hr] at hd
    cases hd
  unfold initScalars
  dsimp only
  rw [setAll_regs_other (fun _ => by rfl) (fun _ _ => hne _ (by rfl)),
    setAll_regs_other (fun _ => by rfl) (fun _ _ => hne _ (by rfl)),
    setAll_regs_other (fun _ => by rfl) (fun _ _ => hne _ (by rfl)),
    setAll_regs_other (fun _ => by rfl) (fun _ _ => hne _ (by rfl)),
    setAll_regs_other (fun _ => by rfl) (fun _ _ => hne _ (by rfl))]

theorem initScalars_sameRest (c : Context) (s : Proc μ) : SameRest s (initScalars c s) :=
  ((((setAll_sameRest _ _ _ _).trans (setAll_sameRest _ _ _ _)).trans
    (setAll_sameRest _ _ _ _)).trans (setAll_sameRest _ _ _ _)).trans (setAll_sameRest _ _ _ _)

/-! ### The vector registers -/

theorem initXmm_low (c : Context) (s : Proc μ) (i : Fin 16) :
    (initXmm c s).regs (zmmLow i) = setField (s.regs (zmmLow i)) 0 128 (c.xmm i) := by
  refine Cells.foldl_turn (p := fun s : Proc μ => s.regs (zmmLow i))
    (g := fun w => setField w 0 128 (c.xmm i)) (List.nodup_finRange 16) (List.mem_finRange i)
    (fun s j hj => ?_) (fun s => ?_) s
  · exact Cells.set_apply_other _ _ _ _ (by simpa using hj.symm)
  · exact Cells.set_apply_same ..

theorem initXmm_other (c : Context) (s : Proc μ) {d : Cell} (hd : ∀ i, d ≠ zmmLow i) :
    (initXmm c s).regs d = s.regs d :=
  Cells.foldl_keeps (p := fun s : Proc μ => s.regs d) _
    (fun _ i _ => Cells.set_apply_other _ _ _ _ (hd i)) s

theorem initYmm_low (c : Context) (s : Proc μ) (i : Fin 16) :
    (initYmm c s).regs (zmmLow i) = setField (s.regs (zmmLow i)) 0 256
      (setField ((s.regs (zmmLow i)).extractLsb' 0 256) 128 128 (c.ymmHigh i)) := by
  refine Cells.foldl_turn (p := fun s : Proc μ => s.regs (zmmLow i))
    (g := fun w => setField w 0 256 (setField (w.extractLsb' 0 256) 128 128 (c.ymmHigh i)))
    (List.nodup_finRange 16) (List.mem_finRange i) (fun s j hj => ?_) (fun s => ?_) s
  · exact Cells.set_apply_other _ _ _ _ (by simpa using hj.symm)
  · exact Cells.set_apply_same ..

theorem initYmm_other (c : Context) (s : Proc μ) {d : Cell} (hd : ∀ i, d ≠ zmmLow i) :
    (initYmm c s).regs d = s.regs d :=
  Cells.foldl_keeps (p := fun s : Proc μ => s.regs d) _
    (fun _ i _ => Cells.set_apply_other _ _ _ _ (hd i)) s

theorem initOpmask_k (c : Context) (s : Proc μ) (i : Fin 8) :
    (initOpmask c s).regs (.k i) = setField (s.regs (.k i)) 0 64 (c.k i) := by
  refine Cells.foldl_turn (p := fun s : Proc μ => s.regs (.k i))
    (g := fun w => setField w 0 64 (c.k i)) (List.nodup_finRange 8) (List.mem_finRange i)
    (fun s j hj => ?_) (fun s => ?_) s
  · exact Cells.set_apply_other _ _ _ _ (by simpa using hj.symm)
  · exact Cells.set_apply_same ..

theorem initOpmask_other (c : Context) (s : Proc μ) {d : Cell} (hd : ∀ i, d ≠ .k i) :
    (initOpmask c s).regs d = s.regs d :=
  Cells.foldl_keeps (p := fun s : Proc μ => s.regs d) _
    (fun _ i _ => Cells.set_apply_other _ _ _ _ (hd i)) s

theorem zmmLow_ne_zmmUp (i j : Fin 16) : zmmLow i ≠ zmmUp j := by
  intro h
  have := congrArg Fin.val (Cell.zmm.inj h)
  simp at this
  omega

theorem zmmUp_injective : Function.Injective zmmUp := fun _ _ h =>
  Fin.natAdd_injective 16 16 (Cell.zmm.inj h)

theorem initZmm_low (c : Context) (s : Proc μ) (i : Fin 16) :
    (initZmm c s).regs (zmmLow i) = setField (s.regs (zmmLow i)) 0 512
      (setField ((s.regs (zmmLow i)).extractLsb' 0 512) 256 256 (c.zmmHigh i)) := by
  refine Cells.foldl_turn (p := fun s : Proc μ => s.regs (zmmLow i))
    (g := fun w => setField w 0 512 (setField (w.extractLsb' 0 512) 256 256 (c.zmmHigh i)))
    (List.nodup_finRange 16) (List.mem_finRange i) (fun s j hj => ?_) (fun s => ?_) s
  · exact (Cells.set_apply_other _ _ _ _ (zmmLow_ne_zmmUp i j)).trans
      (Cells.set_apply_other _ _ _ _ (by simpa using hj.symm))
  · exact (Cells.set_apply_other _ _ _ _ (zmmLow_ne_zmmUp i i)).trans (Cells.set_apply_same ..)

theorem initZmm_up (c : Context) (s : Proc μ) (i : Fin 16) :
    (initZmm c s).regs (zmmUp i) = setField (s.regs (zmmUp i)) 0 512 (c.zmm16 i) := by
  refine Cells.foldl_turn (p := fun s : Proc μ => s.regs (zmmUp i))
    (g := fun w => setField w 0 512 (c.zmm16 i))
    (List.nodup_finRange 16) (List.mem_finRange i) (fun s j hj => ?_) (fun s => ?_) s
  · exact (Cells.set_apply_other _ _ _ _ fun h => hj (zmmUp_injective h).symm).trans
      (Cells.set_apply_other _ _ _ _ (zmmLow_ne_zmmUp j i).symm)
  · refine (Cells.set_apply_same ..).trans ?_
    exact congrArg (setField · 0 512 (c.zmm16 i))
      (Cells.set_apply_other _ _ _ _ (zmmLow_ne_zmmUp i i).symm)

theorem initZmm_other (c : Context) (s : Proc μ) {d : Cell} (hd : ∀ i, d ≠ .zmm i) :
    (initZmm c s).regs d = s.regs d :=
  Cells.foldl_keeps (p := fun s : Proc μ => s.regs d) _
    (fun _ _ _ => (Cells.set_apply_other _ _ _ _ (hd _)).trans
      (Cells.set_apply_other _ _ _ _ (hd _))) s

theorem initStack_mm (c : Context) (s : Proc μ) (i : Fin 8) :
    (initStack c s).regs (.mmInternal (s.fpu.queryReg i)) =
      setField (s.regs (.mmInternal (s.fpu.queryReg i))) 0 64 (c.mm i) := by
  refine Cells.foldl_turn (p := fun s : Proc μ => s.regs (.mmInternal (s.fpu.queryReg i)))
    (g := fun w => setField w 0 64 (c.mm i)) (List.nodup_finRange 8) (List.mem_finRange i)
    (fun s j hj => ?_) (fun s => ?_) s
  · exact Cells.set_apply_other _ _ _ _ fun h =>
      hj (s.fpu.queryReg_injective (Cell.mmInternal.inj h)).symm
  · exact Cells.set_apply_same ..

theorem initStack_other (c : Context) (s : Proc μ) {d : Cell} (hd : ∀ i, d ≠ .mmInternal i) :
    (initStack c s).regs d = s.regs d :=
  Cells.foldl_keeps (p := fun s : Proc μ => s.regs d) _
    (fun _ _ _ => Cells.set_apply_other _ _ _ _ (hd _)) s

theorem initXmm_sameRest (c : Context) (s : Proc μ) : SameRest s (initXmm c s) :=
  foldl_sameRest (fun s _ => initRaw_sameRest s ..) _ s

theorem initYmm_sameRest (c : Context) (s : Proc μ) : SameRest s (initYmm c s) :=
  foldl_sameRest (fun s _ => initRaw_sameRest s ..) _ s

theorem initOpmask_sameRest (c : Context) (s : Proc μ) : SameRest s (initOpmask c s) :=
  foldl_sameRest (fun s _ => initRaw_sameRest s ..) _ s

theorem initZmm_sameRest (c : Context) (s : Proc μ) : SameRest s (initZmm c s) :=
  foldl_sameRest (fun s _ => (initRaw_sameRest s ..).trans (initRaw_sameRest _ ..)) _ s

theorem initStack_sameRest (c : Context) (s : Proc μ) : SameRest s (initStack c s) :=
  foldl_sameRest (fun s _ => initRaw_sameRest s ..) _ s

end Proc

/-! ## Restoring what was saved -/

open Proc

/-- The state a context carries, equal in two processors: everything but the upper 16 bits of the
x87 registers, MXCSR and PKRU. -/
structure SavedState (a b : Proc μ) : Prop where
  general : ∀ i, b.regs (.gp i) = a.regs (.gp i)
  rip : b.regs .rip = a.regs .rip
  segment : ∀ r, b.regs (.seg r) = a.regs (.seg r)
  control : ∀ i, b.regs (.cr i) = a.regs (.cr i)
  debug : ∀ i, b.regs (.dr i) = a.regs (.dr i)
  test : ∀ i, b.regs (.tr i) = a.regs (.tr i)
  vector : ∀ i, b.regs (.zmm i) = a.regs (.zmm i)
  opmask : ∀ i, b.regs (.k i) = a.regs (.k i)
  x87Low : ∀ i, (b.getSTRegister80 i).extractLsb' 0 64 = (a.getSTRegister80 i).extractLsb' 0 64
  fpu : b.fpu = a.fpu
  flags : b.flags = a.flags

/-- The whole state of two processors is the same. -/
structure SameState (a b : Proc μ) : Prop extends SavedState a b where
  x87 : ∀ i, b.getSTRegister80 i = a.getSTRegister80 i
  mxcsr : b.mxcsr = a.mxcsr
  pkru : b.pkru = a.pkru

section RoundTrip

variable (a t : Proc μ)

/-- The processor before the x87 state, its stack and the flags are loaded. -/
def beforeFpu : Proc μ :=
  initZmm a.queryContext (initOpmask a.queryContext (initYmm a.queryContext
    (initXmm a.queryContext (initScalars a.queryContext
      (t.setValue .rip a.queryContext.rip).clearCache))))

def withFpu : Proc μ := { beforeFpu a t with fpu := a.fpu }

theorem initContext_eq : t.initContext a.queryContext =
    { initStack a.queryContext (withFpu a t) with flags := a.flags } := rfl

theorem beforeFpu_scalar {d : Cell} (hd : d.isVector = false) :
    (beforeFpu a t).regs d = a.regs d := by
  have h (s : Proc μ) : (initScalars a.queryContext s).regs d = a.regs d := by
    cases d with
    | gp i => exact initScalars_gp a s i
    | seg r => exact initScalars_seg a s r
    | cr i => exact initScalars_cr a s i
    | dr i => exact initScalars_dr a s i
    | tr i => exact initScalars_tr a s i
    | rip => cases hd
    | zmm i => cases hd
    | k i => cases hd
    | mmInternal i => cases hd
  have hz : ∀ i, d ≠ .zmm i := by rintro i rfl; cases hd
  have hk : ∀ i, d ≠ .k i := by rintro i rfl; cases hd
  rw [beforeFpu, initZmm_other _ _ hz, initOpmask_other _ _ hk, initYmm_other _ _ fun i => hz _,
    initXmm_other _ _ fun i => hz _, h]

theorem beforeFpu_rip : (beforeFpu a t).regs .rip = a.regs .rip := by
  rw [beforeFpu, initZmm_other _ _ (by simp), initOpmask_other _ _ (by simp),
    initYmm_other _ _ (by simp), initXmm_other _ _ (by simp), initScalars_other _ _ rfl]
  have h := setValueEx_regs t (some .rip) .rip a.queryContext.rip .qword (by simp [isGeneral32])
  refine (congrFun h .rip).trans ((Cells.set_apply_same _ _ _ _ _).trans ?_)
  exact setField_getValue (r := .rip) a rfl rfl _ fun _ _ => rfl

theorem beforeFpu_k (i : Fin 8) : (beforeFpu a t).regs (.k i) = a.regs (.k i) := by
  rw [beforeFpu, initZmm_other _ _ (by simp), initOpmask_k]
  apply BitVec.eq_of_getLsbD_eq
  intro j hj
  have hj' : j < 64 := hj
  rw [getLsbD_setField _ _ _ _ hj, if_pos (by omega)]
  simp [queryContext, Cells.get, hj']

theorem beforeFpu_zmmUp (i : Fin 16) : (beforeFpu a t).regs (zmmUp i) = a.regs (zmmUp i) := by
  rw [beforeFpu, initZmm_up]
  apply BitVec.eq_of_getLsbD_eq
  intro j hj
  have hj' : j < 512 := hj
  rw [getLsbD_setField _ _ _ _ hj, if_pos (by omega)]
  simp [queryContext, Cells.get, hj']

theorem beforeFpu_zmmLow (i : Fin 16) :
    (beforeFpu a t).regs (zmmLow i) = a.regs (zmmLow i) := by
  rw [beforeFpu, initZmm_low, initOpmask_other _ _ (by simp), initYmm_low, initXmm_low]
  apply BitVec.eq_of_getLsbD_eq
  intro j hj
  have hj' : j < 512 := hj
  rw [getLsbD_setField _ _ _ _ hj, if_pos (by omega), Nat.sub_zero, getLsbD_setField _ _ _ _ hj']
  by_cases h256 : 256 ≤ j
  · have h : j - 256 < 256 := by omega
    have he : 256 + (j - 256) = j := by omega
    rw [if_pos (by omega)]
    simp [queryContext, Cells.get, h, he]
  · rw [if_neg (by omega)]
    have h256 : j < 256 := by omega
    simp only [BitVec.getLsbD_extractLsb', hj', decide_true, Bool.true_and, Nat.zero_add]
    rw [getLsbD_setField _ _ _ _ hj, if_pos (by omega), Nat.sub_zero, getLsbD_setField _ _ _ _ h256]
    by_cases h128 : 128 ≤ j
    · have h : j - 128 < 128 := by omega
      have he : 128 + (j - 128) = j := by omega
      rw [if_pos (by omega)]
      simp [queryContext, Cells.get, h, he]
    · rw [if_neg (by omega)]
      simp only [BitVec.getLsbD_extractLsb', h256, decide_true, Bool.true_and, Nat.zero_add]
      rw [getLsbD_setField _ _ _ _ hj, if_pos (by omega)]
      simp [queryContext, Cells.get, show j < 128 by omega]

theorem beforeFpu_zmm (i : Fin 32) : (beforeFpu a t).regs (.zmm i) = a.regs (.zmm i) := by
  by_cases h : i.val < 16
  · exact beforeFpu_zmmLow a t ⟨i.val, h⟩
  · have he : i = (⟨i.val - 16, by omega⟩ : Fin 16).natAdd 16 := by
      apply Fin.ext
      simp only [Fin.val_natAdd]
      omega
    rw [he]
    exact beforeFpu_zmmUp a t _

theorem beforeFpu_mm (j : Fin 8) :
    (beforeFpu a t).regs (.mmInternal j) = t.regs (.mmInternal j) := by
  rw [beforeFpu, initZmm_other _ _ (by simp), initOpmask_other _ _ (by simp),
    initYmm_other _ _ (by simp), initXmm_other _ _ (by simp), initScalars_other _ _ rfl]
  have h := setValueEx_regs t (some .rip) .rip a.queryContext.rip .qword (by simp [isGeneral32])
  exact (congrFun h _).trans (Cells.set_apply_other _ _ _ _ (by simp [Register.cell]))

theorem beforeFpu_sameRest :
    SameRest (t.setValue .rip a.queryContext.rip).clearCache (beforeFpu a t) :=
  ((((initScalars_sameRest _ _).trans (initXmm_sameRest _ _)).trans (initYmm_sameRest _ _)).trans
    (initOpmask_sameRest _ _)).trans (initZmm_sameRest _ _)

theorem initContext_mxcsr : (t.initContext a.queryContext).mxcsr = t.mxcsr := by
  rw [initContext_eq]
  dsimp only
  rw [(initStack_sameRest a.queryContext (withFpu a t)).mxcsr, withFpu]
  dsimp only
  rw [(beforeFpu_sameRest a t).mxcsr, clearCache]
  exact (sameRest_setValueEx t ..).mxcsr

theorem initContext_pkru : (t.initContext a.queryContext).pkru = t.pkru := by
  rw [initContext_eq]
  dsimp only
  rw [(initStack_sameRest a.queryContext (withFpu a t)).pkru, withFpu]
  dsimp only
  rw [(beforeFpu_sameRest a t).pkru, clearCache]
  exact (sameRest_setValueEx t ..).pkru

theorem initContext_fpu : (t.initContext a.queryContext).fpu = a.fpu := by
  rw [initContext_eq]
  dsimp only
  rw [(initStack_sameRest a.queryContext (withFpu a t)).fpu, withFpu]

/-- The slot of ST(i) after the restore: the saved 64 bits under the old upper bits. -/
theorem initContext_mm (i : Fin 8) :
    (t.initContext a.queryContext).regs (.mmInternal (a.fpu.queryReg i)) =
      setField (t.regs (.mmInternal (a.fpu.queryReg i))) 0 64 (a.getContextMM i) := by
  rw [initContext_eq]
  have h := initStack_mm a.queryContext (withFpu a t) i
  have hfpu : (withFpu a t).fpu = a.fpu := by rw [withFpu]
  have hregs : (withFpu a t).regs = (beforeFpu a t).regs := by rw [withFpu]
  rw [hfpu, hregs, beforeFpu_mm] at h
  exact h

theorem getLsbD_getSTRegister80 (i : Fin 8) {j : Nat} (hj : j < 80) :
    ((t.initContext a.queryContext).getSTRegister80 i).getLsbD j =
      if j < 64 then (a.getSTRegister80 i).getLsbD j
      else (t.regs (.mmInternal (a.fpu.queryReg i))).getLsbD j := by
  rw [getSTRegister80, initContext_fpu, Cells.get, BitVec.getLsbD_extractLsb', initContext_mm,
    Nat.zero_add, getLsbD_setField (t.regs _) 0 64 (a.getContextMM i) hj]
  by_cases h : j < 64
  · simp [getContextMM, getSTRegister80, Cells.get, h, hj]
  · simp [h, hj]

theorem initContext_regs {d : Cell} (hd : ∀ i, d ≠ .mmInternal i) :
    (t.initContext a.queryContext).regs d = a.regs d := by
  rw [initContext_eq]
  dsimp only
  rw [initStack_other _ _ hd, withFpu]
  dsimp only
  cases d with
  | zmm i => exact beforeFpu_zmm a t i
  | k i => exact beforeFpu_k a t i
  | rip => exact beforeFpu_rip a t
  | mmInternal i => exact absurd rfl (hd i)
  | gp i => exact beforeFpu_scalar a t rfl
  | seg r => exact beforeFpu_scalar a t rfl
  | cr i => exact beforeFpu_scalar a t rfl
  | dr i => exact beforeFpu_scalar a t rfl
  | tr i => exact beforeFpu_scalar a t rfl

theorem savedState_initContext : SavedState a (t.initContext a.queryContext) where
  general i := initContext_regs a t (by simp)
  rip := initContext_regs a t (by simp)
  segment r := initContext_regs a t (by simp)
  control i := initContext_regs a t (by simp)
  debug i := initContext_regs a t (by simp)
  test i := initContext_regs a t (by simp)
  vector i := initContext_regs a t (by simp)
  opmask i := initContext_regs a t (by simp)
  x87Low i := by
    apply BitVec.eq_of_getLsbD_eq
    intro j hj
    rw [BitVec.getLsbD_extractLsb', BitVec.getLsbD_extractLsb', Nat.zero_add,
      getLsbD_getSTRegister80 a t i (by omega), if_pos hj]
  fpu := initContext_fpu a t
  flags := by rw [initContext_eq]

theorem sameState_initContext
    (hx87 : ∀ j, (t.regs (.mmInternal j)).extractLsb' 64 16 =
      (a.regs (.mmInternal j)).extractLsb' 64 16)
    (hmxcsr : t.mxcsr = a.mxcsr) (hpkru : t.pkru = a.pkru) :
    SameState a (t.initContext a.queryContext) where
  toSavedState := savedState_initContext a t
  x87 i := by
    apply BitVec.eq_of_getLsbD_eq
    intro j hj
    rw [getLsbD_getSTRegister80 a t i hj]
    split
    · rfl
    · next h =>
      have hbit := congrArg (fun b : BitVec 16 => b.getLsbD (j - 64)) (hx87 (a.fpu.queryReg i))
      have h16 : j - 64 < 16 := by omega
      have he : 64 + (j - 64) = j := by omega
      simpa [getSTRegister80, Cells.get, h16, he, hj] using hbit
  mxcsr := (initContext_mxcsr a t).trans hmxcsr
  pkru := (initContext_pkru a t).trans hpkru

/-- Saving a processor and restoring another one from the context gives it everything a context
holds, and the whole state where the other processor agreed on what a context does not hold. -/
theorem initContext_queryContext : SavedState a (t.initContext a.queryContext) ∧
    ((∀ j, (t.regs (.mmInternal j)).extractLsb' 64 16 =
        (a.regs (.mmInternal j)).extractLsb' 64 16) →
      t.mxcsr = a.mxcsr → t.pkru = a.pkru → SameState a (t.initContext a.queryContext)) :=
  ⟨savedState_initContext a t, sameState_initContext a t⟩

end RoundTrip

/-- The state `fld1` leaves in a new processor: 1.0 pushed on the x87 stack. -/
def oneOnStack : Proc Unit :=
  let s := Proc.init ⟨true, .dword, .qword⟩ ()
  { s with fpu := s.fpu.push }.setSTRegister80 0 0x3FFF8000000000000000

/-- Restored into another new processor, ST(0) has lost its sign and exponent. -/
theorem initContext_loses_exponent : ¬ SameState oneOnStack
    ((Proc.init ⟨true, .dword, .qword⟩ ()).initContext oneOnStack.queryContext) := by
  intro h
  have hbit := getLsbD_getSTRegister80 oneOnStack (Proc.init ⟨true, .dword, .qword⟩ ()) 0
    (show 64 < 80 by decide)
  rw [h.x87 0, if_neg (by decide)] at hbit
  exact absurd hbit (by decide)

end Diana.Processor
