import Diana.Lib.Field
import Diana.Analyze.TrackArm64

/-!
# Known registers

What `trackArm64` believes, against a machine that executes the same instructions: a register that
is known holds its value (behind the load base when it is relative), and what an instruction refers
to is an address it computes.

* `Machine`, `Executes`: the machine, and what one instruction may do to it;
* `Observes`: an observer over an image that stands in the machine's memory;
* `Holds`: what is known is true; `tracks_holds`: a step keeps it;
* `run_holds`: so it is in every run without an address at an unknown base.
-/

namespace Diana.Analyze.Arm64

open Diana.Lib

/-! ## The machine -/

/-- The general registers, the stack pointer and the memory. -/
structure Machine where
  x : Reg → Value
  sp : Value
  mem : Value → Byte

namespace Machine

/-- What an operand register holds. -/
def read (m : Machine) : Register → Value
  | .x n => m.x n
  | .w n => m.x n &&& 0xFFFFFFFF
  | .sp => m.sp
  | .wsp => m.sp &&& 0xFFFFFFFF
  | _ => 0

/-- `n` bytes of memory. -/
def bytesAt (mem : Value → Byte) (a : Value) (n : Nat) : List Byte :=
  (List.range n).map fun i => mem (a + BitVec.ofNat 64 i)

def load64 (m : Machine) (a : Value) : Value := BitVec.ofNat 64 (leNat (bytesAt m.mem a 8))

/-- The address of a memory operand without an index. A literal counts from the next instruction. -/
def address (m : Machine) (pc : Value) (rm : RmIndex) : Value :=
  (if rm.reg = .pc then pc + 4 else m.read rm.reg) + rm.dispValue

end Machine

open Machine

/-- What `adr`, `adrp`, `add Xd, Xn, #imm`, `mov Xd, Xm` and `ldr Xt` compute. -/
def result (pc : Value) (m : Machine) (r : ParserResult) : Option Value :=
  match r.id, r.linkedOperands with
  | .adr, [_, a] =>
    match a.type with
    | .rel value => some (pc + 4 + value)
    | _ => none
  | .adrp, [_, a] =>
    match a.type with
    | .special imm => some ((pc &&& ~~~0xFFF) + imm)
    | _ => none
  | .add, [d, n, i] =>
    match n.type, i.type with
    | .register src, .imm value =>
      if d.usedSize = 8 then some (m.read src + (value <<< i.shiftAmount)) else none
    | _, _ => none
  | .orr, [_, n, k] =>
    match n.type, k.type with
    | .register .xzr, .shiftedReg src => if k.shiftAmount = 0 then some (m.read src) else none
    | _, _ => none
  | .ldr, [t, a] =>
    match t.type, a.type with
    | .register (.x _), .index rm =>
      if rm.reg = .pc ∨ a.opKind = .memUoff then some (m.load64 (m.address pc rm)) else none
    | _, _ => none
  | _, _ => none

/-- An operand writes an address back to its base. -/
def LinkedOperand.writesBack (op : LinkedOperand) (n : Reg) : Bool :=
  match op.type with
  | .index rm => op.writeback && rm.reg.index? = some n
  | _ => false

/-- An operand names a register that an instruction could change. -/
def LinkedOperand.names (op : LinkedOperand) (n : Reg) : Bool :=
  op.recognizedRegister.index? = some n || op.writesBack n

/-- The commands that `TrackArm64` tells apart change nothing but their first operand and the bases
they write back. -/
def followed : List CmdId :=
  [.subs, .adr, .adrp, .add, .orr, .ldr, .ldrb, .ldrh, .ldrsb, .ldrsh, .ldrsw]

/-- An instruction may change a register. -/
def ParserResult.mayChange (r : ParserResult) (n : Reg) : Bool :=
  if r.id ∈ followed then r.linkedOperands.head?.any (·.names n) || r.linkedOperands.any
    (·.writesBack n)
  else r.linkedOperands.any (·.names n)

/-- An execution of an instruction at `pc`. -/
structure Executes (pc : Value) (r : ParserResult) (m m' : Machine) : Prop where
  result : ∀ d v, r.linkedOperands.head? = some d → result pc m r = some v →
    ∀ n, d.recognizedRegister = .x n → m'.x n = v
  callee : r.isCall = true → ∀ n, Tracking.callerSaved n = false → m'.x n = m.x n
  frame : r.isCall = false → r.unsupported = false → ∀ n, r.mayChange n = false → m'.x n = m.x n

/-- What the encodings make sure of: a call is no command that is followed, `adr`, `adrp` and `mov`
write an X register, an address is formed on one, only some memory operands are written back, and an
index is extended from a W register or taken from an X register. -/
structure Encodable (r : ParserResult) : Prop where
  call : r.isCall = true → r.id = .other
  wide : ∀ d v n, adr? r = some (d, v) ∨ adrp? r = some (d, v) → d ≠ .w n
  mov : ∀ d src n, mov? r = some (d, src) → d ≠ .w n
  base : ∀ op ∈ r.linkedOperands, ∀ rm, op.type = .index rm → ∀ n, rm.reg ≠ .w n
  first : r.id ∈ followed → ∀ d, r.linkedOperands.head? = some d → d.writeback = false
  offset : ∀ op ∈ r.linkedOperands, op.opKind ≠ .other → op.writeback = false
  extend : ∀ op ∈ r.linkedOperands, op.opKind = .memRegoff →
    op.shiftType ∈ [DIANA_ARM_EXTEND_UXTW, DIANA_ARM_EXTEND_UXTX, DIANA_ARM_EXTEND_SXTW,
      DIANA_ARM_EXTEND_SXTX]

/-- The observer and its stream know the image that stands at `loadBase`. -/
structure Observes (E : Env) (loadBase : Value) (mem : Value → Byte) : Prop where
  absolute : ∀ a o, E.analyzeAddress a true = .ok (o, .normal) → loadBase + o = a
  relative : ∀ a o, E.analyzeAddress a false = .ok (o, .normal) → o = a
  content : ∀ o size bytes, E.randomRead o size = .ok bytes → bytes.length = size →
    bytes = bytesAt mem (loadBase + o) size

/-- What the parameters of the analysis promise about the load base. -/
structure Placed (E : Env) (loadBase : Value) : Prop where
  aligned : E.addressesRelative = true → loadBase &&& 0xFFF = 0
  known : E.addressesRelative = false → E.imageBaseUnknown = false → E.imageBase = loadBase

/-- The address a value stands for. -/
def addressOf (loadBase value : Value) (relative : Bool) :
    Value := if relative then loadBase + value else value

/-- Every register that is known holds its value. -/
def Holds (loadBase : Value) (m : Machine) (s : Tracking) : Prop :=
  ∀ n, s.known n = true → m.x n = addressOf loadBase (s.regs n) (s.relative n)

/-- The instruction does not form an address of the module from an unknown image base. -/
def Located (E : Env) (loadBase : Value) (r : ParserResult) : Prop :=
  E.addressesRelative = true ∨ E.imageBase = loadBase ∨
    (∀ d v n, adr? r = some (d, v) → d ≠ .x n) ∧
    (∀ t v n, literal? r = some (t, v) → t.type ≠ .register (.x n))

/-! ## Registers that are forgotten or set -/

section

variable {s : Tracking} {loadBase : Value} {m m' : Machine}

/-- Less is known, and nothing else. -/
structure Forgets (s t : Tracking) : Prop where
  regs : t.regs = s.regs
  relative : t.relative = s.relative
  known : ∀ n, t.known n = true → s.known n = true

theorem Forgets.refl (s : Tracking) : Forgets s s := ⟨rfl, rfl, fun _ h => h⟩

theorem Forgets.trans {t u : Tracking} (h : Forgets s t) (h' : Forgets t u) : Forgets s u :=
  ⟨h'.regs.trans h.regs, h'.relative.trans h.relative, fun n hn => h.known n (h'.known n hn)⟩

theorem forgets_forget (s : Tracking) (mask : Reg → Bool) :
    Forgets s (s.forgetArm64Registers mask) :=
  ⟨rfl, rfl, fun _ h => (Bool.and_eq_true_iff.1 h).1⟩

theorem forgets_drop (s : Tracking) (r : Register) : Forgets s (s.dropArm64Register r) := by
  unfold Tracking.dropArm64Register
  split
  · exact .refl s
  · exact forgets_forget s _

theorem forgets_compares (s : Tracking) (r : ParserResult) : Forgets s (s.compares r) := by
  unfold Tracking.compares
  cases s.getArm64BranchBound r false with
  | none => dsimp only; split <;> exact ⟨rfl, rfl, fun _ h => h⟩
  | some count => dsimp only; split <;> exact ⟨rfl, rfl, fun _ h => h⟩

/-- What is left is still true where the machine left it alone. -/
theorem Holds.forgets {t : Tracking} (h : Holds loadBase m s) (hf : Forgets s t)
    (hm : ∀ n, t.known n = true → m'.x n = m.x n) : Holds loadBase m' t := by
  intro n hn
  rw [hm n hn, hf.regs, hf.relative]
  exact h n (hf.known n hn)

/-- A register that is set holds the value, and the machine left the other ones alone. -/
theorem Holds.set {r : Register} {value : Value} {relative : Bool} (h : Holds loadBase m s)
    (hset : ∀ n, r.index? = some n → m'.x n = addressOf loadBase value relative)
    (hm : ∀ n, r.index? ≠ some n → m'.x n = m.x n) :
    Holds loadBase m' (s.setArm64Value r value relative) := by
  unfold Tracking.setArm64Value
  cases hr : r.index? with
  | none => exact h.forgets (.refl s) fun n _ => hm n (by rw [hr]; exact nofun)
  | some k =>
    intro n hn
    dsimp only at hn ⊢
    by_cases hk : n = k
    · subst hk
      rw [Function.update_self, Function.update_self]
      exact hset n hr
    · rw [Function.update_of_ne hk] at hn
      rw [Function.update_of_ne hk, Function.update_of_ne hk,
        hm n (by rw [hr]; exact fun he => hk (Option.some.inj he).symm)]
      exact h n ((forgets_forget s _).known n hn)

theorem known_drop {r : Register} {n : Reg} (h : (s.dropArm64Register r).known n = true) :
    r.index? ≠ some n := by
  intro hr
  simp [Tracking.dropArm64Register, hr, Tracking.forgetArm64Registers] at h

theorem known_forgetOperand {op : LinkedOperand} {n : Reg}
    (h : (s.forgetOperand op).known n = true) : op.names n = false := by
  unfold Tracking.forgetOperand at h
  unfold LinkedOperand.names LinkedOperand.recognizedRegister LinkedOperand.writesBack
  cases ht : op.type with
  | register r | shiftedReg r =>
    rw [ht] at h
    rw [Bool.or_false]
    exact decide_eq_false (known_drop h)
  | index rm =>
    rw [ht] at h
    dsimp only at h ⊢
    cases hw : op.writeback with
    | false => rfl
    | true =>
      rw [hw, if_pos rfl] at h
      rw [Bool.true_and, decide_eq_false (known_drop h)]
      rfl
  | imm | rel | special | other => rfl

theorem forgets_forgetOperand (s : Tracking) (op : LinkedOperand) :
    Forgets s (s.forgetOperand op) := by
  unfold Tracking.forgetOperand
  split
  · exact forgets_drop s _
  · exact forgets_drop s _
  · split
    · exact forgets_drop s _
    · exact .refl s
  · exact .refl s

theorem forgets_operands (ops : List LinkedOperand) (s : Tracking) :
    Forgets s (ops.foldl Tracking.forgetOperand s) := by
  induction ops generalizing s with
  | nil => exact .refl s
  | cons op ops ih => exact (forgets_forgetOperand s op).trans (ih _)

theorem known_operands {ops : List LinkedOperand} {n : Reg}
    (h : (ops.foldl Tracking.forgetOperand s).known n = true) : ops.any (·.names n) = false := by
  induction ops generalizing s with
  | nil => rfl
  | cons op ops ih =>
    rw [List.any_cons, Bool.or_eq_false_iff]
    exact ⟨known_forgetOperand ((forgets_operands ops _).known n h), ih h⟩

theorem known_forget {mask : Reg → Bool} {n : Reg}
    (h : (s.forgetArm64Registers mask).known n = true) : mask n = false := by
  have := (Bool.and_eq_true_iff.1 h).2
  simpa using this

end

/-! ## What an instruction changes -/

section

variable {r : ParserResult}

/-- What an instruction may change, it names. -/
theorem names_of_mayChange {n : Reg} (h : r.linkedOperands.any (·.names n) = false) :
    r.mayChange n = false := by
  have hw : r.linkedOperands.any (·.writesBack n) = false := by
    rw [List.any_eq_false] at h ⊢
    intro op hop hb
    exact h op hop (by rw [LinkedOperand.names, hb, Bool.or_true])
  unfold ParserResult.mayChange
  split
  · rw [hw, Bool.or_false]
    cases hl : r.linkedOperands with
    | nil => rfl
    | cons d ops =>
      rw [hl, List.any_cons, Bool.or_eq_false_iff] at h
      exact h.1
  · exact h

/-- A command that is followed changes its first operand only, where no base is written back. -/
theorem mayChange_first {d : LinkedOperand} {ops : List LinkedOperand} {n : Reg}
    (hr : r.id ∈ followed) (he : Encodable r) (hops : r.linkedOperands = d :: ops)
    (hw : ∀ op ∈ ops, op.writesBack n = false) (hd : d.recognizedRegister.index? ≠ some n) :
    r.mayChange n = false := by
  have hdw : d.writesBack n = false := by
    unfold LinkedOperand.writesBack
    rw [he.first hr d (by rw [hops]; rfl)]
    cases d.type <;> rfl
  rw [ParserResult.mayChange, if_pos hr, hops, List.head?_cons, Option.any_some, List.any_cons,
    LinkedOperand.names, hdw, decide_eq_false hd, List.any_eq_false.2 fun op hop => by
    rw [hw op hop]; exact Bool.false_ne_true]
  rfl

theorem writesBack_of_not_index {op : LinkedOperand} (h : ∀ rm, op.type ≠ .index rm) (n : Reg) :
    op.writesBack n = false := by
  unfold LinkedOperand.writesBack
  cases ht : op.type with
  | index rm => exact absurd ht (h rm)
  | register | shiftedReg | imm | rel | special | other => rfl

theorem writesBack_of_not_writeback {op : LinkedOperand} (h : op.writeback = false) (n : Reg) :
    op.writesBack n = false := by
  unfold LinkedOperand.writesBack
  rw [h]
  cases op.type <;> rfl

theorem writesBack_of_pc {op : LinkedOperand} {rm : RmIndex} (ht : op.type = .index rm)
    (h : rm.reg = .pc) (n : Reg) : op.writesBack n = false := by
  unfold LinkedOperand.writesBack
  rw [ht]
  dsimp only
  rw [h]
  simp [Register.index?]

/-- A call is no command that is followed, and neither is a word that is not supported. -/
theorem plain_of_followed (he : Encodable r) (hr : r.id ∈ followed) :
    r.isCall = false ∧ r.unsupported = false := by
  constructor
  · rw [← Bool.not_eq_true]
    intro hc
    rw [he.call hc] at hr
    exact absurd hr (by decide)
  · refine decide_eq_false fun hu => ?_
    rw [hu] at hr
    exact absurd hr (by decide)

/-! ## The operands of the instructions that are followed -/

theorem compared?_eq_some {n : Reg} {imm : Value} (h : compared? r = some (n, imm)) :
    r.id = .subs ∧ ∃ d k i, r.linkedOperands = [d, k, i] ∧
    (d.type = .register .wzr ∨ d.type = .register .xzr) ∧
      (∃ src, k.type = .register src) ∧ ∃ v, i.type = .imm v := by
  unfold compared? at h
  split at h
  · rename_i d k i hid hops
    split at h
    · rename_i dst src value hd hk hi
      split at h
      · rename_i hz
        refine ⟨hid, d, k, i, hops, ?_, ⟨src, hk⟩, value, hi⟩
        rcases hz.1 with rfl | rfl
        · exact .inl hd
        · exact .inr hd
      · cases h
    · cases h
  · cases h

theorem adr?_eq_some {d : Register} {v : Value} (h : adr? r = some (d, v)) :
    r.id = .adr ∧ ∃ op a, r.linkedOperands = [op, a] ∧ op.recognizedRegister = d ∧
    a.type = .rel v := by
  unfold adr? at h
  split at h
  · rename_i op a hid hops
    split at h
    · rename_i value ha
      cases h
      exact ⟨hid, op, a, hops, rfl, ha⟩
    · cases h
  · cases h

theorem adrp?_eq_some {d : Register} {v : Value} (h : adrp? r = some (d, v)) :
    r.id = .adrp ∧ ∃ op a, r.linkedOperands = [op, a] ∧ op.recognizedRegister = d ∧
    a.type = .special v := by
  unfold adrp? at h
  split at h
  · rename_i op a hid hops
    split at h
    · rename_i value ha
      cases h
      exact ⟨hid, op, a, hops, rfl, ha⟩
    · cases h
  · cases h

theorem addImm?_eq_some {s : Tracking} {d : Register} {v : Value} {relative : Bool}
    (h : addImm? s r = some (d, v, relative)) :
    r.id = .add ∧ ∃ op n i base imm, r.linkedOperands = [op, n, i] ∧ op.recognizedRegister = d ∧
    op.usedSize = 8 ∧
      i.type = .imm imm ∧ s.getArm64Value n = some (base, relative) ∧
      v = base + (imm <<< i.shiftAmount) := by
  unfold addImm? at h
  split at h
  · rename_i op n i hid hops
    split at h
    · rename_i imm base rel hi hn
      split at h
      · rename_i hu
        cases h
        exact ⟨hid, op, n, i, base, imm, hops, rfl, hu, hi, hn, rfl⟩
      · cases h
    · cases h
  · cases h

theorem mov?_eq_some {d src : Register} (h : mov? r = some (d, src)) :
    r.id = .orr ∧ ∃ op n k, r.linkedOperands = [op, n, k] ∧ op.recognizedRegister = d ∧
    n.type = .register .xzr ∧
      k.type = .shiftedReg src ∧ k.shiftAmount = 0 := by
  unfold mov? at h
  split at h
  · rename_i op n k hid hops
    split at h
    · rename_i reg hk
      split at h
      · rename_i hz
        cases h
        exact ⟨hid, op, n, k, hops, rfl, hz.1, hk, hz.2⟩
      · cases h
    · cases h
  · cases h

theorem ldr?_eq_some {t : LinkedOperand} {rm : RmIndex} {kind : OpKind}
    (h : ldr? r = some (t, rm, kind)) :
    r.id = .ldr ∧ ∃ m, r.linkedOperands = [t, m] ∧ m.type = .index rm ∧ m.opKind = kind := by
  unfold ldr? at h
  split at h
  · rename_i op m hid hops
    split at h
    · rename_i rm' hm
      cases h
      exact ⟨hid, m, hops, hm, rfl⟩
    · cases h
  · cases h

theorem literal?_eq_some {t : LinkedOperand} {v : Value} (h : literal? r = some (t, v)) :
    r.id = .ldr ∧ ∃ m rm, r.linkedOperands = [t, m] ∧ m.type = .index rm ∧ rm.reg = .pc ∧
    rm.dispValue = v := by
  unfold literal? at h
  split at h
  · rename_i t' rm kind hl
    obtain ⟨hid, m, hops, hm, -⟩ := ldr?_eq_some hl
    split at h
    · rename_i hpc
      cases h
      exact ⟨hid, m, rm, hops, hm, hpc, rfl⟩
    · cases h
  · cases h

theorem offsetLoad?_eq_some {s : Tracking} {t : LinkedOperand} {a : Value} {relative : Bool}
    (h : offsetLoad? s r = some (t, a, relative)) :
    r.id = .ldr ∧ ∃ m rm base, r.linkedOperands = [t, m] ∧ m.type = .index rm ∧
    m.opKind = .memUoff ∧
      s.valueOf rm.reg = some (base, relative) ∧ a = base + rm.dispValue := by
  unfold offsetLoad? at h
  split at h
  · rename_i t' rm hl
    obtain ⟨hid, m, hops, hm, hkind⟩ := ldr?_eq_some hl
    split at h
    · rename_i base rel hv
      cases h
      exact ⟨hid, m, rm, base, hops, hm, hkind, hv, rfl⟩
    · cases h
  · cases h

theorem tableLoad?_eq_some {s : Tracking} {l : TableLoad} (h : tableLoad? s r = some l) :
    ∃ t m rm dst, r.linkedOperands = [t, m] ∧ t.type = .register dst ∧ m.type = .index rm ∧
    m.opKind = .memRegoff ∧
      loadSize r.id t.usedSize = some l.size ∧ dst.index? = some l.index ∧
      isScaled l.size m = true ∧
      rm.indexedReg.index? = s.boundReg ∧ s.boundCount ≠ 0 ∧ s.valueOf rm.reg = some
      (l.base, l.relative) ∧ l.signed = isSignedLoad r.id := by
  unfold tableLoad? at h
  split at h
  · rename_i t m hops
    split at h
    · rename_i size rm dst hsize hm ht
      split at h
      · rename_i hc
        split at h
        · rename_i n base rel hn hv
          cases h
          exact ⟨t, m, rm, dst, hops, ht, hm, hc.1, hsize, hn, hc.2.2.2, hc.2.2.1, hc.2.1, hv, rfl⟩
        · cases h
      · cases h
    · cases h
  · cases h

theorem tableAdd?_eq_some {s : Tracking} {a : TableAdd} (h : tableAdd? s r = some a) :
    r.id = .add ∧ ∃ d n m reg, r.linkedOperands = [d, n, m] ∧ m.type = .shiftedReg reg ∧
      s.getArm64Value n = some (a.base, a.relative) ∧ d.recognizedRegister.index? = some a.index ∧
      reg.index? = s.tableReg ∧ s.tableStage = 1 ∧ d.usedSize = 8 ∧ s.tableReg.isSome = true ∧
      (m.shiftType = DIANA_ARM_SHIFT_LSL ∨ DIANA_ARM_EXTEND_UXTB ≤ m.shiftType) ∧
      a.extend = m.shiftType ∧ a.shift = m.shiftAmount := by
  unfold tableAdd? at h
  split at h
  · rename_i d n m hid hops
    split at h
    · rename_i reg base rel index hm hn hd
      split at h
      · rename_i hc
        cases h
        exact ⟨hid, d, n, m, reg, hops, hm, hn, hd, hc.2.2.2.1, hc.2.1, hc.2.2.1, hc.1,
          hc.2.2.2.2, rfl, rfl⟩
      · cases h
    · cases h
  · cases h

theorem followed_of_loadSize {u n : Nat} (h : loadSize r.id u = some n) : r.id ∈ followed := by
  unfold loadSize at h
  split at h
  all_goals first
    | (rename_i hid; rw [hid]; decide)
    | cases h

end

/-! ## A step -/

section

variable {E : Env} {r : ParserResult} {loadBase off : Value} {s t : Tracking} {m m' : Machine}
  {actions : List Action}

theorem valueOf_read {reg : Register} {v : Value} {relative : Bool} (hs : Holds loadBase m s)
    (h : s.valueOf reg = some (v, relative)) (hw : ∀ n, reg ≠ .w n) :
    m.read reg = addressOf loadBase v relative := by
  unfold Tracking.valueOf at h
  cases reg with
  | x n =>
    dsimp only [Register.index?] at h
    split at h
    · rename_i hk
      cases h
      exact hs n hk
    · cases h
  | w n => exact absurd rfl (hw n)
  | xzr | wzr | sp | wsp | pc | other => cases h

theorem getArm64Value_read {op : LinkedOperand} {v : Value} {relative : Bool}
    (hs : Holds loadBase m s) (h : s.getArm64Value op = some (v, relative)) :
    ∃ reg, op.type = .register reg ∧ m.read reg = addressOf loadBase v relative := by
  unfold Tracking.getArm64Value at h
  split at h
  · rename_i reg hop
    split at h
    · rename_i hu
      refine ⟨reg, hop, valueOf_read hs h fun n hn => ?_⟩
      rw [hn] at hu
      exact absurd hu (by simp [Register.usedSize])
    · cases h
  · cases h

theorem addressOf_add (loadBase v w : Value) (relative : Bool) :
    addressOf loadBase (v + w) relative = addressOf loadBase v relative + w := by
  cases relative with
  | false => rfl
  | true => exact (BitVec.add_assoc _ _ _).symm

/-- An address of the module is what the machine computes, once the base is right. -/
theorem addressOf_module (h : E.addressesRelative = true ∨ E.imageBase = loadBase) (o : Value) :
    addressOf loadBase (getArm64ModuleAddress E o).1
    (getArm64ModuleAddress E o).2 = loadBase + o := by
  unfold getArm64ModuleAddress
  cases hrel : E.addressesRelative with
  | true => rfl
  | false =>
    rcases h with h | h
    · exact absurd (hrel.symm.trans h) Bool.false_ne_true
    · rw [if_neg Bool.false_ne_true, h]
      rfl

/-- A page of an aligned module. -/
theorem page_add (h : loadBase &&& 0xFFF = 0) (o : Value) :
    (loadBase + o) &&& ~~~0xFFF = loadBase + (o &&& ~~~0xFFF) := by
  have hclear : ∀ v : Value, (v &&& ~~~0xFFF).toNat = v.toNat / 4096 * 4096 :=
    fun v => toNat_clear_low v 12
  have hlow : loadBase.toNat % 4096 = 0 := by
    have := congrArg BitVec.toNat h
    rw [BitVec.toNat_and] at this
    exact (Nat.and_two_pow_sub_one_eq_mod _ 12).symm.trans this
  apply BitVec.eq_of_toNat_eq
  rw [hclear, BitVec.toNat_add, BitVec.toNat_add, hclear]
  have := loadBase.isLt
  have := o.isLt
  omega

theorem readModule_bytes (hE : Observes E loadBase m.mem) {a : Value} {relative : Bool} {size : Nat}
    {bytes : List Byte} (h : readModule E a relative size = some bytes) :
    bytes = bytesAt m.mem (addressOf loadBase a relative) size := by
  unfold readModule at h
  split at h
  · rename_i o ha
    split at h
    · rename_i bs hb
      split at h
      · rename_i hlen
        cases h
        rw [hE.content o size bytes hb hlen]
        cases relative with
        | false => rw [hE.absolute a o ha]; rfl
        | true => rw [hE.relative a o ha]; rfl
      · cases h
    · cases h
  · cases h

theorem readArm64Pointer_eq (hE : Observes E loadBase m.mem) {a v : Value} {relative : Bool}
    (h : readArm64Pointer E a relative = some v) :
    m.load64 (addressOf loadBase a relative) = v := by
  unfold readArm64Pointer at h
  obtain ⟨bytes, hb, hv⟩ := Option.map_eq_some_iff.1 h
  rw [← hv, readModule_bytes hE hb]
  rfl

/-- What `LoadArm64Value` leaves known: the loaded value, or less than before. -/
theorem loadArm64Value_cases {op : LinkedOperand} {a : Value} {relative : Bool} {u : Tracking}
    (h : loadArm64Value E s op a relative = .ok (u, actions)) :
    (∃ n v, op.type = .register (.x n) ∧ readArm64Pointer E a relative = some v ∧
      u = s.setArm64Value (.x n) v false ∧ saveArm64AddressTaken E v false = .ok actions) ∨
      u = s.dropArm64Register op.recognizedRegister ∧ actions = [] := by
  unfold loadArm64Value at h
  split at h
  · rename_i n v hop hv
    split at h
    · cases h
      refine .inr ⟨?_, rfl⟩
      rw [LinkedOperand.recognizedRegister, hop]
    · obtain ⟨acts, hacts, heq⟩ := bind_eq_ok.1 h
      cases heq
      exact .inl ⟨n, v, hop, hv, rfl, hacts⟩
  · cases h
    exact .inr ⟨rfl, rfl⟩

section

variable {d : LinkedOperand} {ops : List LinkedOperand} (hx : Executes (loadBase + off) r m m')
  (he : Encodable r)
  (hr : r.id ∈ followed) (hops : r.linkedOperands = d :: ops) (hw : ∀ n, ∀ op ∈ ops,
    op.writesBack n = false)
  (hs : Holds loadBase m s)

include hx he hr hops hw

theorem frame_first {n : Reg} (hd : d.recognizedRegister.index? ≠ some n) : m'.x n = m.x n :=
  have hplain := plain_of_followed he hr
  hx.frame hplain.1 hplain.2 n (mayChange_first hr he hops (hw n) hd)

include hs

/-- The first operand is forgotten. -/
theorem holds_forget_first (hf : Forgets s t)
    (hd : ∀ n, t.known n = true → d.recognizedRegister.index? ≠ some n) :
    Holds loadBase m' t :=
  hs.forgets hf fun n hn => frame_first hx he hr hops hw (hd n hn)

theorem holds_drop_first : Holds loadBase m' (s.dropArm64Register d.recognizedRegister) :=
  holds_forget_first hx he hr hops hw hs (forgets_drop s _) fun _ => known_drop

/-- The first operand holds the result. -/
theorem holds_set_first {v : Value} {relative : Bool} (hwide : ∀ n, d.recognizedRegister ≠ .w n)
    (hres : result (loadBase + off) m r = some (addressOf loadBase v relative)) :
    Holds loadBase m' (s.setArm64Value d.recognizedRegister v relative) := by
  refine hs.set (fun n hn => ?_) fun n hn => frame_first hx he hr hops hw hn
  refine hx.result d _ (by rw [hops]; rfl) hres n ?_
  cases hd : d.recognizedRegister with
  | x k =>
    rw [hd] at hn
    rw [Option.some.inj hn]
  | w k => exact absurd hd (hwide k)
  | xzr | wzr | sp | wsp | pc | other =>
    rw [hd] at hn
    cases hn

end

theorem located_module (hl : Located E loadBase r)
    (h : (∃ d v n, adr? r = some (d, v) ∧ d = .x n) ∨ ∃ t v n,
      literal? r = some (t, v) ∧ t.type = .register (.x n)) :
    E.addressesRelative = true ∨ E.imageBase = loadBase := by
  rcases hl with hl | hl | ⟨hadr, hlit⟩
  · exact .inl hl
  · exact .inr hl
  · rcases h with ⟨d, v, n, ha, hd⟩ | ⟨t, v, n, ha, ht⟩
    · exact absurd hd (hadr d v n ha)
    · exact absurd ht (hlit t v n ha)

theorem set_of_not_indexed {d : Register} (h : d.index? = none) (v : Value) (relative : Bool) :
    s.setArm64Value d v relative = s := by
  unfold Tracking.setArm64Value
  rw [h]

/-- Either a register is X0..X30, or setting it does nothing. -/
theorem x_or_not_indexed {d : Register} (h : ∀ n, d ≠ .w n) :
    (∃ n, d = .x n) ∨ d.index? = none := by
  cases d with
  | x n => exact .inl ⟨n, rfl⟩
  | w n => exact absurd rfl (h n)
  | xzr | wzr | sp | wsp | pc | other => exact .inr rfl

theorem loadsFrom_eq {op : LinkedOperand} {a : Value} {relative : Bool}
    (h : LoadsFrom E r nextOffset s op a relative actions) :
    r.id ∈ followed ∧ ∃ k rm, r.linkedOperands = [op, k] ∧ k.type = .index rm ∧
    (rm.reg = .pc ∨ k.opKind = .memUoff) := by
  cases h with
  | literal h =>
    obtain ⟨hid, k, rm, hops, hk, hpc, -⟩ := literal?_eq_some h
    exact ⟨by rw [hid]; decide, k, rm, hops, hk, .inl hpc⟩
  | offset h ha =>
    obtain ⟨hid, k, rm, base, hops, hk, hkind, -, -⟩ := offsetLoad?_eq_some h
    exact ⟨by rw [hid]; decide, k, rm, hops, hk, .inr hkind⟩

/-- The address a load reads is the one the machine forms. -/
theorem loadsFrom_address {n : Reg} {op : LinkedOperand} {a : Value} {relative : Bool}
    (h : LoadsFrom E r (off + 4) s op a relative actions) (he : Encodable r)
    (hl : Located E loadBase r) (hs : Holds loadBase m s) (hop : op.type = .register (.x n)) :
    ∃ k rm, r.linkedOperands = [op, k] ∧ k.type = .index rm ∧
      addressOf loadBase a relative = m.address (loadBase + off) rm := by
  cases h with
  | @literal disp h =>
    obtain ⟨-, k, rm, hops, hk, hpc, hdisp⟩ := literal?_eq_some h
    refine ⟨k, rm, hops, hk, ?_⟩
    rw [addressOf_module (located_module hl (.inr ⟨op, disp, n, h, hop⟩)), Machine.address,
      if_pos hpc, hdisp]
    simp only [BitVec.add_assoc]
  | offset h ha =>
    obtain ⟨-, k, rm, base, hops, hk, hkind, hv, rfl⟩ := offsetLoad?_eq_some h
    refine ⟨k, rm, hops, hk, ?_⟩
    have hread := valueOf_read hs hv (he.base k (by rw [hops]; simp) rm hk)
    have hpc : rm.reg ≠ .pc := by
      intro hpc
      rw [hpc] at hv
      cases hv
    rw [addressOf_add, ← hread, Machine.address, if_neg hpc]

/-- A load that is followed results in the pointer that the analysis reads. -/
theorem load_result (hE : Observes E loadBase m.mem) (he : Encodable r) (hl : Located E loadBase r)
    (hs : Holds loadBase m s) {n : Reg} {op : LinkedOperand} {a v : Value} {relative : Bool}
    (h : LoadsFrom E r (off + 4) s op a relative actions) (hop : op.type = .register (.x n))
    (hv : readArm64Pointer E a relative = some v) :
    result (loadBase + off) m r = some (addressOf loadBase v false) := by
  obtain ⟨-, k, rm, hops, hk, hkind⟩ := loadsFrom_eq h
  obtain ⟨k', rm', hops', hk', haddr⟩ := loadsFrom_address h he hl hs hop
  rw [hops] at hops'
  cases hops'
  rw [hk] at hk'
  cases hk'
  have hld : r.id = .ldr := by
    cases h with
    | literal h => exact (literal?_eq_some h).1
    | offset h _ => exact (offsetLoad?_eq_some h).1
  rw [result, hld, hops]
  dsimp only
  rw [hop, hk]
  dsimp only
  rw [if_pos hkind, ← haddr, readArm64Pointer_eq hE hv]
  rfl

/-- A step keeps what is known true. -/
theorem tracks_holds (hE : Observes E loadBase m.mem) (hP : Placed E loadBase) (he : Encodable r)
    (hl : Located E loadBase r) (hx : Executes (loadBase + off) r m m') (hs : Holds loadBase m s)
    (h : Tracks E r off (off + 4) s t actions) : Holds loadBase m' t := by
  cases h with
  | compare h =>
    obtain ⟨hid, d, k, i, hops, hd, ⟨src, hk⟩, v, hi⟩ := compared?_eq_some h
    refine holds_forget_first (t := { s with cmpReg := _, cmpImm := _ }) hx he
      (by rw [hid]; decide) hops ?_ hs ⟨rfl, rfl, fun _ h => h⟩ fun n _ => ?_
    · intro n op hop
      rcases List.mem_cons.1 hop with rfl | hop
      · exact writesBack_of_not_index (by rw [hk]; exact nofun) n
      · rw [List.mem_singleton.1 hop]
        exact writesBack_of_not_index (by rw [hi]; exact nofun) n
    · rcases hd with hd | hd <;> rw [LinkedOperand.recognizedRegister, hd] <;> exact nofun
  | @adr d rel h =>
    obtain ⟨hid, op, a, hops, rfl, ha⟩ := adr?_eq_some h
    have hfol : r.id ∈ followed := by rw [hid]; decide
    have hw : ∀ n, ∀ o ∈ [a], o.writesBack n = false := by
      intro n o ho
      rw [List.mem_singleton.1 ho]
      exact writesBack_of_not_index (by rw [ha]; exact nofun) n
    have hwide : ∀ n, op.recognizedRegister ≠ .w n := fun n => he.wide _ rel n (.inl h)
    rcases x_or_not_indexed hwide with ⟨n, hn⟩ | hnone
    · refine holds_set_first hx he hfol hops hw hs hwide ?_
      rw [addressOf_module (located_module hl (.inl ⟨_, rel, n, h, hn⟩)), result, hid, hops]
      dsimp only
      rw [ha]
      simp only [BitVec.add_assoc]
    · rw [set_of_not_indexed hnone]
      exact holds_forget_first hx he hfol hops hw hs (.refl s) fun n _ => by rw [hnone]; exact nofun
  | @tableLoad l _ h ha =>
    obtain ⟨d, k, rm, dst, hops, hd, hk, hkind, hsize, hdst, -, -, -, -, -⟩ := tableLoad?_eq_some h
    refine holds_forget_first hx he (followed_of_loadSize hsize) hops ?_ hs ?_ ?_
    · intro n o ho
      rw [List.mem_singleton.1 ho]
      exact writesBack_of_not_writeback (he.offset k (by rw [hops]; simp) (by rw [hkind]; decide)) n
    · exact ⟨rfl, rfl, (forgets_forget s _).known⟩
    · intro n hn hi
      rw [LinkedOperand.recognizedRegister, hd, hdst] at hi
      have hkept : (s.forgetArm64Registers (· = l.index)).known n = true := hn
      exact absurd (Option.some.inj hi).symm (of_decide_eq_false (known_forget hkept))
  | @tableAdd a h =>
    obtain ⟨hid, d, k, i, reg, hops, hi, hk, hd, -⟩ := tableAdd?_eq_some h
    obtain ⟨src, hsrc, -⟩ := getArm64Value_read hs hk
    refine holds_forget_first hx he (by rw [hid]; decide) hops ?_ hs ?_ ?_
    · intro n o ho
      rcases List.mem_cons.1 ho with rfl | ho
      · exact writesBack_of_not_index (by rw [hsrc]; exact nofun) n
      · rw [List.mem_singleton.1 ho]
        exact writesBack_of_not_index (by rw [hi]; exact nofun) n
    · exact ⟨rfl, rfl, (forgets_forget s _).known⟩
    · intro n hn hidx
      rw [hd] at hidx
      have hkept : (s.forgetArm64Registers (· = a.index)).known n = true := hn
      exact absurd (Option.some.inj hidx).symm (of_decide_eq_false (known_forget hkept))
  | unsupported h =>
    intro n hn
    exact absurd (known_forget hn) (by simp)
  | call h => exact hs.forgets (forgets_forget s _) fun n hn => hx.callee h n (known_forget hn)
  | @adrpUnknown d imm h _ _ =>
    obtain ⟨hid, op, a, hops, rfl, ha⟩ := adrp?_eq_some h
    refine holds_drop_first hx he (by rw [hid]; decide) hops ?_ hs
    intro n o ho
    rw [List.mem_singleton.1 ho]
    exact writesBack_of_not_index (by rw [ha]; exact nofun) n
  | @adrp d imm h hU _ =>
    obtain ⟨hid, op, a, hops, rfl, ha⟩ := adrp?_eq_some h
    refine holds_set_first hx he (by rw [hid]; decide) hops ?_ hs
      (fun n => he.wide _ imm n (.inr h)) ?_
    · intro n o ho
      rw [List.mem_singleton.1 ho]
      exact writesBack_of_not_index (by rw [ha]; exact nofun) n
    · rw [result, hid, hops]
      dsimp only
      rw [ha]
      dsimp only
      rw [addressOf_add]
      unfold getArm64ModuleAddress
      cases hrel : E.addressesRelative with
      | true => rw [page_add (hP.aligned hrel)]; rfl
      | false => rw [← hP.known hrel hU]; rfl
  | addImm h _ _ =>
    obtain ⟨hid, op, k, i, base, imm, hops, rfl, husz, hi, hk, rfl⟩ := addImm?_eq_some h
    obtain ⟨src, hsrc, hread⟩ := getArm64Value_read hs hk
    refine holds_set_first hx he (by rw [hid]; decide) hops ?_ hs ?_ ?_
    · intro n o ho
      rcases List.mem_cons.1 ho with rfl | ho
      · exact writesBack_of_not_index (by rw [hsrc]; exact nofun) n
      · rw [List.mem_singleton.1 ho]
        exact writesBack_of_not_index (by rw [hi]; exact nofun) n
    · intro n hn
      rw [LinkedOperand.usedSize, hn] at husz
      exact absurd husz (by simp [Register.usedSize])
    · rw [result, hid, hops]
      dsimp only
      rw [hsrc, hi]
      dsimp only
      rw [if_pos husz, addressOf_add, hread]
  | @mov d src _ _ h hv _ =>
    obtain ⟨hid, op, k, i, hops, rfl, hk, hi, hsh⟩ := mov?_eq_some h
    obtain ⟨reg, hreg, hread⟩ := getArm64Value_read hs hv
    cases hreg
    refine holds_set_first hx he (by rw [hid]; decide) hops ?_ hs (fun n => he.mov _ src n h) ?_
    · intro n o ho
      rcases List.mem_cons.1 ho with rfl | ho
      · exact writesBack_of_not_index (by rw [hk]; exact nofun) n
      · rw [List.mem_singleton.1 ho]
        exact writesBack_of_not_index (by rw [hi]; exact nofun) n
    · rw [result, hid, hops]
      dsimp only
      rw [hk, hi]
      dsimp only
      rw [if_pos hsh, hread]
  | movUnknown h _ =>
    obtain ⟨hid, op, k, i, hops, rfl, hk, hi, -⟩ := mov?_eq_some h
    refine holds_drop_first hx he (by rw [hid]; decide) hops ?_ hs
    intro n o ho
    rcases List.mem_cons.1 ho with rfl | ho
    · exact writesBack_of_not_index (by rw [hk]; exact nofun) n
    · rw [List.mem_singleton.1 ho]
      exact writesBack_of_not_index (by rw [hi]; exact nofun) n
  | @load op a relative access taken _ hfrom hload _ =>
    obtain ⟨hfol, k, rm, hops, hk, hkind⟩ := loadsFrom_eq hfrom
    have hw : ∀ n, ∀ o ∈ [k], o.writesBack n = false := by
      intro n o ho
      rw [List.mem_singleton.1 ho]
      rcases hkind with hpc | hkind
      · exact writesBack_of_pc hk hpc n
      · exact writesBack_of_not_writeback
          (he.offset k (by rw [hops]; simp) (by rw [hkind]; decide)) n
    obtain ⟨n, v, hop, hv, rfl, -⟩ | ⟨rfl, -⟩ := loadArm64Value_cases hload
    · have hreg : op.recognizedRegister = .x n := by rw [LinkedOperand.recognizedRegister, hop]
      rw [← hreg]
      refine holds_set_first hx he hfol hops hw hs (fun j => by rw [hreg]; exact nofun) ?_
      exact load_result hE he hl hs hfrom hop hv
    · exact holds_drop_first hx he hfol hops hw hs
  | other ha hc hu _ _ =>
    exact hs.forgets (forgets_operands _ s) fun n hn =>
      hx.frame hc hu n (names_of_mayChange (known_operands hn))

end

/-! ## References -/

/-- The offset in the module that an operation of the analysis refers to. -/
def offsetOf? : Action → Option Nat
  | .saveNewRoute o _ _ _ | .saveDataXRef o _ | .dropPending o => some o
  | _ => none

/-- The addresses an instruction computes: what its registers hold, the addresses it forms
on them, its result. -/
inductive Computes (pc : Value) (m : Machine) (r : ParserResult) : Value → Prop where
  | base {op : LinkedOperand} {rm : RmIndex} (h : op ∈ r.linkedOperands)
      (ht : op.type = .index rm) :
    Computes pc m r (m.read rm.reg)
  | address {op : LinkedOperand} {rm : RmIndex} (h : op ∈ r.linkedOperands)
      (ht : op.type = .index rm) :
    Computes pc m r (m.address pc rm)
  | result {v : Value} (h : result pc m r = some v) : Computes pc m r v

/-- Every reference into the module is to an address of a set. -/
def Refers (loadBase : Value) (P : Value → Prop) (actions : List Action) : Prop :=
  ∀ action ∈ actions, ∀ o, offsetOf? action = some o → P (loadBase + BitVec.ofNat 64 o)

section

variable {E : Env} {r : ParserResult} {loadBase off : Value} {s t : Tracking} {m m' : Machine}
  {actions : List Action} {P : Value → Prop}

theorem Refers.nil (loadBase : Value) (P : Value → Prop) :
    Refers loadBase P [] := fun _ h => absurd h List.not_mem_nil

theorem Refers.append {more : List Action} (h : Refers loadBase P actions)
    (h' : Refers loadBase P more) : Refers loadBase P (actions ++ more) := by
  intro action ha
  rcases List.mem_append.1 ha with ha | ha
  · exact h action ha
  · exact h' action ha

/-- The offset the observer finds is where the address is. -/
theorem offset_eq (hE : Observes E loadBase m.mem) {a o : Value} {relative : Bool}
    (h : E.analyzeAddress a (!relative) = .ok (o, .normal)) :
    loadBase + BitVec.ofNat 64 o.toNat = addressOf loadBase a relative := by
  rw [BitVec.ofNat_toNat, BitVec.setWidth_eq]
  cases relative with
  | false => exact hE.absolute a o h
  | true => rw [hE.relative a o h]; rfl

theorem saveDataAccess_refers (hE : Observes E loadBase m.mem) {a : Value} {relative : Bool}
    (h : saveDataAccess E a (!relative) = .ok actions) (hP : P (addressOf loadBase a relative)) :
    Refers loadBase P actions := by
  obtain ⟨⟨o, res⟩, hans, h⟩ := bind_eq_ok.1 h
  cases res with
  | normal =>
    cases h
    intro action ha k hk
    have hko : k = o.toNat := by
      rcases List.mem_cons.1 ha with rfl | ha
      · exact (Option.some.inj hk).symm
      · rw [List.mem_singleton.1 ha] at hk
        exact (Option.some.inj hk).symm
    rw [hko, offset_eq hE hans]
    exact hP
  | external =>
    cases h
    intro action ha k hk
    rw [List.mem_singleton.1 ha] at hk
    cases hk
  | invalid =>
    cases h
    exact .nil _ _

theorem saveArm64AddressTaken_refers (hE : Observes E loadBase m.mem) {a : Value} {relative : Bool}
    (h : saveArm64AddressTaken E a relative = .ok actions)
    (hP : P (addressOf loadBase a relative)) : Refers loadBase P actions := by
  obtain ⟨⟨o, res⟩, hans, h⟩ := bind_eq_ok.1 h
  cases res with
  | normal =>
    cases h
    intro action ha k hk
    rw [List.mem_singleton.1 ha] at hk
    cases hk
    rw [offset_eq hE hans]
    exact hP
  | external | invalid =>
    cases h
    exact .nil _ _

/-- A base register that is known is a register with an address. -/
theorem address_of_known (hs : Holds loadBase m s) (he : Encodable r) {op : LinkedOperand}
    {rm : RmIndex} {v : Value} {relative : Bool} (h : op ∈ r.linkedOperands)
    (ht : op.type = .index rm) (hv : s.valueOf rm.reg = some (v, relative)) (pc : Value) :
    addressOf loadBase (v + rm.dispValue) relative = m.address pc rm := by
  have hpc : rm.reg ≠ .pc := by
    intro hpc
    rw [hpc] at hv
    cases hv
  rw [addressOf_add, ← valueOf_read hs hv (he.base op h rm ht), Machine.address, if_neg hpc]

theorem dataAccesses_refers (hE : Observes E loadBase m.mem) (hs : Holds loadBase m s)
    (he : Encodable r) {pc : Value} {ops : List LinkedOperand}
    (hops : ∀ op ∈ ops, op ∈ r.linkedOperands) (h : dataAccesses E s ops = .ok actions) :
    Refers loadBase (Computes pc m r) actions := by
  induction ops generalizing actions with
  | nil =>
    cases h
    exact .nil _ _
  | cons op ops ih =>
    have hrest := fun acts => @ih acts fun o ho => hops o (List.mem_cons_of_mem _ ho)
    have hop := hops op List.mem_cons_self
    unfold dataAccesses at h
    split at h
    · rename_i rm ht
      split at h
      · rename_i v relative hv
        split at h
        · obtain ⟨acc, hacc, h⟩ := bind_eq_ok.1 h
          obtain ⟨rest, hr, heq⟩ := bind_eq_ok.1 h
          cases heq
          refine .append (saveDataAccess_refers hE hacc ?_) (hrest rest hr)
          rw [address_of_known hs he hop ht hv pc]
          exact .address hop ht
        · exact hrest _ h
      · exact hrest _ h
    · exact hrest _ h

/-- What a step refers to in the module is an address that the instruction computes. -/
theorem tracks_refers (hE : Observes E loadBase m.mem) (he : Encodable r)
    (hl : Located E loadBase r) (hs : Holds loadBase m s)
    (h : Tracks E r off (off + 4) s t actions) :
    Refers loadBase (Computes (loadBase + off) m r) actions := by
  cases h with
  | compare | adr | tableAdd | unsupported | call | adrpUnknown | adrp | mov | movUnknown =>
    exact .nil _ _
  | @tableLoad l _ h ha =>
    obtain ⟨d, k, rm, dst, hops, -, hk, -, -, -, -, -, -, hv, -⟩ := tableLoad?_eq_some h
    have hmem : k ∈ r.linkedOperands := by rw [hops]; simp
    refine saveDataAccess_refers hE ha ?_
    rw [← valueOf_read hs hv (he.base k hmem rm hk)]
    exact .base hmem hk
  | @addImm d _ relative _ h ha _ =>
    obtain ⟨hid, op, k, i, base, imm, hops, rfl, husz, hi, hk, rfl⟩ := addImm?_eq_some h
    obtain ⟨src, hsrc, hread⟩ := getArm64Value_read hs hk
    refine saveArm64AddressTaken_refers hE ha (.result ?_)
    rw [result, hid, hops]
    dsimp only
    rw [hsrc, hi]
    dsimp only
    rw [if_pos husz, addressOf_add, hread]
  | @load op a relative access taken _ hfrom hload _ =>
    refine .append ?_ ?_
    · cases hfrom with
      | literal h => exact .nil _ _
      | offset h ha =>
        obtain ⟨-, k, rm, base, hops, hk, -, hv, rfl⟩ := offsetLoad?_eq_some h
        have hmem : k ∈ r.linkedOperands := by rw [hops]; simp
        refine saveDataAccess_refers hE ha ?_
        rw [address_of_known hs he hmem hk hv (loadBase + off)]
        exact .address hmem hk
    · obtain ⟨n, v, hop, hv, -, htaken⟩ | ⟨-, rfl⟩ := loadArm64Value_cases hload
      · refine saveArm64AddressTaken_refers hE htaken (.result ?_)
        exact load_result hE he hl hs hfrom hop hv
      · exact .nil _ _
  | other ha _ _ _ _ => exact dataAccesses_refers hE hs he (fun _ h => h) ha

/-- A branch through a register that is known goes where the register says. -/
theorem indirectJump_refers (hE : Observes E loadBase m.mem) (hs : Holds loadBase m s)
    {questionable : Bool} (h : indirectJump E s r questionable = .ok actions)
    (htable : isArm64JumpTable s r = false) {op : LinkedOperand}
    (hop : r.linkedOperands.head? = some op) :
    Refers loadBase (· = m.read op.recognizedRegister) actions := by
  unfold indirectJump at h
  rw [htable, if_neg Bool.false_ne_true] at h
  split at h
  · cases h
    exact .nil _ _
  · rename_i target relative htarget
    have hval : s.getArm64Value op = some (target, relative) := by
      cases hl : r.linkedOperands with
      | nil =>
        rw [hl] at hop
        cases hop
      | cons k ops =>
        rw [hl] at hop
        cases hop
        rw [getArm64Target, hl] at htarget
        exact htarget
    obtain ⟨reg, hreg, hread⟩ := getArm64Value_read hs hval
    obtain ⟨⟨o, res⟩, hans, h⟩ := bind_eq_ok.1 h
    cases res with
    | normal =>
      cases h
      intro action ha k hk
      rw [List.mem_singleton.1 ha] at hk
      cases hk
      rw [offset_eq hE hans, ← hread, LinkedOperand.recognizedRegister, hreg]
    | external =>
      cases h
      intro action ha k hk
      rw [List.mem_singleton.1 ha] at hk
      cases hk
    | invalid =>
      cases h
      exact .nil _ _

end

/-! ## Runs -/

/-- The instructions of a route, walked by `TrackArm64` and executed by the machine. The memory is
the image's all the way. -/
inductive Run (E : Env) (loadBase : Value) (P : ParserResult → Prop) (s : Tracking) (m : Machine) :
    Tracking → Machine → Prop where
  | start : Run E loadBase P s m s m
  | step {r : ParserResult} {off : Value} {t u : Tracking} {m₁ m₂ : Machine} {actions : List Action}
      (run : Run E loadBase P s m t m₁) (h : trackArm64 E r off (off + 4) t = .ok (u, actions))
      (he : Encodable r)
      (hr : P r) (hE : Observes E loadBase m₁.mem) (hx : Executes (loadBase + off) r m₁ m₂) :
    Run E loadBase P s m u m₂

/-- From nothing known, every register that is known holds its value in the end. -/
def Believes (E : Env) (loadBase : Value) (P : ParserResult → Prop) : Prop :=
  ∀ s m t m', (∀ n, s.known n = false) → Run E loadBase P s m t m' → Holds loadBase m' t

theorem holds_of_unknown {loadBase : Value} {m : Machine} {s : Tracking}
    (h : ∀ n, s.known n = false) :
    Holds loadBase m s := fun n hn => absurd ((h n).symm.trans hn) Bool.false_ne_true

/-- What is known stays true along a route. -/
theorem Run.holds {E : Env} {loadBase : Value} {s t : Tracking} {m m' : Machine}
    (hP : Placed E loadBase) (run : Run E loadBase (Located E loadBase) s m t m')
    (hs : Holds loadBase m s) : Holds loadBase m' t := by
  induction run with
  | start => exact hs
  | step run h he hr hE hx ih =>
    exact tracks_holds hE hP he hr hx (ih.forgets (forgets_compares _ _) fun _ _ => rfl)
      (trackArm64_cases h)

/-- In a run without an address at an unknown base, every register that is known holds its value,
the next instruction refers to what it computes, and a branch through a register goes where the
register says. -/
theorem run_holds {E : Env} {loadBase : Value} (hP : Placed E loadBase) :
    Believes E loadBase (Located E loadBase) ∧
      ∀ s m t m', (∀ n, s.known n = false) → Run E loadBase (Located E loadBase) s m t m' →
        Observes E loadBase m'.mem → ∀ r, Encodable r →
        (Located E loadBase r → ∀ off u actions, trackArm64 E r off (off + 4) t = .ok (u, actions) →
          Refers loadBase (Computes (loadBase + off) m' r) actions) ∧
        ∀ questionable actions op, indirectJump E t r questionable = .ok actions →
        isArm64JumpTable t r = false →
          r.linkedOperands.head? = some op → Refers loadBase
          (· = m'.read op.recognizedRegister) actions := by
  have hholds : Believes E loadBase (Located E loadBase) :=
    fun s m t m' hs run => run.holds hP (holds_of_unknown hs)
  refine ⟨hholds, fun s m t m' hs run hE r he => ⟨fun hl off u actions h => ?_,
    fun q actions op h ht hop => ?_⟩⟩
  · exact tracks_refers hE he hl
      ((hholds s m t m' hs run).forgets (forgets_compares _ _) fun _ _ => rfl)
      (trackArm64_cases h)
  · exact indirectJump_refers hE (hholds s m t m' hs run) h ht hop

/-! ## An address at an unknown base -/

/-- An observer over an image of zeros at `0x10000`. -/
def zeros (imageBase : Value) (imageBaseUnknown addressesRelative : Bool) : Env where
  analyzeAddress a absolute := .ok (if absolute then a - 0x10000 else a, .normal)
  randomRead _ size := .ok (List.replicate size 0)
  imageBase := imageBase
  imageBaseUnknown := imageBaseUnknown
  addressesRelative := addressesRelative

theorem zeros_observes (imageBase : Value) (unknown relative : Bool) :
    Observes (zeros imageBase unknown relative) 0x10000 fun _ => 0 where
  absolute a o h := by
    have : a - 0x10000 = o := congrArg Prod.fst (Except.ok.inj h)
    rw [← this, BitVec.add_comm, BitVec.sub_add_cancel]
  relative a o h := (congrArg Prod.fst (Except.ok.inj h) : a = o).symm
  content o size bytes h _ := by
    have : List.replicate size 0 = bytes := Except.ok.inj h
    rw [← this, bytesAt, List.map_const', List.length_range]

/-- `adr x0, 8` -/
def adrX0 : ParserResult where
  id := .adr
  linkedOperands := [{ type := .register (.x 0) }, { type := .rel 4 }]

theorem adrX0_encodable : Encodable adrX0 where
  call h := nomatch h
  wide d v n h := by
    rcases h with h | h
    · cases h
      exact nofun
    · cases h
  mov d src n h := nomatch h
  base op hop rm h := by
    rcases List.mem_cons.1 hop with rfl | hop
    · cases h
    · rw [List.mem_singleton.1 hop] at h
      cases h
  first _ d h := by
    cases h
    rfl
  offset op hop h := by
    rcases List.mem_cons.1 hop with rfl | hop
    · rfl
    · rw [List.mem_singleton.1 hop]
  extend op hop h := by
    rcases List.mem_cons.1 hop with rfl | hop
    · cases h
    · rw [List.mem_singleton.1 hop] at h
      cases h

/-- Nothing is known. -/
def unknown : Tracking where
  regs _ := 0
  known _ := false
  relative _ := false
  cmpReg := none
  cmpImm := 0
  boundReg := none
  boundCount := 0
  tableReg := none
  tableStage := 0
  tableAddress := 0
  tableAddressRelative := false
  tableEntrySize := 0
  tableSigned := false
  tableCount := 0
  tableBase := 0
  tableBaseRelative := false
  tableExtend := 0
  tableShift := 0

/-- A machine with one register set. -/
def machineX0 (v : Value) : Machine := ⟨fun n => if n = 0 then v else 0, 0, fun _ => 0⟩

theorem adrX0_executes : Executes (0x10000 + 0) adrX0 (machineX0 0) (machineX0 0x10008) where
  result d v hd hv n hn := by
    cases hd
    cases hv
    cases hn
    rfl
  callee h := nomatch h
  frame _ _ n hn := by
    have hne : n ≠ 0 := by
      rintro rfl
      exact absurd hn (by decide)
    exact (if_neg hne).trans (if_neg hne).symm

/-- The walk over `adr x0, 8` at offset 0. -/
theorem adrX0_run (E : Env) (hE : Observes E 0x10000 fun _ => 0) {P : ParserResult → Prop}
    (hP : P adrX0) : Run E 0x10000 P unknown (machineX0 0)
      ((unknown.compares adrX0).setArm64Value (.x 0) (getArm64ModuleAddress E (0 + 4 + 4)).1
        (getArm64ModuleAddress E (0 + 4 + 4)).2) (machineX0 0x10008) :=
  .step .start (by rfl) adrX0_encodable hP hE adrX0_executes

/-- The image base is not known: `adr` still makes an absolute address of it. -/
theorem not_believes_adr :
    ¬ ∀ E loadBase, Placed E loadBase → Believes E loadBase fun _ => True := by
  intro h
  have hb := h (zeros 0 true false) 0x10000 ⟨nofun, nofun⟩ _ _ _ _ (fun _ => rfl)
    (adrX0_run _ (zeros_observes 0 true false) trivial) 0 rfl
  exact absurd hb (by decide)

/-- With offsets, `adr` is followed. -/
theorem run_holds_adr :
    Holds 0x10000 (machineX0 0x10008)
      ((unknown.compares adrX0).setArm64Value (.x 0)
        (getArm64ModuleAddress (zeros 0 false true) (0 + 4 + 4)).1
        (getArm64ModuleAddress (zeros 0 false true) (0 + 4 + 4)).2) :=
  (@run_holds (zeros 0 false true) 0x10000 ⟨fun _ => rfl, nofun⟩).1 _ _ _ _ (fun _ => rfl)
    (adrX0_run _ (zeros_observes 0 false true) (.inl rfl))

end Diana.Analyze.Arm64
