import Diana.Patcher.NearA64

/-!
# Far forms

The target is out of reach: the moved instruction is a short run through a literal.

* `farJump_reaches`, `farCall_reaches`, `loadAddress_reaches`: the runs of the three sequences;
* `far_b`, `far_bl`, `far_adr`, `far_literal`: the sequences against the word they replace;
* `far_conditional`: the opposite condition over a far jump, with `far_bCond`, `far_cb`, `far_tb`.
-/

namespace Diana.Patcher

open Diana.A64 Diana.Lib StateTransition

/-! ## Far forms -/

/-- `ldr x16, #8; br x16; .quad target` -/
def farJumpCode (target : Addr) : List Byte :=
  putWord 0x58000050 ++ putWord 0xD61F0200 ++ putQword target

/-- `ldr x16, #12; blr x16; b #12; .quad target` -/
def farCallCode (target : Addr) : List Byte :=
  putWord 0x58000070 ++ putWord 0xD63F0200 ++ putWord 0x14000003 ++ putQword target

/-- `ldr xN, #8; b #12; .quad value` -/
def loadAddressCode (reg : Reg) (value : Addr) : List Byte :=
  putWord (0x58000040 ||| reg.setWidth 32) ++ putWord 0x14000003 ++ putQword value

section Far

variable {ρ : Type} {A : Arch ρ}

theorem loadLiteral_x {s : State ρ} {r : Reg} {a : Addr} {q : BitVec 64}
    (h : CodeAt s.mem a (putQword q)) : loadLiteral 1 false r a s = .next (s.setX r q) := by
  have hv : loadValue 1 false s.mem a = some (.x q) := by
    show (read64 s.mem a).map Loaded.x = _
    rw [read64_of_codeAt h]
    rfl
  rw [loadLiteral, hv]
  rfl

theorem effect_ldrX16_8 {pc : Addr} {s : State ρ} {q : BitVec 64}
    (h : CodeAt s.mem (pc + 8) (putQword q)) : effect A 0x58000050 pc s = .next (s.setX 16 q) := by
  rw [effect_literal (by decide)]
  exact loadLiteral_x h

theorem effect_ldrX16_12 {pc : Addr} {s : State ρ} {q : BitVec 64}
    (h : CodeAt s.mem (pc + 12) (putQword q)) :
    effect A 0x58000070 pc s = .next (s.setX 16 q) := by
  rw [effect_literal (by decide)]
  exact loadLiteral_x h

theorem effect_brX16 (pc : Addr) (s : State ρ) :
    effect A 0xD61F0200 pc s = .jump (s.x 16) s := by
  rw [effect_rest (by decide) (by decide) (by decide) (by decide) (by decide) (by decide)]
  rfl

theorem effect_blrX16 (pc : Addr) (s : State ρ) :
    effect A 0xD63F0200 pc s = .call (s.x 16) s := by
  rw [effect_rest (by decide) (by decide) (by decide) (by decide) (by decide) (by decide)]
  rfl

theorem effect_b_12 (pc : Addr) (s : State ρ) :
    effect A 0x14000003 pc s = .jump (pc + 12) s := by
  rw [effect_b (by decide)]
  rfl

theorem effect_ldrX_8 {pc : Addr} {s : State ρ} {reg : Reg} {q : BitVec 64}
    (h : CodeAt s.mem (pc + 8) (putQword q)) :
    effect A (0x58000040 ||| reg.setWidth 32) pc s = .next (s.setX reg q) := by
  have hw : 0x58000040 ||| reg.setWidth 32 = setField 0x58000040#32 0 5 reg := by
    have h := or_shift_eq_setField (w := 0x58000040#32) 0 reg (by decide)
    rw [BitVec.shiftLeft_zero] at h
    exact h
  rw [hw]
  have hlit : isLiteral (setField 0x58000040#32 0 5 reg) = true := by
    rw [isLiteral, setField_and _ _ (by decide)]
    decide
  have hrt : rt (setField 0x58000040#32 0 5 reg) = reg :=
    extractLsb'_setField_same _ _ (by decide)
  have himm : imm19 (setField 0x58000040#32 0 5 reg) = 8 := by
    rw [imm19, extractLsb'_setField_other _ _ (by decide) (by decide)]
    decide
  have hopc : (setField 0x58000040#32 0 5 reg).extractLsb' 30 2 = 1 := by
    rw [extractLsb'_setField_other _ _ (by decide) (by decide)]
    decide
  have hsimd : (setField 0x58000040#32 0 5 reg).getLsbD 26 = false := by
    rw [getLsbD_setField _ _ _ _ (by decide), if_neg (by decide)]
    decide
  rw [effect_literal hlit, hrt, himm, hopc, hsimd]
  exact loadLiteral_x h

theorem farJump_reaches {s : State ρ} {pc target : Addr}
    (h : CodeAt s.mem pc (farJumpCode target)) :
    Reaches₁ (step A) (pc, s) (target, s.setX 16 target) := by
  obtain ⟨h01, hq⟩ := codeAt_append.mp h
  obtain ⟨h0, h1⟩ := codeAt_append.mp h01
  have s0 : (pc + 4, s.setX 16 target) ∈ step A (pc, s) :=
    step_next h0 (effect_ldrX16_8 hq)
  have h1' : CodeAt (s.setX 16 target).mem (pc + 4) (putWord 0xD61F0200) := by
    rw [State.setX_mem]
    exact h1
  have he := effect_brX16 (A := A) (pc + 4) (s.setX 16 target)
  rw [State.setX_same (by decide)] at he
  exact .head s0 (.single (step_jump h1' he))

theorem farCall_reaches {s : State ρ} {pc target : Addr}
    (h : CodeAt s.mem pc (farCallCode target)) :
    Reaches₁ (step A) (pc, s) (target, (s.setX 16 target).setX 30 (pc + 8)) := by
  obtain ⟨h012, hq⟩ := codeAt_append.mp h
  obtain ⟨h01, h2⟩ := codeAt_append.mp h012
  obtain ⟨h0, h1⟩ := codeAt_append.mp h01
  have s0 : (pc + 4, s.setX 16 target) ∈ step A (pc, s) :=
    step_next h0 (effect_ldrX16_12 hq)
  have h1' : CodeAt (s.setX 16 target).mem (pc + 4) (putWord 0xD63F0200) := by
    rw [State.setX_mem]
    exact h1
  have he := effect_blrX16 (A := A) (pc + 4) (s.setX 16 target)
  rw [State.setX_same (by decide)] at he
  have s1 := step_call h1' he
  rw [BitVec.add_assoc] at s1
  exact .head s0 (.single s1)

/-- The return address of a far call leads over the literal. -/
theorem farCall_returns {u : State ρ} {pc target : Addr}
    (h : CodeAt u.mem pc (farCallCode target)) :
    Reaches (step A) (pc + 8, u) (pc + BitVec.ofNat 64 (farCallCode target).length, u) := by
  obtain ⟨h012, -⟩ := codeAt_append.mp h
  obtain ⟨-, h2⟩ := codeAt_append.mp h012
  have s2 : (pc + 8 + 12, u) ∈ step A (pc + 8, u) := step_jump h2 (effect_b_12 (pc + 8) u)
  rw [BitVec.add_assoc] at s2
  exact .single s2

theorem loadAddress_reaches {s : State ρ} {pc value : Addr} {reg : Reg}
    (h : CodeAt s.mem pc (loadAddressCode reg value)) :
    Reaches₁ (step A) (pc, s) (pc + 16, s.setX reg value) := by
  obtain ⟨h01, hq⟩ := codeAt_append.mp h
  obtain ⟨h0, h1⟩ := codeAt_append.mp h01
  have s0 : (pc + 4, s.setX reg value) ∈ step A (pc, s) :=
    step_next h0 (effect_ldrX_8 hq)
  have h1' : CodeAt (s.setX reg value).mem (pc + 4) (putWord 0x14000003) := by
    rw [State.setX_mem]
    exact h1
  have s1 := step_jump (A := A) h1' (effect_b_12 (pc + 4) (s.setX reg value))
  rw [BitVec.add_assoc] at s1
  exact .head s0 (.single s1)

/-! ### The far code against the word -/

variable {word : Word} {src dst : Addr}

theorem mayClobber_branch {r : Reg}
    (hc : isB word = true ∨ isBCond word = true ∨ isCb word = true ∨ isTb word = true)
    (hr : r = 16 ∨ r = 17) : mayClobber word r = true := by
  have hadr : isAdr word = false := by
    rcases hc with h | h | h | h <;> exact mask_exclusive h (by decide)
  have hlit : isLiteral word = false := by
    rcases hc with h | h | h | h <;> exact mask_exclusive h (by decide)
  have hform : formsResult word r = false := by simp [formsResult, hadr, hlit]
  have hscratch : (r == 16 || r == 17) = true := by rcases hr with rfl | rfl <;> rfl
  rw [mayClobber, hform, hscratch]
  rcases hc with h | h | h | h <;> simp [h]

theorem far_b (hb : isB word = true) (h31 : word.getLsbD 31 = false) :
    SameEffect A word src dst (farJumpCode (src + imm26 word)) := by
  intro s hcode
  rw [effect_b hb, h31]
  exact ⟨_, farJump_reaches hcode,
    agree_setX_scratch (mayClobber_branch (Or.inl hb) (Or.inl rfl)) s _⟩

theorem far_bl (hb : isB word = true) (h31 : word.getLsbD 31 = true) :
    SameEffect A word src dst (farCallCode (src + imm26 word)) := by
  intro s hcode
  rw [effect_b hb, h31]
  refine ⟨_, farCall_reaches hcode, ?_, fun u hu => ?_⟩
  · rw [State.setX_same (by decide)]
    exact (agree_setX_scratch (mayClobber_branch (Or.inl hb) (Or.inl rfl)) s _).setX 30 _
  · rw [State.setX_same (by decide)]
    exact farCall_returns hu

/-- The opposite condition over a far jump. -/
theorem far_conditional {word' : Word} {target : Addr} {taken : State ρ → Bool}
    (hclob : mayClobber word 16 = true)
    (h : ∀ s, effect A word src s = branchIf (taken s) target s)
    (h' : ∀ s, effect A word' dst s = branchIf (!taken s) (dst + 20) s) :
    SameEffect A word src dst (putWord word' ++ farJumpCode target) := by
  intro s hcode
  obtain ⟨h0, hfar⟩ := codeAt_append.mp hcode
  have he := h' s
  rw [h s]
  cases ht : taken s with
  | true =>
    rw [ht] at he
    exact ⟨_, .head (step_next h0 he) (farJump_reaches hfar), agree_setX_scratch hclob s _⟩
  | false =>
    rw [ht] at he
    exact ⟨s, .single (step_jump h0 he), Agree.refl word s⟩

theorem far_adr (hc : isAdr word = true) :
    SameEffect A word src dst (loadAddressCode (rt word) (adrValue word src)) := by
  intro s hcode
  rw [effect_adr hc]
  exact ⟨_, loadAddress_reaches hcode, Agree.refl word _⟩

/-- The emitted load: `load | (base << 5) | rt` at offset zero. -/
theorem effect_emittedLoad {load : Word} {opc : BitVec 2} {simd : Bool} {scale : Nat} {pc : Addr}
    {base r : Reg} {s : State ρ} (hlow : load.extractLsb' 0 22 = 0)
    (hclass : loadOffsetClass load = some (opc, simd, scale)) :
    effect A (load ||| (base.setWidth 32 <<< 5) ||| r.setWidth 32) pc s =
      loadLiteral opc simd r (s.x base) s := by
  have hz : ∀ lo n, lo + n ≤ 22 → load.extractLsb' lo n = 0 := by
    intro lo n hle
    apply BitVec.eq_of_getLsbD_eq
    intro i hi
    rw [BitVec.getLsbD_extractLsb', getLsbD_of_field_zero hlow (by omega)]
    simp
  have hbase : load ||| (base.setWidth 32 <<< 5) = setField load 5 5 base :=
    or_shift_eq_setField 5 base (hz 5 5 (by decide))
  have hword : load ||| (base.setWidth 32 <<< 5) ||| r.setWidth 32 =
      setField (setField load 5 5 base) 0 5 r := by
    have h := or_shift_eq_setField (w := setField load 5 5 base) 0 r
      (by rw [extractLsb'_setField_other _ _ (by decide) (by decide), hz 0 5 (by decide)])
    rw [hbase, ← h, BitVec.shiftLeft_zero]
  set word := setField (setField load 5 5 base) 0 5 r with hset
  have hcl : loadOffsetClass word = some (opc, simd, scale) := by
    rw [← hclass, loadOffsetClass, loadOffsetClass, hset, setField_and _ _ (by decide),
      setField_and _ _ (by decide)]
  have hrt : rt word = r := extractLsb'_setField_same _ _ (by decide)
  have hrn : rn word = base := by
    rw [rn, extractLsb'_setField_other _ _ (by decide) (by decide),
      extractLsb'_setField_same _ _ (by decide)]
  have hoff : word.extractLsb' 10 12 = 0 := by
    rw [extractLsb'_setField_other _ _ (by decide) (by decide),
      extractLsb'_setField_other _ _ (by decide) (by decide), hz 10 12 (by decide)]
  rw [hword, effect_loadOffset hcl, hrt, hrn, hoff]
  simp

/-- An address loaded into `base`, then the load from it. -/
theorem far_literal {load : Word} {base : Reg} {scale : Nat} (hc : isLiteral word = true)
    (hlow : load.extractLsb' 0 22 = 0)
    (hclass : loadOffsetClass load = some (word.extractLsb' 30 2, word.getLsbD 26, scale))
    (h31 : base ≠ 31)
    (hbase : mayClobber word base = true ∨
      base = rt word ∧ word.getLsbD 26 = false ∧ word.extractLsb' 30 2 ≠ 3) :
    SameEffect A word src dst (loadAddressCode base (src + imm19 word) ++
      putWord (load ||| (base.setWidth 32 <<< 5) ||| (rt word).setWidth 32)) := by
  intro s hcode
  obtain ⟨ha, hl⟩ := codeAt_append.mp hcode
  set address := src + imm19 word with haddress
  have hrun := loadAddress_reaches (A := A) ha
  have hl' : CodeAt (s.setX base address).mem (dst + 16)
      (putWord (load ||| (base.setWidth 32 <<< 5) ||| (rt word).setWidth 32)) := by
    rw [State.setX_mem]
    exact hl
  have he : effect A (load ||| (base.setWidth 32 <<< 5) ||| (rt word).setWidth 32) (dst + 16)
      (s.setX base address) =
      loadLiteral (word.extractLsb' 30 2) (word.getLsbD 26) (rt word) address
        (s.setX base address) := by
    rw [effect_emittedLoad hlow hclass, State.setX_same h31]
  rw [effect_literal hc]
  unfold loadLiteral at he ⊢
  rw [State.setX_mem] at he
  cases hv : loadValue (word.extractLsb' 30 2) (word.getLsbD 26) s.mem address with
  | none =>
    rw [hv] at he
    exact Traps.of_reaches A hrun.to_reflTransGen ⟨_, .refl, step_trap hl' he⟩
  | some l =>
    rw [hv] at he
    have hend := step_next hl' he
    rw [BitVec.add_assoc] at hend
    refine ⟨_, hrun.tail hend, ?_⟩
    rcases hbase with hclob | ⟨rfl, hsimd, hopc⟩
    · exact (agree_setX_scratch hclob s address).put _ l
    · obtain ⟨b, rfl⟩ := loadValue_gpr hsimd hopc hv
      rw [State.put, State.put, State.setX_setX]
      exact Agree.refl word _

end Far

section Conditional

variable {ρ : Type} {word : Word} {src dst : Addr}

/-! ### Conditional branches -/

theorem condHolds_invert : ∀ cond nzcv : BitVec 4, cond &&& 0xE ≠ 0xE →
    condHolds (cond ^^^ 1) nzcv = !condHolds cond nzcv := by
  decide

theorem condHolds_always : ∀ cond nzcv : BitVec 4, cond &&& 0xE = 0xE →
    condHolds cond nzcv = true := by
  decide

theorem cond_field (word : Word) :
    word &&& 0xE = 0xE ↔ word.extractLsb' 0 4 &&& 0xE = 0xE := by
  have hext : word.extractLsb' 0 4 &&& 0xE = (word &&& 0xE).extractLsb' 0 4 := by
    rw [BitVec.extractLsb'_and]
    rfl
  rw [hext]
  constructor
  · intro h
    rw [h]
    decide
  · intro h
    have hw : word &&& 0xE = ((word &&& 0xE).extractLsb' 0 4).setWidth 32 := by
      apply BitVec.eq_of_getLsbD_eq
      intro i hi
      rw [BitVec.getLsbD_setWidth, BitVec.getLsbD_extractLsb', BitVec.getLsbD_and]
      interval_cases i <;> simp
    rw [hw, h]
    decide

variable {A : Arch ρ}

theorem far_bCond (hc : isBCond word = true) (he : word &&& 0xE ≠ 0xE) :
    SameEffect A word src dst (putWord (setField (word ^^^ 1) 5 19 ((5#32).setWidth 19)) ++
      farJumpCode (src + imm19 word)) := by
  set word' := setField (word ^^^ 1) 5 19 ((5#32).setWidth 19) with hword'
  have hc' : isBCond word' = true := by
    rw [isBCond, setField_and _ _ (by decide), xor_and_of_disjoint (by decide)]
    exact hc
  have hcond : word'.extractLsb' 0 4 = word.extractLsb' 0 4 ^^^ 1 := by
    rw [extractLsb'_setField_other _ _ (by decide) (by decide), BitVec.extractLsb'_xor]
    rfl
  have himm : imm19 word' = 20 := by
    rw [imm19_setField]
    decide
  refine far_conditional (mayClobber_branch (Or.inr (Or.inl hc)) (Or.inl rfl))
    (fun s => effect_bCond hc) fun s => ?_
  rw [effect_bCond hc', hcond, himm, condHolds_invert _ _ (mt (cond_field word).mpr he)]

/-- The conditions al and nv always branch. -/
theorem far_bCond_always (hc : isBCond word = true) (he : word &&& 0xE = 0xE) :
    SameEffect A word src dst (farJumpCode (src + imm19 word)) := by
  intro s hcode
  rw [effect_bCond hc, condHolds_always _ _ ((cond_field word).mp he)]
  exact ⟨_, farJump_reaches hcode,
    agree_setX_scratch (mayClobber_branch (Or.inr (Or.inl hc)) (Or.inl rfl)) s _⟩

/-- The inverted word of `cbz`, `cbnz`, `tbz` and `tbnz` differs in bit 24 and in the offset. -/
theorem getLsbD_inverted (word : Word) {bits : Nat} (hbits : bits ≤ 19) (f : BitVec bits) {i : Nat}
    (h24 : 24 ≤ i) (hi : i < 32) :
    (setField (word ^^^ 0x01000000) 5 bits f).getLsbD i = (word.getLsbD i ^^ i == 24) := by
  rw [getLsbD_setField _ _ _ _ hi, if_neg (by omega), BitVec.getLsbD_xor]
  interval_cases i <;> rfl

theorem rt_inverted {bits : Nat} (f : BitVec bits) :
    rt (setField (word ^^^ 0x01000000) 5 bits f) = rt word := by
  rw [rt, extractLsb'_setField_other _ _ (by omega) (by decide), BitVec.extractLsb'_xor]
  exact BitVec.xor_zero

theorem beq_invert (a b : Bool) : (a == (b ^^ true)) = !(a == b) := by
  cases a <;> cases b <;> rfl

theorem far_cb (hc : isCb word = true) :
    SameEffect A word src dst (putWord (setField (word ^^^ 0x01000000) 5 19 ((5#32).setWidth 19)) ++
      farJumpCode (src + imm19 word)) := by
  set word' := setField (word ^^^ 0x01000000) 5 19 ((5#32).setWidth 19) with hword'
  have hc' : isCb word' = true := by
    rw [isCb, setField_and _ _ (by decide), xor_and_of_disjoint (by decide)]
    exact hc
  have himm : imm19 word' = 20 := by
    rw [imm19_setField]
    decide
  refine far_conditional (mayClobber_branch (Or.inr (Or.inr (Or.inl hc))) (Or.inl rfl))
    (fun s => effect_cb hc) fun s => ?_
  have htaken : cbTaken word' s = !cbTaken word s := by
    have h24 := getLsbD_inverted word (by decide) ((5#32).setWidth 19) (i := 24)
      (by decide) (by decide)
    have h31 := getLsbD_inverted word (by decide) ((5#32).setWidth 19) (i := 31)
      (by decide) (by decide)
    rw [show (31 == 24) = false from rfl, Bool.xor_false] at h31
    rw [cbTaken, cbTaken, cbValue, cbValue, h24, h31, rt_inverted]
    exact beq_invert _ _
  rw [effect_cb hc', himm, htaken]

theorem far_tb (hc : isTb word = true) :
    SameEffect A word src dst (putWord (setField (word ^^^ 0x01000000) 5 14 ((5#32).setWidth 14)) ++
      farJumpCode (src + imm14 word)) := by
  set word' := setField (word ^^^ 0x01000000) 5 14 ((5#32).setWidth 14) with hword'
  have hc' : isTb word' = true := by
    rw [isTb, setField_and _ _ (by decide), xor_and_of_disjoint (by decide)]
    exact hc
  have himm : imm14 word' = 20 := by
    rw [imm14_setField]
    decide
  have htb : tbBit word' = tbBit word := by
    rw [tbBit, extractLsb'_setField_other _ _ (by decide) (by decide),
      extractLsb'_setField_other _ _ (by decide) (by decide), BitVec.extractLsb'_xor,
      BitVec.extractLsb'_xor]
    simp [tbBit]
  refine far_conditional (mayClobber_branch (Or.inr (Or.inr (Or.inr hc))) (Or.inl rfl))
    (fun s => effect_tb hc) fun s => ?_
  have htaken : tbTaken word' s = !tbTaken word s := by
    have h24 := getLsbD_inverted word (by decide) ((5#32).setWidth 14) (i := 24)
      (by decide) (by decide)
    rw [tbTaken, tbTaken, htb, h24, rt_inverted]
    exact beq_invert _ _
  rw [effect_tb hc', himm, htaken]

end Conditional

end Diana.Patcher
