import Diana.Patcher.FarA64

/-!
# Moved A64 instructions keep their meaning

The code `moveInstructionA64` emits for a word at `src`, run at `dst`, against the word at `src`
(`SameEffect`). Near and far forms of the position-dependent classes keep the meaning. A copied word
keeps it unless it signs the return address with its own address (`copied_iff`).
-/

namespace Diana.Patcher

open Diana.A64 Diana.Lib StateTransition

/-! ## The emitted code -/

section Code

variable {ρ : Type} {word : Word} {src dst : Addr}

theorem emitsSat_mono {α : Type} {e : Emit α} {P Q : List Byte → Prop} (h : EmitsSat e P)
    (hPQ : ∀ bs, P bs → Q bs) : EmitsSat e Q := by
  intro m a m' he
  obtain ⟨bs, hbs, hP⟩ := h m a m' he
  exact ⟨bs, hbs, hPQ bs hP⟩

theorem emitsSat_bind_pure {α β : Type} {e : Emit α} {b : β} {P : List Byte → Prop}
    (h : EmitsSat e P) : EmitsSat (e >>= fun _ => pure b) P := by
  refine emitsSat_bind h fun _ bs hP => emitsSat_pure ?_
  rwa [List.append_nil]

theorem emitsSat_emitWord {w : Word} {P : List Byte → Prop} (h : P (putWord w)) :
    EmitsSat (emitWord w) P :=
  emitsSat_mono (emitsSat_allocateCmd _) (by rintro _ rfl; exact h)

theorem emitsSat_emitFarJump {target : Addr} {link : Bool} {P : List Byte → Prop}
    (h : P (if link then farCallCode target else farJumpCode target)) :
    EmitsSat (emitFarJump target link) P := by
  cases link with
  | true =>
    refine emitsSat_allocateCmd_bind (emitsSat_allocateCmd_bind (emitsSat_allocateCmd_bind ?_))
    refine emitsSat_mono (emitsSat_allocateCmd _) ?_
    rintro _ rfl
    simpa [farCallCode, List.append_assoc] using h
  | false =>
    refine emitsSat_allocateCmd_bind (emitsSat_allocateCmd_bind ?_)
    refine emitsSat_mono (emitsSat_allocateCmd _) ?_
    rintro _ rfl
    simpa [farJumpCode, List.append_assoc] using h

theorem emitsSat_emitLoadAddress (reg : Reg) {value : Addr} :
    EmitsSat (emitLoadAddress (reg.setWidth 32) value) (· = loadAddressCode reg value) := by
  refine emitsSat_allocateCmd_bind (emitsSat_allocateCmd_bind ?_)
  refine emitsSat_mono (emitsSat_allocateCmd _) ?_
  rintro _ rfl
  simp [loadAddressCode, List.append_assoc]

theorem emitsSat_moveConditional {bits : Nat} {inv : Word} {off : Addr} {P : List Byte → Prop}
    (hmask : ((1#32 <<< bits) - 1) <<< 5 = (BitVec.allOnes bits).setWidth 32 <<< 5)
    (hfive : (5#32 <<< 5) &&& (((1#32 <<< bits) - 1) <<< 5) = 5#32 <<< 5)
    (hoff : signExtend ((word &&& (((1#32 <<< bits) - 1) <<< 5)) >>> 5) bits * 4 = off)
    (hnear : fitsSigned ((distance dst (src + off)).sdiv 4) bits = true →
      P (putWord (setField word 5 bits
        ((((distance dst (src + off)).sdiv 4).setWidth 32).setWidth bits))))
    (hfar : P (putWord (setField (word ^^^ inv) 5 bits ((5#32).setWidth bits)) ++
      farJumpCode (src + off))) :
    EmitsSat (moveConditional word src dst bits inv) P := by
  unfold moveConditional
  simp only [hoff]
  refine emitsSat_ite (fun hfit => ?_) fun _ => ?_
  · refine emitsSat_emitWord ?_
    rw [or_shift_and_eq_setField _ _ _ hmask]
    exact hnear hfit
  · refine emitsSat_allocateCmd_bind (emitsSat_emitFarJump ?_)
    rw [← hfive, or_shift_and_eq_setField _ _ _ hmask]
    exact hfar

/-! ### The classes of the mover -/

theorem bne_zero_of_lt_two {x : Word} (h : x.toNat < 2) : (x != 0) = x.getLsbD 0 := by
  have hx : x.toNat = 0 ∨ x.toNat = 1 := by omega
  rcases hx with hx | hx
  · rw [show x = 0#32 from BitVec.eq_of_toNat_eq hx]
    rfl
  · rw [show x = 1#32 from BitVec.eq_of_toNat_eq hx]
    rfl

theorem shiftRight_31 (word : Word) : (word >>> 31 != 0) = word.getLsbD 31 := by
  have hlt : (word >>> 31).toNat < 2 := by
    have := word.isLt
    rw [BitVec.toNat_ushiftRight, Nat.shiftRight_eq_div_pow]
    omega
  rw [bne_zero_of_lt_two hlt, BitVec.getLsbD_ushiftRight]

theorem shiftRight_26 (word : Word) : ((word >>> 26) &&& 1 != 0) = word.getLsbD 26 := by
  have hlt : ((word >>> 26) &&& 1).toNat < 2 := by
    rw [BitVec.toNat_and]
    exact Nat.lt_succ_of_le Nat.and_le_right
  rw [bne_zero_of_lt_two hlt, BitVec.getLsbD_and, BitVec.getLsbD_ushiftRight]
  exact Bool.and_true _

theorem shiftRight_30 (word : Word) : word >>> 30 = (word.extractLsb' 30 2).setWidth 32 := by
  apply BitVec.eq_of_getLsbD_eq
  intro i hi
  rw [BitVec.getLsbD_setWidth, BitVec.getLsbD_extractLsb', BitVec.getLsbD_ushiftRight]
  by_cases h2 : i < 2
  · simp [hi, h2]
  · simp [hi, h2, BitVec.getLsbD_of_ge word (30 + i) (by omega)]

theorem and_31 (word : Word) : word &&& 31 = (rt word).setWidth 32 := by
  apply BitVec.eq_of_getLsbD_eq
  intro i hi
  rw [rt, BitVec.getLsbD_and, BitVec.getLsbD_setWidth, BitVec.getLsbD_extractLsb']
  interval_cases i <;> simp

theorem opc_cases : ∀ opc : BitVec 2, opc = 0 ∨ opc = 1 ∨ opc = 2 ∨ opc = 3 := by
  decide

theorem loads_class (opc : BitVec 2) : (loads (opc.setWidth 32)).extractLsb' 0 22 = 0 ∧
    ∃ scale, loadOffsetClass (loads (opc.setWidth 32)) = some (opc, false, scale) := by
  rcases opc_cases opc with rfl | rfl | rfl | rfl
  all_goals exact ⟨by decide, _, rfl⟩

theorem simdLoads_class {opc : BitVec 2} (h : opc ≠ 3) :
    (simdLoads (opc.setWidth 32)).extractLsb' 0 22 = 0 ∧
      ∃ scale, loadOffsetClass (simdLoads (opc.setWidth 32)) = some (opc, true, scale) := by
  rcases opc_cases opc with rfl | rfl | rfl | rfl
  · exact ⟨by decide, _, rfl⟩
  · exact ⟨by decide, _, rfl⟩
  · exact ⟨by decide, _, rfl⟩
  · exact absurd rfl h

theorem setWidth_inj {n : Nat} {x y : BitVec n} (h : n ≤ 32)
    (he : x.setWidth 32 = y.setWidth 32) : x = y := by
  have := congrArg (BitVec.setWidth n) he
  rwa [BitVec.setWidth_setWidth_of_le _ h, BitVec.setWidth_setWidth_of_le _ h, BitVec.setWidth_eq,
    BitVec.setWidth_eq] at this

theorem mayClobber_literal (hc : isLiteral word = true) (h : formsResult word 17 = false) :
    mayClobber word 17 = true := by
  rw [mayClobber, h, hc]
  simp

theorem moveAdr_sat (hc : isAdr word = true) :
    EmitsSat (moveAdr word src dst) fun code => ∀ A : Arch ρ, SameEffect A word src dst code := by
  have htarget : (if word >>> 31 != 0 then (src &&& ~~~0xFFF) + immAdr word * 4096
      else src + immAdr word) = adrValue word src := by
    rw [shiftRight_31]
    rfl
  have hdelta : (if word >>> 31 != 0 then
      (distance (dst &&& ~~~0xFFF) (adrValue word src)).sdiv 4096
      else distance dst (adrValue word src)) = adrDelta word src dst := by
    rw [shiftRight_31]
    rfl
  unfold moveAdr
  simp only [immAdr_eq, htarget, hdelta]
  refine emitsSat_ite (fun hfit => ?_) fun _ => ?_
  · refine emitsSat_emitWord fun A => ?_
    rw [wordAdr_eq]
    exact near_adr hc hfit
  · rw [and_31]
    refine emitsSat_mono (emitsSat_emitLoadAddress _) ?_
    rintro _ rfl A
    exact far_adr hc

theorem moveLiteral_sat (hc : isLiteral word = true) (hs : 4 ∣ src.toNat) (hd : 4 ∣ dst.toNat) :
    EmitsSat (moveLiteral word src dst) fun code =>
      ∀ A : Arch ρ, SameEffect A word src dst code := by
  have hadr : isAdr word = false := mask_exclusive hc (by decide)
  unfold moveLiteral
  simp only [imm19_eq, and_31, shiftRight_26, shiftRight_30]
  refine emitsSat_ite (fun hfit => ?_) fun _ => ?_
  · refine emitsSat_emitWord fun A => ?_
    rw [word19_eq]
    exact near_imm19 (Or.inr (Or.inr hc)) hs hd hfit
  refine emitsSat_ite (fun hsimd => ?_) fun hsimd => ?_
  · refine emitsSat_ite (fun _ => emitsSat_throw) fun hopc => ?_
    refine emitsSat_bind (emitsSat_emitLoadAddress 17) ?_
    rintro _ _ rfl
    refine emitsSat_emitWord fun A => ?_
    have hopc' : word.extractLsb' 30 2 ≠ 3 := by
      intro h3
      rw [h3] at hopc
      exact hopc rfl
    obtain ⟨hlow, scale, hclass⟩ := simdLoads_class hopc'
    rw [← hsimd] at hclass
    have hform : formsResult word 17 = false := by simp [formsResult, hsimd, hadr]
    exact far_literal hc hlow hclass (by decide) (Or.inl (mayClobber_literal hc hform))
  · rw [Bool.not_eq_true] at hsimd
    obtain ⟨hlow, scale, hclass⟩ := loads_class (word.extractLsb' 30 2)
    rw [← hsimd] at hclass
    by_cases hbase : (word.extractLsb' 30 2).setWidth 32 = (3 : BitVec 32) ∨
        (rt word).setWidth 32 = (31 : BitVec 32)
    · rw [if_pos hbase]
      refine emitsSat_bind (emitsSat_emitLoadAddress 17) ?_
      rintro _ _ rfl
      refine emitsSat_emitWord fun A => ?_
      have hform : formsResult word 17 = false := by
        rcases hbase with h3 | h31
        · have : word.extractLsb' 30 2 = 3 := setWidth_inj (by decide) h3
          simp [formsResult, hadr, this]
        · have : rt word = 31 := setWidth_inj (by decide) h31
          simp [formsResult, this]
      exact far_literal hc hlow hclass (by decide) (Or.inl (mayClobber_literal hc hform))
    · rw [if_neg hbase]
      refine emitsSat_bind (emitsSat_emitLoadAddress _) ?_
      rintro _ _ rfl
      refine emitsSat_emitWord fun A => ?_
      obtain ⟨h3, h31⟩ := not_or.mp hbase
      refine far_literal hc hlow hclass ?_ (Or.inr ⟨rfl, hsimd, ?_⟩)
      · intro h
        rw [h] at h31
        exact h31 rfl
      · intro h
        rw [h] at h3
        exact h3 rfl

/-! ### Copied words -/

/-- The decoder knows the labels: a word with one is undefined to it, or its operands say so. -/
def RejectsLabels (decodeWord : Decoder) : Prop :=
  ∀ w r, hasLabel w = true → decodeWord w = .ok r →
    r.undefined = true ∨ r.linkedOperands.any (·.dependsOnAddress) = true

/-- A machine whose signed return address is the address of the signing instruction. -/
def echoArch (ρ : Type) : Arch ρ where
  other _ _ _ := .trap
  other_pc _ _ _ _ _ := rfl
  pac _ _ _ modifier := modifier.getD 0
  pacm _ := true

/-- Memory that holds `bs` at `a` and nothing else. -/
def memOf (a : Addr) (bs : List Byte) : Addr → Option Byte := fun b => bs[(b - a).toNat]?

theorem codeAt_memOf (a : Addr) {bs : List Byte} (h : bs.length ≤ 2 ^ 64) :
    CodeAt (memOf a bs) a bs := by
  intro i hi
  have : (a + BitVec.ofNat 64 i - a).toNat = i := by
    rw [BitVec.add_comm, BitVec.add_sub_cancel, BitVec.toNat_ofNat, Nat.mod_eq_of_lt (by omega)]
  rw [memOf, this]
  exact List.getElem?_eq_getElem hi

/-- A signing word run elsewhere signs another address. -/
theorem copied_pac [Nonempty ρ] {key : PacKey} {form : PacForm}
    (hp : pacWord word = some (key, form)) (hne : src ≠ dst) :
    ¬ ∀ A : Arch ρ, SameEffect A word src dst (putWord word) := by
  intro hall
  obtain ⟨rest⟩ := ‹Nonempty ρ›
  set A := echoArch ρ with hA
  set s : State ρ := ⟨fun _ => 0, 0, fun _ => 0, memOf dst (putWord word), rest⟩ with hs
  have hcode : CodeAt s.mem dst (putWord word) := codeAt_memOf dst (by rw [putWord_length]; decide)
  have hsign : ∀ pc, signReturn A key form pc s = s.setX 30 pc := by
    intro pc
    simp [signReturn, hA, echoArch]
  have hsame := hall A s hcode
  rw [effect_pac hp, hsign] at hsame
  obtain ⟨t, hreach, hagree⟩ := hsame
  have hstep : step A (dst, s) = some (dst + 4, s.setX 30 dst) := by
    have := step_next hcode ((effect_pac (A := A) hp).trans (by rw [hsign]))
    exact this
  have hstop : step A (dst + 4, s.setX 30 dst) = none := by
    have hnone : s.mem (dst + 4) = none := by
      show (putWord word)[(dst + 4 - dst).toNat]? = none
      rw [show dst + 4 - dst = 4 by rw [BitVec.add_comm, BitVec.add_sub_cancel]]
      rfl
    have hread : read32 (s.setX 30 dst).mem (dst + 4) = none := by
      rw [State.setX_mem, read32, hnone]
      rfl
    rw [step, hread, Option.bind_none]
  -- the machine stops after the word, with its own address in x30
  obtain ⟨c, hc, hrest⟩ := Relation.TransGen.head'_iff.mp hreach
  rw [hstep] at hc
  cases hc
  rcases Relation.ReflTransGen.cases_head hrest with heq | ⟨d, hd, -⟩
  · have ht : t = s.setX 30 dst := (congrArg Prod.snd heq).symm
    have hx := hagree.x 30 (by rfl)
    rw [ht, State.setX_same (by decide), State.setX_same (by decide)] at hx
    exact hne hx.symm
  · rw [hstop] at hd
    cases hd

theorem copied_iff [Nonempty ρ] (h1 : isB word = false) (h2 : isBCond word = false)
    (h3 : isCb word = false) (h4 : isTb word = false) (h5 : isAdr word = false)
    (h6 : isLiteral word = false) (hl : hasLabel word = false) :
    (∀ A : Arch ρ, SameEffect A word src dst (putWord word)) ↔ pacWord word = none ∨ src = dst := by
  constructor
  · intro hall
    by_contra hcon
    obtain ⟨hp, hne⟩ := not_or.mp hcon
    obtain ⟨⟨key, form⟩, hsome⟩ := Option.ne_none_iff_exists'.mp hp
    exact copied_pac hsome hne hall
  · rintro (hp | rfl) A
    · exact sameEffect_single fun s => effect_pc_independent h1 h2 h3 h4 h5 h6 hl hp _
    · exact sameEffect_single fun _ => rfl

/-! ### The mover -/

/-- In a position-dependent class no word signs the return address. -/
theorem class_iff {code : List Byte}
    (hc : isB word = true ∨ isBCond word = true ∨ isCb word = true ∨ isTb word = true ∨
      isAdr word = true ∨ isLiteral word = true)
    (h : ∀ A : Arch ρ, SameEffect A word src dst code) :
    (∀ A : Arch ρ, SameEffect A word src dst code) ↔ pacWord word = none ∨ src = dst := by
  refine ⟨fun _ => Or.inl ?_, fun _ => h⟩
  cases hp : pacWord word with
  | none => rfl
  | some c =>
    exfalso
    rcases hc with hc | hc | hc | hc | hc | hc
    all_goals
      refine absurd hc (Bool.not_eq_true _ ▸ ?_)
      exact pacWord_exclusive hp (by decide)

theorem moveInstructionA64_sat [Nonempty ρ] {decodeWord : Decoder} (hdec : RejectsLabels decodeWord)
    (hs : 4 ∣ src.toNat) (hd : 4 ∣ dst.toNat) :
    EmitsSat (moveInstructionA64 decodeWord word src dst) fun code =>
      (∀ A : Arch ρ, SameEffect A word src dst code) ↔ pacWord word = none ∨ src = dst := by
  unfold moveInstructionA64
  simp only [imm26_eq, imm19_eq, shiftRight_31]
  refine emitsSat_ite (fun h => ?_) fun h1 => ?_
  · -- b, bl
    have hc : isB word = true := beq_iff_eq.mpr h
    refine emitsSat_mono ?_ fun code => class_iff (Or.inl hc)
    refine emitsSat_ite (fun hfit => ?_) fun _ => ?_
    · exact emitsSat_bind_pure (emitsSat_emitWord fun A => near_b hc hs hd hfit)
    · refine emitsSat_bind_pure (emitsSat_emitFarJump fun A => ?_)
      cases h31 : word.getLsbD 31 with
      | true => exact far_bl hc h31
      | false => exact far_b hc h31
  refine emitsSat_ite (fun h => ?_) fun h2 => ?_
  · -- b.cond, bc.cond
    have hc : isBCond word = true := beq_iff_eq.mpr h
    refine emitsSat_mono ?_ fun code => class_iff (Or.inr (Or.inl hc))
    refine emitsSat_ite (fun hal => ?_) fun hal => ?_
    · refine emitsSat_ite (fun hfit => ?_) fun _ => ?_
      · refine emitsSat_bind_pure (emitsSat_emitWord fun A => ?_)
        rw [word19_eq]
        exact near_imm19 (Or.inl hc) hs hd hfit
      · exact emitsSat_bind_pure (emitsSat_emitFarJump fun A => far_bCond_always hc hal)
    · exact emitsSat_bind_pure (emitsSat_moveConditional (by decide) (by decide) (offset19_eq word)
        (fun hfit A => near_imm19 (Or.inl hc) hs hd hfit) fun A => far_bCond hc hal)
  refine emitsSat_ite (fun h => ?_) fun h3 => ?_
  · -- cbz, cbnz
    have hc : isCb word = true := beq_iff_eq.mpr h
    refine emitsSat_mono ?_ fun code => class_iff (Or.inr (Or.inr (Or.inl hc)))
    exact emitsSat_bind_pure (emitsSat_moveConditional (by decide) (by decide) (offset19_eq word)
      (fun hfit A => near_imm19 (Or.inr (Or.inl hc)) hs hd hfit) fun A => far_cb hc)
  refine emitsSat_ite (fun h => ?_) fun h4 => ?_
  · -- tbz, tbnz
    have hc : isTb word = true := beq_iff_eq.mpr h
    refine emitsSat_mono ?_ fun code => class_iff (Or.inr (Or.inr (Or.inr (Or.inl hc))))
    exact emitsSat_bind_pure (emitsSat_moveConditional (by decide) (by decide) (offset14_eq word)
      (fun hfit A => near_tb hc hs hd hfit) fun A => far_tb hc)
  refine emitsSat_ite (fun h => ?_) fun h5 => ?_
  · -- adr, adrp
    have hc : isAdr word = true := beq_iff_eq.mpr h
    refine emitsSat_mono ?_ fun code => class_iff (Or.inr (Or.inr (Or.inr (Or.inr (Or.inl hc)))))
    exact emitsSat_bind_pure (moveAdr_sat hc)
  refine emitsSat_ite (fun h => ?_) fun h6 => ?_
  · -- ldr (literal)
    have hc : isLiteral word = true := beq_iff_eq.mpr h
    refine emitsSat_mono ?_ fun code => class_iff (Or.inr (Or.inr (Or.inr (Or.inr (Or.inr hc)))))
    exact emitsSat_bind_pure (moveLiteral_sat hc hs hd)
  -- the copied words
  refine emitsSat_decode fun r hr => ?_
  refine emitsSat_ite (fun _ => emitsSat_throw_bind) fun hu => ?_
  refine emitsSat_ite (fun _ => emitsSat_throw_bind) fun ha => ?_
  refine emitsSat_bind_pure (emitsSat_emitWord ?_)
  have hl : hasLabel word = false := by
    by_contra hcon
    rcases hdec word r (by simpa using hcon) hr with h | h
    · exact hu h
    · exact ha h
  exact copied_iff (beq_eq_false_iff_ne.mpr h1) (beq_eq_false_iff_ne.mpr h2)
    (beq_eq_false_iff_ne.mpr h3) (beq_eq_false_iff_ne.mpr h4) (beq_eq_false_iff_ne.mpr h5)
    (beq_eq_false_iff_ne.mpr h6) hl

/-- What the mover appends for a word it accepts does what the word does, on every machine, exactly
when the word does not sign the return address or is not moved at all. -/
theorem moveInstructionA64_sameEffect_iff [Nonempty ρ] {decodeWord : Decoder}
    (hdec : RejectsLabels decodeWord) (hs : 4 ∣ src.toNat) (hd : 4 ∣ dst.toNat) {m m' : Message}
    {endsFlow : Bool} (h : moveInstructionA64 decodeWord word src dst m = (.ok endsFlow, m')) :
    ∃ code, m'.workBufferRaw = m.workBufferRaw ++ code ∧
      ((∀ A : Arch ρ, SameEffect A word src dst code) ↔ pacWord word = none ∨ src = dst) :=
  moveInstructionA64_sat hdec hs hd m endsFlow m' h

/-- A decoder that knows the labels and no other operand. -/
def labelDecoder : Decoder := fun w => .ok ⟨false, if hasLabel w then [.rel] else []⟩

theorem rejectsLabels_labelDecoder : RejectsLabels labelDecoder := by
  intro w r hl hr
  cases hr
  exact Or.inr (by simp [hl, LinkedOperand.dependsOnAddress])

/-- A call out of range, moved. -/
theorem moveInstructionA64_far_bl :
    ∃ code,
    (moveInstructionA64 labelDecoder 0x94000001 0x100000000 0x1000 emptyMessage).2.workBufferRaw =
        emptyMessage.workBufferRaw ++ code ∧
      ((∀ A : Arch Unit, SameEffect A 0x94000001 0x100000000 0x1000 code) ↔
        pacWord 0x94000001 = none ∨ (0x100000000 : Addr) = 0x1000) :=
  moveInstructionA64_sameEffect_iff rejectsLabels_labelDecoder (by decide) (by decide)
    (show _ = (Except.ok false, _) from rfl)

/-- `paciasppc` is accepted and copied, and the copy signs another address. -/
theorem moveInstructionA64_paciasppc :
    ∃ m', moveInstructionA64 labelDecoder 0xDAC1A3FE 0x1000 0x2000 emptyMessage = (.ok false, m') ∧
      ¬ ∀ A : Arch Unit, SameEffect A 0xDAC1A3FE 0x1000 0x2000 m'.workBufferRaw :=
  ⟨_, rfl, copied_pac (show _ = some (PacKey.a, PacForm.spPc) by decide) (by decide)⟩

end Code

end Diana.Patcher
