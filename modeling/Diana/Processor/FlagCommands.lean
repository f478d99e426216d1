import Diana.Processor.Stack

/-!
# Saving and restoring the flags

`pushf` and `popf`, `lahf` and `sahf`. The restoring commands run the flags they read through
`DianaProcessor_SetResetDefaultFlags`, which also turns interrupts on.

* `fixedFlag`, `Settled`: the flags that function decides, and a register it leaves alone;
* `callPushf_ok`, `callPopf_ok`: what the two leave;
* `flags_restored_iff`: when the saved flags come back.
-/

namespace Diana.Processor

open Diana.Lib

variable {μ : Type}

/-! ## Commands -/

/-- `Diana_Call_lahf` -/
def callLahf : Exec μ Unit := modify fun s => s.setValue (.r8h 0) (cutValue s.flags .byte)

/-- `Diana_Call_sahf` -/
def callSahf : Exec μ Unit := modify fun s =>
  { s with flags := Proc.resetDefaultFlags (setField s.flags 0 8
    ((s.getValue (.r8h 0)).setWidth 8)) }

/-- `Diana_Call_cli` -/
def callCli : Exec μ Unit := modifyFlags fun f => clearFlag f flagIF

/-! ## The fixed flags -/

/-- The bits that `DianaProcessor_SetResetDefaultFlags` sets and clears: bit 1, IF and ID,
and bits 3, 5 and 15. -/
def fixedFlag : Nat → Option Bool
  | 1 => some true
  | 3 => some false
  | 5 => some false
  | 9 => some true
  | 15 => some false
  | 21 => some true
  | _ => none

/-- The fixed flags have the values they are given. -/
def Settled (flags : Value) : Prop := ∀ i b, fixedFlag i = some b → flags.getLsbD i = b

/-- Above the bits of an operand, only fixed flags are set. -/
def ClearAbove (flags : Value) (size : Size) : Prop :=
  ∀ i, size.bits ≤ i → fixedFlag i = none → flags.getLsbD i = false

theorem fixedFlag_lt {i : Nat} {b : Bool} (h : fixedFlag i = some b) : i < 64 := by
  unfold fixedFlag at h
  split at h <;> first | omega | cases h

theorem getLsbD_resetDefaultFlags (f : Value) {i : Nat} (hi : i < 64) :
    (Proc.resetDefaultFlags f).getLsbD i = (fixedFlag i).getD (f.getLsbD i) := by
  have h : Proc.resetDefaultFlags f =
      clearFlag
      (clearFlag
        (clearFlag (setFlag (setFlag (setFlag f (BitVec.twoPow 64 1)) (BitVec.twoPow 64 21))
        (BitVec.twoPow 64 9)) (BitVec.twoPow 64 3)) (BitVec.twoPow 64 5)) (BitVec.twoPow 64 15) :=
    rfl
  rw [h, getLsbD_clearFlag _ (by decide), getLsbD_clearFlag _ (by decide),
    getLsbD_clearFlag _ (by decide), getLsbD_setFlag _ (by decide), getLsbD_setFlag _ (by decide),
    getLsbD_setFlag _ (by decide)]
  unfold fixedFlag
  split
  case h_7 h1 h3 h5 h9 h15 h21 =>
    rw [decide_eq_false h1, decide_eq_false h3, decide_eq_false h5, decide_eq_false h9,
      decide_eq_false h15, decide_eq_false h21]
    simp
  all_goals simp

theorem resetDefaultFlags_eq_self_iff (f : Value) : Proc.resetDefaultFlags f = f ↔ Settled f := by
  constructor
  · intro h i b hb
    rw [← h, getLsbD_resetDefaultFlags f (fixedFlag_lt hb), hb]
    rfl
  · intro h
    apply BitVec.eq_of_getLsbD_eq
    intro i hi
    rw [getLsbD_resetDefaultFlags f hi]
    cases hb : fixedFlag i with
    | none => rfl
    | some b => exact (h i b hb).symm

/-! ## The commands one by one -/

section

variable {S : MemoryStream μ} {I J : Insn} {s t u : Proc μ}

/-- `pushf` stores the low part of the flags below the stack pointer. -/
theorem callPushf_ok (h : callPushf S I s = .ok () t) :
    ¬ s.getValue .rsp < I.opBytes ∧ ∃ mem,
      S.write s.mem (s.getValue (.seg .ss)) (s.getValue .rsp - I.opBytes)
      (leBytes I.opsize.bytes s.flags) .ss =
        (.ok I.opsize.bytes, mem) ∧
      t = { s with mem }.setValue .rsp (s.getValue .rsp - I.opBytes) := by
  unfold callPushf at h
  rw [get_bind] at h
  by_cases hlt : s.getValue .rsp < I.opBytes
  · rw [if_pos hlt] at h
    cases h
  · rw [if_neg hlt] at h
    dsimp only at h
    refine ⟨hlt, ?_⟩
    cases hset : setMemValue S (s.getValue (.seg .ss)) (s.getValue .rsp - I.opBytes) I.opsize
      s.flags .ss s with
    | error e v =>
      rw [bind_of_error hset] at h
      cases h
    | ok a v =>
      rw [bind_of_ok hset, modify_apply] at h
      obtain ⟨hw, hv⟩ := setMemValue_ok hset
      refine ⟨v.mem, hw, ?_⟩
      cases h
      rw [← hv]

theorem callPushf_of_write {mem : μ} (hlt : ¬ s.getValue .rsp < I.opBytes)
    (h : S.write s.mem (s.getValue (.seg .ss)) (s.getValue .rsp - I.opBytes)
      (leBytes I.opsize.bytes s.flags) .ss = (.ok I.opsize.bytes, mem)) :
    callPushf S I s = .ok () ({ s with mem }.setValue .rsp (s.getValue .rsp - I.opBytes)) := by
  unfold callPushf
  rw [get_bind, if_neg hlt]
  dsimp only
  rw [bind_of_ok (setMemValue_of_write h), modify_apply]

/-- The flags that `popf` takes from the stack: all of them in 64-bit mode, whatever the operand
size. -/
def poppedFlags (amd64 : Bool) (size : Size) (flags v : Value) : Value :=
  Proc.resetDefaultFlags (if amd64 then v else setField flags 0 size.bits (v.setWidth size.bits))

/-- The operand sizes of `popf` outside 64-bit mode. -/
def PopfSize (amd64 : Bool) (size : Size) : Prop := amd64 = false → size = .word ∨ size = .dword

theorem callPopf_of_read {bs : List Byte} (hs : s.Idle) (hsize : PopfSize s.mode.amd64 J.opsize)
    (h : S.read s.mem (s.getValue (.seg .ss)) (s.stackPointer J) J.opsize.bytes .ss = .ok bs)
    (hl : bs.length = J.opsize.bytes) :
    ∃ u, callPopf S J s = .ok () u ∧ u.flags = poppedFlags s.mode.amd64 J.opsize s.flags
    (leValue bs) := by
  unfold callPopf
  rw [get_bind]
  cases hm : s.mode.amd64 with
  | true =>
    rw [if_pos rfl, readMem_of_read h hl]
    refine ⟨_, rfl, ?_⟩
    have hidle : Proc.Idle { s with flags := leValue bs } := hs
    exact congrArg Proc.resetDefaultFlags (hidle.setValueEx _ _ _ _).2
  | false =>
    have hpop : internalPop S J s = .ok (leValue bs)
        (s.setValueEx (some .rsp) .rsp (s.stackPointer J + J.opBytes) J.addressSize) := by
      unfold internalPop
      rw [get_bind, bind_of_ok (getMemValue_of_read h hl)]
      rfl
    rw [if_neg (by decide)]
    have hflags := (hs.setValueEx (some .rsp) .rsp (s.stackPointer J + J.opBytes) J.addressSize).2
    rcases hsize hm with hop | hop
    all_goals
      rw [hop]
      dsimp only
      rw [bind_of_ok hpop]
      refine ⟨_, rfl, ?_⟩
      dsimp only
      rw [hflags]
      rfl

theorem callPopf_of_failure {v : Value} {e : Status}
    (h : s.readMem S (s.getValue (.seg .ss)) (s.stackPointer J) J.opsize .ss = (v, some e)) :
    ∃ f u, callPopf S J s = .error f u := by
  unfold callPopf
  rw [get_bind]
  cases hm : s.mode.amd64 with
  | true =>
    rw [if_pos rfl, h]
    exact ⟨_, _, rfl⟩
  | false =>
    have hpop : internalPop S J s = .error (.memory e) s := by
      unfold internalPop getMemValue
      rw [get_bind]
      refine bind_of_error ?_
      rw [get_bind, h]
      rfl
    rw [if_neg (by decide)]
    cases J.opsize with
    | word => exact ⟨_, _, bind_of_error hpop⟩
    | dword => exact ⟨_, _, bind_of_error hpop⟩
    | _ => exact ⟨_, _, rfl⟩

theorem callPopf_ok (hs : s.Idle) (hsize : PopfSize s.mode.amd64 J.opsize)
    (h : callPopf S J s = .ok () u) :
    ∃ bs, S.read s.mem (s.getValue (.seg .ss)) (s.stackPointer J) J.opsize.bytes .ss = .ok bs ∧
      bs.length = J.opsize.bytes ∧ u.flags = poppedFlags s.mode.amd64 J.opsize s.flags
      (leValue bs) := by
  have hfail : ∀ v e, s.readMem S (s.getValue (.seg .ss)) (s.stackPointer J) J.opsize .ss ≠
      (v, some e) := by
    intro v e he
    obtain ⟨f, u', hu⟩ := callPopf_of_failure he
    rw [h] at hu
    cases hu
  unfold Proc.readMem at hfail
  cases hr : S.read s.mem (s.getValue (.seg .ss)) (s.stackPointer J) J.opsize.bytes .ss with
  | error e =>
    rw [hr] at hfail
    exact absurd rfl (hfail 0 e)
  | ok bs =>
    rw [hr] at hfail
    by_cases hl : bs.length = J.opsize.bytes
    · obtain ⟨u', hu, hflags⟩ := callPopf_of_read hs hsize hr hl
      rw [h] at hu
      cases hu
      exact ⟨bs, rfl, hl, hflags⟩
    · refine absurd ?_ (hfail (leValue bs) .error)
      dsimp only
      rw [if_neg hl]

end

/-! ## Bits of the flags that were popped -/

section

variable {amd64 : Bool} {size : Size} {flags v : Value}

theorem getLsbD_poppedFlags {i : Nat} (hi : i < 64) : (poppedFlags amd64 size flags v).getLsbD i =
    (fixedFlag i).getD (if amd64 = true ∨ i < size.bits then v.getLsbD i else flags.getLsbD i) := by
  unfold poppedFlags
  rw [getLsbD_resetDefaultFlags _ hi]
  cases amd64 with
  | true => simp
  | false =>
    rw [if_neg (by decide), getLsbD_setField _ _ _ _ hi]
    by_cases h : i < size.bits
    · simp [h]
    · simp [h]

/-- The flags come back from a slot that holds their low part. -/
theorem poppedFlags_eq_iff : poppedFlags amd64 size flags (cutValue flags size) = flags ↔
    Settled flags ∧ (amd64 = true → ClearAbove flags size) := by
  have hbit : ∀ i < 64, (poppedFlags amd64 size flags (cutValue flags size)).getLsbD i =
      (fixedFlag i).getD (if amd64 = true ∧ ¬ i < size.bits then false else flags.getLsbD i) := by
    intro i hi
    rw [getLsbD_poppedFlags hi, cutValue_eq, BitVec.getLsbD_setWidth, getLsbD_low]
    congr 1
    by_cases h : i < size.bits <;> cases amd64 <;> simp [h, hi]
  constructor
  · intro h
    refine ⟨fun i b hb => ?_, fun hm i hge hnone => ?_⟩
    · rw [← h, hbit i (fixedFlag_lt hb), hb]
      rfl
    · by_cases hi : i < 64
      · rw [← h, hbit i hi, hnone, if_pos ⟨hm, by omega⟩]
        rfl
      · exact BitVec.getLsbD_of_ge flags i (by omega)
  · rintro ⟨hsettled, hclear⟩
    apply BitVec.eq_of_getLsbD_eq
    intro i hi
    rw [hbit i hi]
    cases hb : fixedFlag i with
    | some b => exact (hsettled i b hb).symm
    | none =>
      rw [Option.getD_none]
      split
      · next h => exact (hclear h.1 i (by omega) hb).symm
      · rfl

/-- A 16-bit `popf` leaves the flags above. -/
theorem poppedFlags_above_iff (hv : ∀ i, 16 ≤ i → v.getLsbD i = false) :
    (∀ i, 16 ≤ i → (poppedFlags amd64 .word flags v).getLsbD i = flags.getLsbD i) ↔
      flags.getLsbD 21 = true ∧ (amd64 = true → ClearAbove flags .word) := by
  have hword : Size.word.bits = 16 := rfl
  constructor
  · intro h
    refine ⟨?_, fun hm i hge hnone => ?_⟩
    · rw [← h 21 (by decide), getLsbD_poppedFlags (by decide)]
      rfl
    · by_cases hi : i < 64
      · rw [← h i hge, getLsbD_poppedFlags hi, hnone, if_pos (.inl hm), hv i hge]
        rfl
      · exact BitVec.getLsbD_of_ge flags i (by omega)
  · rintro ⟨hid, hclear⟩ i hge
    by_cases hi : i < 64
    · rw [getLsbD_poppedFlags hi]
      by_cases h21 : i = 21
      · subst h21
        exact hid.symm
      · have hnone : fixedFlag i = none := by
          unfold fixedFlag
          split <;> first | omega | rfl
        rw [hnone, Option.getD_none, hword]
        split
        · next h =>
          rw [hv i hge]
          exact (hclear (h.resolve_right (by omega)) i hge hnone).symm
        · rfl
    · rw [BitVec.getLsbD_of_ge _ i (by omega), BitVec.getLsbD_of_ge _ i (by omega)]

end

/-! ## Round trips -/

/-- `pushf` and then `popf`, in a state with these flags and this stack pointer. -/
def PopfRestores (mode : Mode) (flags rsp : Value) (I J : Insn) : Prop :=
  ∀ (μ : Type) (S : MemoryStream μ), S.ReadsBack → ∀ s t u : Proc μ,
    s.Idle → s.mode = mode → s.flags = flags →
    s.getValue .rsp = rsp → callPushf S I s = .ok () t → callPopf S J t = .ok () u → u.flags = flags

/-- `lahf` and then `sahf`. -/
def SahfRestores (flags : Value) : Prop :=
  ∀ (μ : Type) (s t u : Proc μ), s.Idle → s.flags = flags → callLahf s = .ok () t →
    callSahf t = .ok () u → u.flags = flags

/-- `sahf` changes SF, ZF, AF, PF and CF only. -/
def SahfLocal (flags : Value) : Prop :=
  ∀ (μ : Type) (s t : Proc μ), s.flags = flags → callSahf s = .ok () t →
    ∀ i, i ∉ [0, 2, 4, 6, 7] → t.flags.getLsbD i = flags.getLsbD i

/-- A `popf` changes no flag above bit 15. -/
def PopfLocal (mode : Mode) (flags : Value) (J : Insn) : Prop :=
  ∀ (μ : Type) (S : MemoryStream μ) (s t : Proc μ), s.Idle → s.mode = mode → s.flags = flags →
    callPopf S J s = .ok () t → ∀ i, 16 ≤ i → t.flags.getLsbD i = flags.getLsbD i

/-- A state with given flags and a given stack pointer, over flat memory. -/
def flagState (mode : Mode) (flags rsp : Value) (mem : Value → Byte) : Proc (Value → Byte) :=
  { (Proc.init mode mem).setValue .rsp rsp with flags }

theorem flagState_idle (mode : Mode) (flags rsp : Value) (mem : Value → Byte) :
    (flagState mode flags rsp mem).Idle :=
  (Proc.Idle.setValue (s := Proc.init mode mem) rfl .rsp rsp).1

theorem flagState_rsp (mode : Mode) (flags rsp : Value) (mem : Value → Byte) :
    (flagState mode flags rsp mem).getValue .rsp = rsp :=
  getValue_setValue_r64 (Proc.init mode mem) 4 rsp

theorem flagState_mode (mode : Mode) (flags rsp : Value) (mem : Value → Byte) :
    (flagState mode flags rsp mem).mode = mode :=
  (Proc.sameRest_setValueEx (Proc.init mode mem) _ _ _ _).mode

theorem flagState_mem (mode : Mode) (flags rsp : Value) (mem : Value → Byte) :
    (flagState mode flags rsp mem).mem = mem :=
  (Proc.sameRest_setValueEx (Proc.init mode mem) _ _ _ _).mem

section

variable {S : MemoryStream μ} {I J : Insn} {s t u : Proc μ}

/-- What `popf` finds where `pushf` ended. -/
theorem callPushf_state (hs : s.Idle) (h : callPushf S I s = .ok () t) :
    t.Idle ∧ t.flags = s.flags ∧ t.mode = s.mode ∧ t.getValue (.seg .ss) = s.getValue (.seg .ss) ∧
      t.stackPointer J = cutValue (s.getValue .rsp - I.opBytes) J.addressSize := by
  obtain ⟨-, mem, -, rfl⟩ := callPushf_ok h
  have hidle : Proc.Idle { s with mem } := hs
  refine ⟨(hidle.setValue _ _).1, (hidle.setValue _ _).2,
    (Proc.sameRest_setValueEx _ _ _ _ _).mode, ?_, ?_⟩
  · exact getValue_setValue_of_ne _ (by decide) _
  · unfold Proc.stackPointer
    rw [getValueEx_r64, getValue_setValue_r64]

/-- `popf` from the slot that `pushf` has written. -/
theorem popf_of_pushf (hS : S.ReadsBack) (hs : s.Idle) (hIJ : J.opsize = I.opsize)
    (hsize : PopfSize s.mode.amd64 I.opsize)
    (hslot : cutValue (s.getValue .rsp - I.opBytes) J.addressSize = s.getValue .rsp - I.opBytes)
    (h : callPushf S I s = .ok () t) :
    ∃ u, callPopf S J t = .ok () u ∧
      u.flags = poppedFlags s.mode.amd64 I.opsize s.flags (cutValue s.flags I.opsize) := by
  obtain ⟨hidle, hflags, hmode, hss, hrsp⟩ := callPushf_state (J := J) hs h
  obtain ⟨-, mem, hw, ht⟩ := callPushf_ok h
  have hmem : t.mem = mem := by
    rw [ht]
    exact (Proc.sameRest_setValueEx _ _ _ _ _).mem
  have hread := hS.read hw
  rw [← hmem, ← hss, ← hslot, ← hrsp, ← hIJ] at hread
  rw [← hmode, ← hIJ] at hsize
  obtain ⟨u, hu, huf⟩ := callPopf_of_read hidle hsize hread (length_leBytes _ _)
  rw [leValue_leBytes, hmode, hflags, hIJ] at huf
  exact ⟨u, hu, huf⟩

end

theorem pushf_flat (mode : Mode) (flags : Value) {rsp : Value} (mem : Value → Byte) {I : Insn}
    (hlt : ¬ rsp < I.opBytes) :
    ∃ t, callPushf flatStream I (flagState mode flags rsp mem) = .ok () t ∧
      t.mem = store mem (rsp - I.opBytes) (leBytes I.opsize.bytes flags) := by
  have hrsp := flagState_rsp mode flags rsp mem
  refine ⟨_, callPushf_of_write (by rwa [hrsp]) ?_, (Proc.sameRest_setValueEx _ _ _ _ _).mem⟩
  rw [hrsp, flagState_mem]
  exact congrArg (Prod.mk · _) (congrArg Except.ok (length_leBytes _ _))

theorem popf_flat {J : Insn} {s : Proc (Value → Byte)} (hs : s.Idle)
    (hsize : PopfSize s.mode.amd64 J.opsize) : ∃ u, callPopf flatStream J s = .ok () u ∧ u.flags =
      poppedFlags s.mode.amd64 J.opsize s.flags
      (leValue (load s.mem (s.stackPointer J) J.opsize.bytes)) :=
  callPopf_of_read hs hsize rfl (length_load _ _ _)

theorem toNat_cutValue_lt {v : Value} {size : Size} (h : cutValue v size ≠ v) :
    (cutValue v size).toNat < v.toNat := by
  refine lt_of_le_of_ne ?_ fun he => h (BitVec.eq_of_toNat_eq he)
  rw [toNat_cutValue, Size.low, BitVec.toNat_setWidth]
  exact Nat.mod_le _ _

/-- A slot that is cut lies outside of the one below the stack pointer. -/
theorem cut_outside {rsp : Value} {size asize : Size} (hlt : ¬ rsp < BitVec.ofNat 64 size.bytes)
    (hcut : cutValue (rsp - BitVec.ofNat 64 size.bytes) asize ≠ rsp - BitVec.ofNat 64 size.bytes) :
    size.bytes ≤ (cutValue (rsp - BitVec.ofNat 64 size.bytes) asize -
      (rsp - BitVec.ofNat 64 size.bytes)).toNat := by
  have hbytes := size.bytes_le
  have hn : (BitVec.ofNat 64 size.bytes).toNat = size.bytes := by
    rw [BitVec.toNat_ofNat, Nat.mod_eq_of_lt (by omega)]
  have hcut := toNat_cutValue_lt hcut
  have hrsp := rsp.isLt
  rw [BitVec.lt_def, hn] at hlt
  have hsub : (rsp - BitVec.ofNat 64 size.bytes).toNat = rsp.toNat - size.bytes := by
    rw [BitVec.toNat_sub_of_le (by rw [BitVec.le_def, hn]; omega), hn]
  rw [BitVec.toNat_sub]
  omega

/-- A stack pointer that is cut on the way: `popf` reads a slot that `pushf` has not written, and
finds whatever the memory held there. -/
theorem not_popfRestores_of_cut {mode : Mode} {flags rsp : Value} {I J : Insn}
    (hIJ : J.opsize = I.opsize) (hsize : PopfSize mode.amd64 I.opsize) (hlt : ¬ rsp < I.opBytes)
    (hcut : cutValue (rsp - I.opBytes) J.addressSize ≠ rsp - I.opBytes) :
    ¬ PopfRestores mode flags rsp I J := by
  intro hrestores
  -- every byte has the other carry
  obtain ⟨mem, hmem⟩ : ∃ mem : Value → Byte, ∀ x, (mem x).getLsbD 0 = !flags.getLsbD 0 := by
    cases flags.getLsbD 0
    · exact ⟨fun _ => 1, fun _ => by simp⟩
    · exact ⟨fun _ => 0, fun _ => by simp⟩
  obtain ⟨t, hpush, htmem⟩ := pushf_flat mode flags mem hlt
  have hidle := flagState_idle mode flags rsp mem
  have hmode := flagState_mode mode flags rsp mem
  have hrsp := flagState_rsp mode flags rsp mem
  obtain ⟨htidle, -, htmode, -, htsp⟩ := callPushf_state (J := J) hidle hpush
  rw [hrsp] at htsp
  obtain ⟨u, hu, huflags⟩ := popf_flat (J := J) htidle (by rwa [htmode, hmode, hIJ])
  have heq := hrestores _ flatStream flatStream_readsBack _ t u hidle hmode rfl hrsp hpush hu
  have hpos : 0 < J.opsize.bytes := by cases J.opsize <;> decide
  have hbyte : (load t.mem (t.stackPointer J) J.opsize.bytes)[0]?.getD 0 =
      mem (cutValue (rsp - I.opBytes) J.addressSize) := by
    have h0 : ∀ a : Value, a + BitVec.ofNat 64 0 = a := BitVec.add_zero
    rw [List.getElem?_eq_getElem (by rwa [length_load]), Option.getD_some, getElem_load,
      htsp, htmem, h0]
    refine store_of_outside ?_
    rw [length_leBytes]
    exact cut_outside hlt hcut
  have hbit : u.flags.getLsbD 0 = flags.getLsbD 0 := by rw [heq]
  rw [huflags, getLsbD_poppedFlags (by decide), if_pos (.inr J.opsize.bits_pos),
    getLsbD_leValue _ (by decide), hbyte] at hbit
  exact Bool.not_ne_self _ ((hmem _).symm.trans hbit)

theorem popfRestores_iff (mode : Mode) (flags rsp : Value) {I J : Insn} (hIJ : J.opsize = I.opsize)
    (hsize : PopfSize mode.amd64 I.opsize) :
    PopfRestores mode flags rsp I J ↔ rsp < I.opBytes ∨
      (cutValue (rsp - I.opBytes) J.addressSize = rsp - I.opBytes ∧ Settled flags ∧
        (mode.amd64 = true → ClearAbove flags I.opsize)) := by
  constructor
  · intro hrestores
    by_cases hlt : rsp < I.opBytes
    · exact .inl hlt
    · by_cases hcut : cutValue (rsp - I.opBytes) J.addressSize = rsp - I.opBytes
      · refine .inr ⟨hcut, poppedFlags_eq_iff.1 ?_⟩
        obtain ⟨t, hpush, -⟩ := pushf_flat mode flags (fun _ => 0) hlt
        have hidle := flagState_idle mode flags rsp fun _ => 0
        have hmode := flagState_mode mode flags rsp fun _ => 0
        have hrsp := flagState_rsp mode flags rsp fun _ => 0
        obtain ⟨u, hu, huflags⟩ := popf_of_pushf flatStream_readsBack hidle hIJ (by rwa [hmode])
            (by rwa [hrsp]) hpush
        have heq := hrestores _ flatStream flatStream_readsBack _ t u hidle hmode rfl hrsp hpush hu
        rw [hmode] at huflags
        exact huflags.symm.trans heq
      · exact absurd hrestores (not_popfRestores_of_cut hIJ hsize hlt hcut)
  · rintro (hlt | ⟨hcut, hsettled⟩) μ S hS s t u hidle rfl rfl rfl hpush hpop
    · exact absurd hlt (callPushf_ok hpush).1
    · obtain ⟨u', hu, huflags⟩ := popf_of_pushf hS hidle hIJ hsize hcut hpush
      rw [hpop] at hu
      cases hu
      exact huflags.trans (poppedFlags_eq_iff.2 hsettled)

theorem sahfRestores_iff (flags : Value) : SahfRestores flags ↔ Settled flags := by
  have hrun : ∀ (μ : Type) (s t u : Proc μ), s.Idle → s.flags = flags → callLahf s = .ok () t →
      callSahf t = .ok () u → u.flags = Proc.resetDefaultFlags flags := by
    rintro μ s t u hidle rfl ht hu
    cases ht
    cases hu
    dsimp only
    rw [(hidle.setValue _ _).2, getValue_setValue]
    congr 1
    apply BitVec.eq_of_getLsbD_eq
    intro i hi
    rw [getLsbD_setField _ _ _ _ hi]
    split
    · next h =>
      have h8 : i < 8 := h.2
      have hb : Size.byte.bits = 8 := rfl
      have hr : (Register.r8h 0).size = .byte := rfl
      rw [hr, cutValue_cutValue, BitVec.getLsbD_setWidth, cutValue_eq,
        BitVec.getLsbD_setWidth, getLsbD_low, hb]
      simp [h8, hi]
    · rfl
  rw [← resetDefaultFlags_eq_self_iff]
  constructor
  · intro h
    have hidle := flagState_idle ⟨true, .qword, .qword⟩ flags 0 fun _ => 0
    exact (hrun _ _ _ _ hidle rfl rfl rfl).symm.trans (h _ _ _ _ hidle rfl rfl rfl)
  · intro h μ s t u hidle hf ht hu
    exact (hrun μ s t u hidle hf ht hu).trans h

theorem sahfLocal_iff (flags : Value) : SahfLocal flags ↔ Settled flags := by
  constructor
  · intro h i b hb
    have hi := fixedFlag_lt hb
    have hmem : i ∉ [0, 2, 4, 6, 7] := by
      intro hmem
      rcases (by simpa using hmem : i = 0 ∨ i = 2 ∨ i = 4 ∨ i = 6 ∨ i = 7) with rfl | rfl | rfl
        | rfl | rfl <;> cases hb
    have hrun := h _ (flagState ⟨true, .qword, .qword⟩ flags 0 fun _ => 0) _ rfl rfl i hmem
    dsimp only at hrun
    rw [getLsbD_resetDefaultFlags _ hi, hb] at hrun
    exact hrun.symm
  · rintro h μ s t rfl ht i hi
    cases ht
    dsimp only
    by_cases h64 : i < 64
    · rw [getLsbD_resetDefaultFlags _ h64]
      cases hb : fixedFlag i with
      | some b => exact (h i b hb).symm
      | none =>
        have h8 : ¬ i < 8 := by
          intro h8
          interval_cases i <;> first | exact hi (by decide) | cases hb
        rw [Option.getD_none, getLsbD_setField _ _ _ _ h64, if_neg (by omega)]
    · rw [BitVec.getLsbD_of_ge _ i (by omega), BitVec.getLsbD_of_ge _ i (by omega)]

theorem popfLocal_iff (mode : Mode) (flags : Value) {K : Insn} (hK : K.opsize = .word) :
    PopfLocal mode flags K ↔ flags.getLsbD 21 = true ∧
    (mode.amd64 = true → ClearAbove flags .word) := by
  have habove : ∀ bs : List Byte, bs.length = 2 → ∀ i, 16 ≤ i → (leValue bs).getLsbD i = false := by
    intro bs hl i hi
    have hlt := toNat_leValue_lt bs
    rw [hl] at hlt
    exact Nat.testBit_lt_two_pow (hlt.trans_le (Nat.pow_le_pow_right (by decide) hi))
  constructor
  · intro h
    have hidle := flagState_idle mode flags 0 fun _ => 0
    have hmode := flagState_mode mode flags 0 fun _ => 0
    obtain ⟨u, hu, huflags⟩ := popf_flat (J := K) hidle fun _ => .inl hK
    have hrun := h _ flatStream _ u hidle hmode rfl hu
    rw [huflags, hmode, hK] at hrun
    exact (poppedFlags_above_iff (habove _ (length_load _ _ _))).1 hrun
  · rintro h μ S s t hidle rfl rfl ht
    obtain ⟨bs, -, hl, hflags⟩ := callPopf_ok hidle (fun _ => .inl hK) ht
    rw [hK] at hl hflags
    rw [hflags]
    exact (poppedFlags_above_iff (habove bs hl)).2 h

/-- The saved flags come back exactly where the fixed ones have their values, IF among them, and in
64-bit mode no other flag lies above the operand size. -/
theorem flags_restored_iff (mode : Mode) (flags rsp : Value) {I J K : Insn}
    (hIJ : J.opsize = I.opsize) (hsize : PopfSize mode.amd64 I.opsize) (hK : K.opsize = .word) :
    (PopfRestores mode flags rsp I J ↔ rsp < I.opBytes ∨
      (cutValue (rsp - I.opBytes) J.addressSize = rsp - I.opBytes ∧ Settled flags ∧
        (mode.amd64 = true → ClearAbove flags I.opsize))) ∧
    (SahfRestores flags ↔ Settled flags) ∧
    (SahfLocal flags ↔ Settled flags) ∧
    (PopfLocal mode flags K ↔ flags.getLsbD 21 = true ∧
      (mode.amd64 = true → ClearAbove flags .word)) :=
  ⟨popfRestores_iff mode flags rsp hIJ hsize, sahfRestores_iff flags, sahfLocal_iff flags,
    popfLocal_iff mode flags hK⟩

/-- `pushf` and `popf` at an operand size, without an address-size prefix in 64-bit mode. -/
def flagInsn (c : General) (opsize : Size) : Insn where
  command := .general c
  operands := []
  iPrefix := .none
  opsize := opsize
  addressSize := .qword
  rexW := false
  fullCmdSize := 1
  signExtends := false
  pushSeg := false
  lockable := false
  isEvex := false

/-- The flags a processor starts with, and the carry. -/
theorem flags_restored_default : Settled 0x200203 ∧
    PopfRestores ⟨true, .qword, .qword⟩ 0x200203 0x1000 (flagInsn .pushf .qword)
    (flagInsn .popf .qword) ∧ PopfLocal ⟨true, .qword, .qword⟩ 0x200203 (flagInsn .popf .word) := by
  have hsettled : Settled 0x200203 := (resetDefaultFlags_eq_self_iff _).1 (by decide)
  have hclear : ClearAbove 0x200203 .word := by
    intro i hi hnone
    by_cases h : i < 64
    · change 16 ≤ i at hi
      interval_cases i <;> first | rfl | cases hnone
    · exact BitVec.getLsbD_of_ge _ i (by omega)
  obtain ⟨hpopf, -, -, hlocal⟩ := flags_restored_iff ⟨true, .qword, .qword⟩ 0x200203 0x1000
    (I := flagInsn .pushf .qword) (J := flagInsn .popf .qword) (K := flagInsn .popf .word)
    rfl nofun rfl
  refine ⟨hsettled, hpopf.2 (.inr ⟨by decide, hsettled, fun _ i hi _ => ?_⟩),
    hlocal.2 ⟨rfl, fun _ => hclear⟩⟩
  exact BitVec.getLsbD_of_ge _ i hi

/-- After `cli`, the flags that `pushf` saves come back with interrupts turned on. -/
theorem popf_enables_interrupts : ∃ s t u v : Proc (Value → Byte),
    s = flagState ⟨true, .qword, .qword⟩ (Proc.resetDefaultFlags 0) 0x1000 (fun _ => 0) ∧
    callCli s = .ok () t ∧ callPushf flatStream (flagInsn .pushf .qword) t = .ok () u ∧
    callPopf flatStream (flagInsn .popf .qword) u = .ok () v ∧
    queryFlag t.flags flagIF = false ∧ queryFlag v.flags flagIF = true := by
  have hlt : ¬ (0x1000 : Value) < (flagInsn .pushf .qword).opBytes := by decide
  obtain ⟨u, hpush, -⟩ := pushf_flat ⟨true, .qword, .qword⟩
    (clearFlag (Proc.resetDefaultFlags 0) flagIF) (fun _ => 0) hlt
  have hmode := flagState_mode ⟨true, .qword, .qword⟩ (clearFlag (Proc.resetDefaultFlags 0) flagIF)
      0x1000 fun _ => 0
  obtain ⟨v, hpop, hv⟩ := popf_of_pushf (J := flagInsn .popf .qword) flatStream_readsBack
      (flagState_idle _ _ _ _) rfl
    (by rw [hmode]; nofun) (by rw [flagState_rsp]; decide) hpush
  refine ⟨_, _, u, v, rfl, rfl, hpush, hpop, by decide, ?_⟩
  rw [hv, hmode]
  decide

end Diana.Processor
