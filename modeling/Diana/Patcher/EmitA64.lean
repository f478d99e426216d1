import Diana.Patcher.MoveA64

/-!
# Emitted code in the buffer and in memory

* `EmitsSat`: what a successful emission appended to the work buffer, with the rules for the
  sequencing of emissions;
* `read32_of_codeAt`, `read64_of_codeAt`: emitted words read back;
* `step_next`, `step_jump`, `step_call`, `step_trap`: the machine at an emitted word, and
  `sameEffect_single` for code of one word.
-/

namespace Diana.Patcher

open Diana.A64 StateTransition

/-! ## What an emission appends -/

/-- A successful run of `e` appends bytes with the property `P`. -/
def EmitsSat {α : Type} (e : Emit α) (P : List Byte → Prop) : Prop :=
  ∀ m a m', e m = (.ok a, m') → ∃ bs, m'.workBufferRaw = m.workBufferRaw ++ bs ∧ P bs

section Emission

variable {α β : Type}

theorem emitsSat_pure {a : α} {P : List Byte → Prop} (h : P []) : EmitsSat (pure a) P := by
  intro m b m' he
  cases he
  exact ⟨[], by simp, h⟩

theorem emitsSat_throw {c : Status} {P : List Byte → Prop} :
    EmitsSat (throw c : Emit α) P := by
  intro m b m' he
  cases he

theorem emitsSat_throw_bind {c : Status} {f : β → Emit α} {P : List Byte → Prop} :
    EmitsSat ((throw c : Emit β) >>= f) P := by
  intro m b m' he
  cases he

/-- A result computed outside the message. -/
theorem emitsSat_decode {r : Except Status α} {f : α → Emit β} {P : List Byte → Prop}
    (h : ∀ a, r = .ok a → EmitsSat (f a) P) : EmitsSat (ExceptT.mk (pure r) >>= f) P := by
  cases r with
  | error c =>
    intro m b m' he
    cases he
  | ok a => exact h a rfl

theorem emitsSat_bind {e : Emit α} {f : α → Emit β} {P Q : List Byte → Prop}
    (he : EmitsSat e P) (hf : ∀ a bs, P bs → EmitsSat (f a) fun cs => Q (bs ++ cs)) :
    EmitsSat (e >>= f) Q := by
  intro m b m' h
  rcases hem : e m with ⟨_ | a, m₁⟩
  · have : (e >>= f) m = (.error ‹_›, m₁) := by
      simp [bind, ExceptT.bind, ExceptT.mk, StateT.bind, hem, ExceptT.bindCont]
      rfl
    rw [this] at h
    cases h
  · have hfm : f a m₁ = (.ok b, m') := by
      rw [← h]
      simp [bind, ExceptT.bind, ExceptT.mk, StateT.bind, hem, ExceptT.bindCont]
    obtain ⟨bs, hbs, hP⟩ := he m a m₁ hem
    obtain ⟨cs, hcs, hQ⟩ := hf a bs hP m₁ b m' hfm
    exact ⟨bs ++ cs, by rw [hcs, hbs, List.append_assoc], hQ⟩

theorem emitsSat_ite {c : Prop} [Decidable c] {e f : Emit α} {P : List Byte → Prop}
    (he : c → EmitsSat e P) (hf : ¬ c → EmitsSat f P) : EmitsSat (if c then e else f) P := by
  split
  · next h => exact he h
  · next h => exact hf h

theorem emitsSat_allocateCmd (bytes : List Byte) :
    EmitsSat (allocateCmd bytes) (· = bytes) := by
  intro m a m' h
  unfold allocateCmd at h
  split at h
  · cases h
  · split at h
    · cases h
    · cases h
      exact ⟨bytes, rfl, rfl⟩

/-- Emitting bytes, then the rest. -/
theorem emitsSat_allocateCmd_bind {bytes : List Byte} {f : Unit → Emit β} {Q : List Byte → Prop}
    (hf : EmitsSat (f ()) fun cs => Q (bytes ++ cs)) : EmitsSat (allocateCmd bytes >>= f) Q := by
  refine emitsSat_bind (emitsSat_allocateCmd bytes) ?_
  rintro _ bs rfl
  exact hf

end Emission

/-! ## Words in memory -/

theorem putWord_length (w : Word) : (putWord w).length = 4 := rfl

theorem putWord_append (w : Word) :
    (w >>> 24).setWidth 8 ++ (w >>> 16).setWidth 8 ++ (w >>> 8).setWidth 8 ++ w.setWidth 8 = w := by
  apply BitVec.eq_of_getLsbD_eq
  intro i hi
  simp only [BitVec.getLsbD_append, BitVec.getLsbD_setWidth, BitVec.getLsbD_ushiftRight]
  split
  · next h => simp [h]
  · split
    · next h1 h2 => simp [h2, show 8 + (i - 8) = i by omega]
    · split
      · next h1 h2 h3 => simp [h3, show 16 + (i - 8 - 8) = i by omega]
      · next h1 h2 h3 =>
        simp [show i - 8 - 8 - 8 < 8 by omega, show 24 + (i - 8 - 8 - 8) = i by omega]

theorem read32_of_codeAt {m : Addr → Option Byte} {a : Addr} {w : Word}
    (h : CodeAt m a (putWord w)) : read32 m a = some w := by
  have h0 : m a = some (w.setWidth 8) := by simpa [putWord] using h 0 (by simp [putWord])
  have h1 : m (a + 1) = some ((w >>> 8).setWidth 8) := h 1 (by simp [putWord])
  have h2 : m (a + 2) = some ((w >>> 16).setWidth 8) := h 2 (by simp [putWord])
  have h3 : m (a + 3) = some ((w >>> 24).setWidth 8) := h 3 (by simp [putWord])
  unfold read32
  rw [h0, h1, h2, h3]
  exact congrArg some (putWord_append w)

theorem read64_of_codeAt {m : Addr → Option Byte} {a : Addr} {q : BitVec 64}
    (h : CodeAt m a (putQword q)) : read64 m a = some q := by
  obtain ⟨hlo, hhi⟩ := codeAt_append.mp h
  have hcat : (q >>> 32).setWidth 32 ++ q.setWidth 32 = q := by
    apply BitVec.eq_of_getLsbD_eq
    intro i hi
    simp only [BitVec.getLsbD_append, BitVec.getLsbD_setWidth, BitVec.getLsbD_ushiftRight]
    split
    · next hlt => simp [hlt]
    · next hlt => simp [show i - 32 < 32 by omega, show 32 + (i - 32) = i by omega]
  unfold read64
  rw [read32_of_codeAt hlo, read32_of_codeAt (a := a + 4) hhi]
  exact congrArg some hcat

section Machine

variable {ρ : Type} {A : Arch ρ}

/-- The machine at an emitted word. -/
theorem step_of_codeAt {pc : Addr} {s : State ρ} {w : Word} (h : CodeAt s.mem pc (putWord w)) :
    step A (pc, s) = (effect A w pc s).goOn pc := by
  have hr : read32 (pc, s).2.mem (pc, s).1 = some w := read32_of_codeAt h
  rw [step, hr, Option.bind_some]

theorem step_next {pc : Addr} {s s' : State ρ} {w : Word} (h : CodeAt s.mem pc (putWord w))
    (he : effect A w pc s = .next s') : (pc + 4, s') ∈ step A (pc, s) := by
  rw [step_of_codeAt h, he]
  rfl

theorem step_jump {pc a : Addr} {s s' : State ρ} {w : Word} (h : CodeAt s.mem pc (putWord w))
    (he : effect A w pc s = .jump a s') : (a, s') ∈ step A (pc, s) := by
  rw [step_of_codeAt h, he]
  rfl

theorem step_call {pc a : Addr} {s s' : State ρ} {w : Word} (h : CodeAt s.mem pc (putWord w))
    (he : effect A w pc s = .call a s') : (a, s'.setX 30 (pc + 4)) ∈ step A (pc, s) := by
  rw [step_of_codeAt h, he]
  rfl

theorem step_trap {pc : Addr} {s : State ρ} {w : Word} (h : CodeAt s.mem pc (putWord w))
    (he : effect A w pc s = .trap) : step A (pc, s) = none := by
  rw [step_of_codeAt h, he]
  rfl

/-- A one-word replacement: the word at `dst` does what the old word does at `src`. -/
theorem sameEffect_single {w w' : Word} {src dst : Addr}
    (h : ∀ s, effect A w' dst s = effect A w src s) : SameEffect A w src dst (putWord w') := by
  intro s hcode
  have he := h s
  cases hw : effect A w src s with
  | next s' =>
    rw [hw] at he
    exact ⟨s', .single (step_next hcode he), Agree.refl w s'⟩
  | jump a s' =>
    rw [hw] at he
    exact ⟨s', .single (step_jump hcode he), Agree.refl w s'⟩
  | call a s' =>
    rw [hw] at he
    refine ⟨s'.setX 30 (dst + 4), .single (step_call hcode he), ?_, fun u _ => ?_⟩
    · rw [State.setX_same (by decide)]
      exact Agree.refl w _
    · rw [State.setX_same (by decide)]
      exact .refl
  | trap =>
    rw [hw] at he
    exact ⟨(dst, s), .refl, step_trap hcode he⟩

end Machine

end Diana.Patcher
