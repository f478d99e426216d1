import Diana.Processor.ExecOnce
import Diana.Processor.OtherCommands

/-!
# Between two commands

The state `DianaProcessor_ExecOnce` starts from and leaves. No request for PF, SF and ZF is pending,
and the fetch position, which is kept beside RIP as the address of the stream and the bytes in the
cache of the decoder, is that of RIP. The second one does not hold behind an error before the
command, nor where a fire point moves RIP.

* `call_idle_of_steps`: no command leaves a request behind;
* `execOnce_fetched`: one call keeps the fetch position, when it is `Clear`;
* `atRip_of_allClear`: any calls.
-/

namespace Diana.Processor

open Diana.Lib

variable {μ : Type}

/-! ## The request for flags -/

/-- What a command does to the request for PF, SF and ZF: where it is left behind, it is
marked for removal. -/
def Marks (s t : Proc μ) : Prop :=
  (s.stateFlagsToRemove.updateFlagsPsz = true → t.stateFlagsToRemove.updateFlagsPsz = true) ∧
    (t.stateFlags.updateFlagsPsz = true →
      s.stateFlags.updateFlagsPsz = true ∨ t.stateFlagsToRemove.updateFlagsPsz = true)

instance : Std.Refl (@Marks μ) := ⟨fun _ => ⟨id, .inl⟩⟩

instance : IsTrans (Proc μ) Marks where
  trans s t u h h' := by
    refine ⟨fun hs => h'.1 (h.1 hs), fun hu => ?_⟩
    rcases h'.2 hu with ht | hu
    · exact (h.2 ht).imp_right h'.1
    · exact .inr hu

theorem marks_step {s t : Proc μ} (h : Step s t) : Marks s t := by
  cases h with
  | register r v size =>
    unfold Marks Proc.setValueEx Proc.updatePsz Proc.setCell
    dsimp only
    split_ifs <;> exact ⟨id, .inl⟩
  | request => exact ⟨fun _ => rfl, fun _ => .inr rfl⟩
  | answer => exact ⟨id, fun h => absurd h Bool.false_ne_true⟩
  | _ => exact ⟨id, .inl⟩

theorem atExit_post {f : Proc μ → Proc μ} {x : Exec μ Unit} {s : Proc μ} {P Q : Proc μ → Prop}
    (hx : Post x s (fun _ t => P t) fun _ t => P t) (h : ∀ t, P t → Q (f t)) :
    Post (atExit f x) s (fun _ t => Q t) fun _ t => Q t := by
  unfold Post at hx ⊢
  unfold atExit
  cases hr : x s with
  | ok a t =>
    rw [hr] at hx
    exact h t hx
  | error e t =>
    rw [hr] at hx
    exact h t hx

/-- `Call` leaves an idle state behind a command that marks its request. -/
theorem call_idle {x : Exec μ Unit} (hx : Keeps Marks x) {s : Proc μ} (hs : s.Idle) :
    Post (call x) s (fun _ t => t.Idle) (fun _ t => t.Idle) := by
  refine atExit_post (hx s) fun t ht => ?_
  change (t.stateFlags.updateFlagsPsz && !t.stateFlagsToRemove.updateFlagsPsz) = false
  cases hp : t.stateFlags.updateFlagsPsz with
  | false => rfl
  | true =>
    rcases ht.2 hp with h | h
    · rw [hs] at h
      cases h
    · rw [h]
      rfl

/-- No command that is made of steps leaves a request behind. -/
theorem call_idle_of_steps {x : Exec μ Unit} (hx : Keeps Steps x) {s : Proc μ} (hs : s.Idle) :
    Post (call x) s (fun _ t => t.Idle) (fun _ t => t.Idle) :=
  call_idle (keeps_of_steps (fun _ _ => marks_step) hx) hs

/-! ## The fetch position under a command -/

/-- `Call` is not to remove the flag of the fetch position. -/
def Proc.NoRemoval (s : Proc μ) : Prop := s.stateFlagsToRemove.tempRipIsValid = false

/-- The fetch position stays as it is, or it is given up with `DianaProcessor_ClearCache`. -/
structure PositionKept (s t : Proc μ) : Prop where
  noRemoval : t.NoRemoval
  position :
    (t.stateFlags.tempRipIsValid = s.stateFlags.tempRipIsValid ∧ t.tempRIP = s.tempRIP ∧
      t.lookahead = s.lookahead) ∨ (t.stateFlags.tempRipIsValid = false ∧ t.lookahead = [])

/-- What a command does to the fetch position. -/
def FetchKept (s t : Proc μ) : Prop := s.NoRemoval → PositionKept s t

/-- A change that leaves the fetch position. -/
theorem fetchKept_of_eq {s t : Proc μ}
    (hremove : t.stateFlagsToRemove.tempRipIsValid = s.stateFlagsToRemove.tempRipIsValid)
    (hvalid : t.stateFlags.tempRipIsValid = s.stateFlags.tempRipIsValid)
    (hposition : t.tempRIP = s.tempRIP) (hlook : t.lookahead = s.lookahead) :
    FetchKept s t := fun hs =>
  ⟨hremove.trans hs, .inl ⟨hvalid, hposition, hlook⟩⟩

instance : Std.Refl (@FetchKept μ) := ⟨fun _ => fetchKept_of_eq rfl rfl rfl rfl⟩

instance : IsTrans (Proc μ) FetchKept where
  trans s t u hst htu hs := by
    have h := hst hs
    have h' := htu h.noRemoval
    refine ⟨h'.noRemoval, ?_⟩
    rcases h'.position with ⟨hv, hp, hl⟩ | hgone
    · rcases h.position with ⟨hv', hp', hl'⟩ | ⟨hv', hl'⟩
      · exact .inl ⟨hv.trans hv', hp.trans hp', hl.trans hl'⟩
      · exact .inr ⟨hv.trans hv', hl.trans hl'⟩
    · exact .inr hgone

theorem setValueEx_tempRipIsValid (s : Proc μ) (regId : Option Register) (r : Register) (v : Value)
    (size : Size) :
    (s.setValueEx regId r v size).stateFlags.tempRipIsValid = s.stateFlags.tempRipIsValid := by
  unfold Proc.setValueEx Proc.updatePsz Proc.setCell
  dsimp only
  split_ifs <;> rfl

theorem fetchKept_setValueEx (s : Proc μ) (regId : Option Register) (r : Register) (v : Value)
    (size : Size) : FetchKept s (s.setValueEx regId r v size) := by
  have hrest := Proc.sameRest_setValueEx s regId r v size
  exact fetchKept_of_eq (congrArg _ hrest.toRemove) (setValueEx_tempRipIsValid s _ _ _ _)
    hrest.tempRIP hrest.lookahead

theorem fetchKept_step {s t : Proc μ} (h : Step s t) : FetchKept s t := by
  cases h with
  | register r v size => exact fetchKept_setValueEx s _ r v size
  | _ => exact fetchKept_of_eq rfl rfl rfl rfl

theorem fetchKept_of_steps {x : Exec μ Unit} (hx : Keeps Steps x) : Keeps FetchKept x :=
  keeps_of_steps (fun _ _ => fetchKept_step) hx

/-! ## A command under its prefix -/

theorem atExit_keeps {R : Proc μ → Proc μ → Prop} [IsTrans (Proc μ) R] {f : Proc μ → Proc μ}
    {x : Exec μ Unit} (hx : Keeps R x) (hf : ∀ s, R s (f s)) : Keeps R (atExit f x) :=
  fun s => atExit_post (hx s) fun t ht => trans_of R ht (hf t)

theorem fetchKept_removeFlags (s : Proc μ) : FetchKept s s.removeFlags := fun hs => by
  refine ⟨rfl, .inl ⟨?_, rfl, rfl⟩⟩
  change (s.stateFlags.tempRipIsValid && !s.stateFlagsToRemove.tempRipIsValid) = _
  rw [hs]
  exact Bool.and_true _

theorem call_fetchKept {x : Exec μ Unit} (hx : Keeps FetchKept x) : Keeps FetchKept (call x) :=
  atExit_keeps hx fetchKept_removeFlags

theorem repLoop_fetchKept {x : Exec μ Unit} (hx : Keeps FetchKept x) (repn : Bool)
    (usedReg : Register) (fuel : Nat) : Keeps FetchKept (repLoop x repn usedReg fuel) := by
  induction fuel with
  | zero => exact Keeps.throw _
  | succ fuel ih =>
    unfold repLoop
    refine Keeps.get.bind fun s => Keeps.ite (Keeps.pure _) ?_
    refine (call_fetchKept hx).bind fun _ => Keeps.get.bind fun s => Keeps.ite (Keeps.pure _) ?_
    refine Keeps.bind (Keeps.modify fun s => fetchKept_setValueEx s _ _ _ _) fun _ =>
      Keeps.get.bind fun s => ?_
    exact Keeps.ite (Keeps.ite (Keeps.pure _) ih) (Keeps.ite (Keeps.pure _) ih)

theorem callPrefixed_fetchKept {x : Exec μ Unit} (hx : Keeps FetchKept x) (fuel : Nat) (I : Insn) :
    Keeps FetchKept (callPrefixed fuel I x) := by
  have hrep : ∀ repn, Keeps FetchKept (callWithRep fuel I x repn) := by
    intro repn
    unfold callWithRep
    refine Keeps.ite ?_ (call_fetchKept hx)
    split
    · exact Keeps.throw _
    · exact repLoop_fetchKept hx repn _ fuel
  unfold callPrefixed
  split
  · exact hrep false
  · exact hrep true
  · exact Keeps.ite (call_fetchKept hx) (Keeps.throw _)
  · exact call_fetchKept hx

theorem fetchKept_mmxTransition (s : Proc μ) (I : Insn) : FetchKept s (s.mmxTransition I) := by
  unfold Proc.mmxTransition Proc.setExponent
  split
  · split
    · split <;> exact fetchKept_of_eq rfl rfl rfl rfl
    · exact fetchKept_of_eq rfl rfl rfl rfl
  · exact refl_of FetchKept s

theorem fetchKept_clearNormalRep (s : Proc μ) : FetchKept s (Env.clearNormalRep s) :=
  fetchKept_of_eq rfl rfl rfl rfl

/-! ## The fetch position and RIP -/

section

variable (code : Value → Byte)

/-- What the decoder is given next is the code at `rip`. -/
structure Proc.Ahead (s : Proc μ) (rip : Value) : Prop where
  tempRIP : s.tempRIP = rip + BitVec.ofNat 64 s.lookahead.length
  lookahead : ∀ i (h : i < s.lookahead.length), s.lookahead[i] = code (rip + BitVec.ofNat 64 i)

/-- The fetch position, when it is valid, is that of RIP. -/
structure Proc.Fetched (s : Proc μ) : Prop where
  noRemoval : s.NoRemoval
  ahead : s.stateFlags.tempRipIsValid = true → s.Ahead code (s.getValue .rip)
  empty : s.stateFlags.tempRipIsValid = false → s.lookahead = []

/-- What is read through CS is the code. -/
def Proc.Reads (S : MemoryStream μ) (s : Proc μ) : Prop :=
  ∀ offset size bs, S.read s.mem (s.getValue (.seg .cs)) offset size .cs = .ok bs →
    ∀ i (h : i < bs.length), bs[i] = code (offset + BitVec.ofNat 64 i)

end

section

variable {code : Value → Byte} {S : MemoryStream μ} {s t : Proc μ} {rip : Value}

/-- Behind `k` bytes of what is ahead. -/
theorem Proc.Ahead.drop {bytes : List Byte} (hs : s.Ahead code rip)
    (hbytes : ∀ i (h : i < bytes.length), bytes[i] = code (s.tempRIP + BitVec.ofNat 64 i))
    (hposition : t.tempRIP = s.tempRIP + BitVec.ofNat 64 bytes.length) {k : Nat}
    (hk : k ≤ (s.lookahead ++ bytes).length) (hlook : t.lookahead = (s.lookahead ++ bytes).drop k) :
    t.Ahead code (rip + BitVec.ofNat 64 k) := by
  have hall : ∀ i (h : i < (s.lookahead ++ bytes).length),
      (s.lookahead ++ bytes)[i] = code (rip + BitVec.ofNat 64 i) := by
    intro i h
    rw [List.getElem_append]
    split
    · exact hs.lookahead i ‹_›
    · rw [hbytes, hs.tempRIP, BitVec.add_assoc, ← BitVec.ofNat_add, Nat.add_sub_cancel' (by omega)]
  refine ⟨?_, fun i h => ?_⟩
  · rw [hposition, hs.tempRIP, hlook, List.length_drop, BitVec.add_assoc, BitVec.add_assoc,
      ← BitVec.ofNat_add, ← BitVec.ofNat_add, ← List.length_append, Nat.add_sub_cancel' hk]
  · have hi : k + i < (s.lookahead ++ bytes).length := by
      rw [hlook, List.length_drop] at h
      omega
    rw [BitVec.add_assoc, ← BitVec.ofNat_add, ← hall (k + i) hi]
    simp only [hlook, List.getElem_drop]

namespace Decoding

variable {d : Decoding} {result : Except Status Insn} {bytes : List Byte}

/-- A read and the run behind it. -/
theorem run_read {size : Nat} {next : Except Status (List Byte) → Decoding}
    (h : (read size next).run S s = (result, bytes, t)) :
    (∃ e, (next (.error e)).run S s = (result, bytes, t)) ∨
      ∃ bs rest, S.read s.mem (s.getValue (.seg .cs)) s.tempRIP size .cs = .ok bs ∧
      bytes = bs ++ rest ∧
        (next (.ok bs)).run S { s with tempRIP := s.tempRIP + BitVec.ofNat 64 bs.length } =
        (result, rest, t) := by
  unfold run at h
  cases hr : S.read s.mem (s.getValue (.seg .cs)) s.tempRIP size .cs with
  | error e =>
    rw [hr] at h
    exact .inl ⟨e, h⟩
  | ok bs =>
    rw [hr] at h
    cases h
    exact .inr ⟨bs, _, rfl, rfl, rfl⟩

/-- What a run of the decoder reads is the code from its position on; only the position and the
cache change. -/
theorem run_reads (hs : s.Reads code S) (h : d.run S s = (result, bytes, t)) :
    (∀ i (h : i < bytes.length), bytes[i] = code (s.tempRIP + BitVec.ofNat 64 i)) ∧
      t =
      { s with tempRIP := s.tempRIP + BitVec.ofNat 64 bytes.length, lookahead := t.lookahead } := by
  induction d generalizing s bytes with
  | done result cache =>
    cases h
    exact ⟨fun i h => absurd h (Nat.not_lt_zero i), by simp⟩
  | read size next ih =>
    rcases run_read h with ⟨e, hrun⟩ | ⟨bs, rest, hread, rfl, hrun⟩
    · exact ih (.error e) hs hrun
    · have hs' : Proc.Reads code S { s with tempRIP := s.tempRIP + BitVec.ofNat 64 bs.length } := hs
      obtain ⟨hrest, hstate⟩ := ih (.ok bs) hs' hrun
      refine ⟨fun i h => ?_, ?_⟩
      · rw [List.getElem_append]
        split
        · exact hs _ _ _ hread i ‹_›
        · rw [hrest, BitVec.add_assoc, ← BitVec.ofNat_add, Nat.add_sub_cancel' (by omega)]
      · rw [List.length_append, BitVec.ofNat_add, ← BitVec.add_assoc]
        exact hstate

/-- Where it succeeds, it leaves the end of what it was given. -/
theorem run_leaves {given : List Byte} (hd : d.Leaves given) {I : Insn}
    (h : d.run S s = (.ok I, bytes, t)) : t.lookahead <:+ given ++ bytes := by
  induction d generalizing s bytes given with
  | done result cache =>
    cases h
    rw [List.append_nil]
    exact hd
  | read size next ih =>
    rcases run_read h with ⟨e, hrun⟩ | ⟨bs, rest, -, rfl, hrun⟩
    · exact ih (.error e) (hd.2 e) hrun
    · rw [← List.append_assoc]
      exact ih (.ok bs) (hd.1 bs) hrun

end Decoding

/-- An instruction that is decoded is the code at `rip`, and what is ahead then is the code behind
it. -/
theorem parseCmd_ahead {decoder : List Byte → Decoding}
    (hd : (decoder s.lookahead).Leaves s.lookahead) (hs : s.Ahead code rip)
    (hreads : s.Reads code S) {result : ParserResult} (h : parseCmd S decoder s = .ok result t) :
    (result.bytes.length = result.insn.fullCmdSize ∧
        ∀ i (h : i < result.bytes.length), result.bytes[i] = code (rip + BitVec.ofNat 64 i)) ∧
      t.Ahead code (rip + BitVec.ofNat 64 result.insn.fullCmdSize) ∧
      t = { s with tempRIP := t.tempRIP, lookahead := t.lookahead } := by
  unfold parseCmd at h
  rcases hrun : (decoder s.lookahead).run S s with ⟨r, bytes, u⟩
  rw [hrun] at h
  cases r with
  | error e => cases h
  | ok I =>
    dsimp only at h
    split at h
    · cases h
    · cases h
      obtain ⟨hbytes, hstate⟩ := Decoding.run_reads hreads hrun
      have hsuffix := Decoding.run_leaves hd hrun
      have hlen : s.lookahead.length + bytes.length - t.lookahead.length ≤
          (s.lookahead ++ bytes).length := by
        rw [List.length_append]
        omega
      have hahead := hs.drop hbytes (k := 0) (t := { s with
        tempRIP := s.tempRIP + BitVec.ofNat 64 bytes.length, lookahead := s.lookahead ++ bytes })
          rfl
        (Nat.zero_le _) rfl
      rw [BitVec.add_zero] at hahead
      refine ⟨⟨List.length_take_of_le hlen, fun i h => ?_⟩, ?_, ?_⟩
      · rw [List.getElem_take]
        exact hahead.lookahead i (h.trans_le (List.length_take_le' _ _))
      · refine hs.drop hbytes (by rw [hstate]) hlen ?_
        have htail := List.suffix_iff_eq_drop.1 hsuffix
        rwa [List.length_append] at htail
      · rw [hstate]

end

/-! ## One call -/

namespace Env

variable (E : Env μ)

/-- What is set up by others, and the handlers outside the general-purpose set, do with the fetch
position what a command does. -/
structure Regular : Prop where
  fires : ∀ p ∈ E.firePoints, ∀ s, FetchKept s (p.2 s)
  others : ∀ I x, E.others I = some x → Keeps FetchKept x
  provider : ∀ I, Keeps FetchKept (E.queryCustom I)
  custom : ∀ I x s t, E.queryCustom I s = .ok (some x) t → Keeps FetchKept x

/-- The state the decoder starts from. -/
def start (s : Proc μ) : Proc μ := startFetch (E.fire (s.getValue .rip) s)

/-- The decoder fails and leaves all the bytes it was given to the next call. -/
def TakesNothing (s : Proc μ) : Prop :=
  ∃ e bytes t, (E.decoder s.lookahead).run E.stream s = (.error e, bytes, t) ∧
    t.lookahead = s.lookahead ++ bytes

/-- The fire points leave RIP, or give the fetch position up; and the bytes decode to an instruction
that has a command, or the decoder takes none of them. -/
structure Clear (s : Proc μ) : Prop where
  fires : (E.fire (s.getValue .rip) s).stateFlags.tempRipIsValid = true →
    (E.fire (s.getValue .rip) s).getValue .rip = s.getValue .rip
  command : (∃ result t command u, parseCmd E.stream E.decoder (E.start s) = .ok result t ∧
    E.queryCommand result.insn t = .ok command u) ∨ E.TakesNothing (E.start s)

/-- The decoder is given the bytes at RIP, and the instruction it finds is made of them. -/
structure DecodesAtRip (code : Value → Byte) (s : Proc μ) : Prop where
  ahead : (E.start s).Ahead code ((E.start s).getValue .rip)
  bytes : ∀ result t, parseCmd E.stream E.decoder (E.start s) = .ok result t →
    result.bytes = (List.range result.insn.fullCmdSize).map fun i =>
      code ((E.start s).getValue .rip + BitVec.ofNat 64 i)

variable {E} {code : Value → Byte} {s t : Proc μ} {rip : Value} {I : Insn}

theorem fire_fetchKept (hE : E.Regular) (rip : Value) (s : Proc μ) :
    FetchKept s (E.fire rip s) := by
  have hall : ∀ l : List (Value × (Proc μ → Proc μ)), (∀ p ∈ l, ∀ s, FetchKept s (p.2 s)) → ∀ s,
      FetchKept s (l.foldl (fun s p => if p.1 = rip then p.2 s else s) s) := by
    intro l hl
    induction l with
    | nil => exact refl_of FetchKept
    | cons p l ih =>
      intro s
      refine trans_of FetchKept ?_ (ih (fun q hq => hl q (List.mem_cons_of_mem _ hq)) _)
      dsimp only
      split
      · exact hl p List.mem_cons_self s
      · exact refl_of FetchKept s
  exact hall E.firePoints hE.fires s

theorem startFetch_rip (s : Proc μ) : (startFetch s).getValue .rip = s.getValue .rip := by
  unfold startFetch
  cases s.stateFlags.tempRipIsValid <;> rfl

/-- The decoder starts at RIP. -/
theorem start_ahead (hE : E.Regular) (hs : s.Fetched code)
    (hfires : (E.fire (s.getValue .rip) s).stateFlags.tempRipIsValid = true →
      (E.fire (s.getValue .rip) s).getValue .rip = s.getValue .rip) :
    (E.start s).Ahead code ((E.start s).getValue .rip) ∧ (E.start s).NoRemoval := by
  have hkept := fire_fetchKept hE (s.getValue .rip) s hs.noRemoval
  unfold start
  rw [startFetch_rip]
  generalize E.fire (s.getValue .rip) s = u at hkept hfires
  unfold startFetch
  cases hvalid : u.stateFlags.tempRipIsValid with
  | true =>
    refine ⟨?_, hkept.noRemoval⟩
    rcases hkept.position with ⟨hv, hp, hl⟩ | ⟨hv, -⟩
    · have hahead := hs.ahead (hv ▸ hvalid)
      rw [hfires hvalid]
      exact ⟨by simp [hp, hl, hahead.tempRIP], by simpa [hl] using hahead.lookahead⟩
    · rw [hvalid] at hv
      cases hv
  | false =>
    have hempty : u.lookahead = [] := by
      rcases hkept.position with ⟨hv, -, hl⟩ | ⟨-, hl⟩
      · rw [hl, hs.empty (hv ▸ hvalid)]
      · exact hl
    exact ⟨⟨by simp [hempty], by simp [hempty]⟩, hkept.noRemoval⟩

theorem handler_fetchKept (hE : E.Regular) {x : Exec μ Unit} (h : E.handler I = some x) :
    Keeps FetchKept x := by
  unfold handler at h
  split at h
  · exact hE.others I x h
  · split at h
    · cases h
      exact fetchKept_of_steps (callGeneral_steps E.stream I _)
    · exact hE.others I x h

/-- The handlers that are modelled do what `Regular` says of those outside the
general-purpose set. -/
theorem others_fetchKept {find : Insn → Option OtherCommand}
    (h : ∀ I, E.others I = (find I).map (OtherCommand.call E.stream I)) (I : Insn) (x : Exec μ Unit)
    (hx : E.others I = some x) : Keeps FetchKept x := by
  rw [h I] at hx
  obtain ⟨c, -, rfl⟩ := Option.map_eq_some_iff.1 hx
  exact fetchKept_of_steps (otherCommand_steps E.stream I c)

theorem queryCommand_fetchKept (hE : E.Regular) (I : Insn) :
    Keeps FetchKept (E.queryCommand I) := by
  unfold queryCommand
  refine (hE.provider I).bind fun custom => ?_
  split
  · exact Keeps.pure _
  · exact Keeps.throw _

/-- The command that was found keeps the fetch position. -/
theorem queryCommand_ok (hE : E.Regular) {x : Exec μ Unit} (h : E.queryCommand I s = .ok x t) :
    Keeps FetchKept x := by
  unfold queryCommand at h
  cases hrun : E.queryCustom I s with
  | error e u =>
    rw [bind_of_error hrun] at h
    cases h
  | ok custom u =>
    rw [bind_of_ok hrun] at h
    cases custom with
    | some y =>
      cases h
      exact hE.custom I _ _ _ hrun
    | none =>
      cases hh : E.handler I with
      | none =>
        rw [hh] at h
        cases h
      | some y =>
        rw [hh] at h
        cases h
        exact handler_fetchKept hE hh

theorem fetched_resync (h : s.NoRemoval) : (resync s).Fetched code := ⟨h, nofun, fun _ => rfl⟩

/-- RIP goes where the fetch position is already. -/
theorem fetched_advance {u : Proc μ} {v : Value} (hkept : PositionKept s u)
    (hahead : s.stateFlags.tempRipIsValid = true → s.Ahead code v)
    (hempty : s.stateFlags.tempRipIsValid = false → s.lookahead = []) :
    (u.setValueEx none .rip v .qword).Fetched code := by
  have hrest := Proc.sameRest_setValueEx u none .rip v .qword
  have hvalid := setValueEx_tempRipIsValid u none .rip v .qword
  have hrip : (u.setValueEx none .rip v .qword).getValue .rip = v :=
    (getValue_rip_setValueEx _ _ _ _ rfl).trans (setField_all _ _)
  refine ⟨?_, fun hv => ?_, fun hv => ?_⟩
  · unfold Proc.NoRemoval
    rw [hrest.toRemove]
    exact hkept.noRemoval
  · rw [hvalid] at hv
    rw [hrip]
    rcases hkept.position with ⟨hv', hp, hl⟩ | ⟨hv', -⟩
    · have h := hahead (hv' ▸ hv)
      refine ⟨?_, fun i hi => ?_⟩
      · rw [hrest.tempRIP, hrest.lookahead, hp, hl, h.tempRIP]
      · simp only [hrest.lookahead, hl] at hi ⊢
        exact h.lookahead i hi
    · rw [hv'] at hv
      cases hv
  · rw [hvalid] at hv
    rw [hrest.lookahead]
    rcases hkept.position with ⟨hv', -, hl⟩ | ⟨-, hl⟩
    · rw [hl, hempty (hv' ▸ hv)]
    · exact hl

/-- A command leaves the fetch position behind its instruction, as RIP is then, or not valid. -/
theorem runCommand_fetched {x : Exec μ Unit} (hx : Keeps FetchKept x) (hs : s.NoRemoval)
    (hahead : s.stateFlags.tempRipIsValid = true →
      s.Ahead code (rip + BitVec.ofNat 64 I.fullCmdSize))
    (hempty : s.stateFlags.tempRipIsValid = false → s.lookahead = []) (fuel : Nat) :
    (after (runCommand fuel rip I x) s).Fetched code := by
  have hkept := callPrefixed_fetchKept hx fuel I s
  unfold Post at hkept
  unfold after runCommand
  cases hrun : callPrefixed fuel I x s with
  | error e t =>
    rw [hrun] at hkept
    exact fetched_resync (trans_of FetchKept hkept (fetchKept_clearNormalRep t) hs).noRemoval
  | ok a t =>
    rw [hrun] at hkept
    have hmmx := trans_of FetchKept hkept (fetchKept_mmxTransition t I)
    have hend := trans_of FetchKept hmmx (fetchKept_clearNormalRep _) hs
    dsimp only
    split
    · exact fetched_resync hend.noRemoval
    · exact fetched_advance hend hahead hempty

/-- One call that is `Clear`: it decodes at RIP, and the fetch position is that of RIP behind it. -/
theorem execOnce_fetched (hE : E.Regular) (hs : s.Fetched code)
    (hreads : (E.start s).Reads code E.stream) (hclear : E.Clear s) (fuel : Nat) :
    (after (E.execOnce fuel) s).Fetched code ∧ E.DecodesAtRip code s := by
  obtain ⟨hahead, hremoval⟩ := start_ahead hE hs hclear.fires
  have hrip : (E.start s).getValue .rip = (E.fire (s.getValue .rip) s).getValue .rip :=
    startFetch_rip _
  have hvalid : (E.start s).stateFlags.tempRipIsValid = true := by
    unfold start startFetch
    cases h : (E.fire (s.getValue .rip) s).stateFlags.tempRipIsValid <;> simp [h]
  refine ⟨?_, hahead, fun result t hparse => ?_⟩
  · have hstep : E.execOnce fuel s = (parseCmd E.stream E.decoder >>= fun result =>
        E.queryCommand result.insn >>= fun command =>
          runCommand fuel ((E.fire (s.getValue .rip) s).getValue .rip) result.insn command)
            (E.start s) := rfl
    rcases hclear.command with ⟨result, t, command, u, hparse, hquery⟩ | ⟨e, bytes, t, hrun, hlook⟩
    · obtain ⟨-, hbehind, hsame⟩ := parseCmd_ahead (E.decoder_leaves _) hahead hreads hparse
      have hkept : PositionKept t u := by
        refine (queryCommand_fetchKept hE result.insn t).ok hquery ?_
        rw [hsame]
        exact hremoval
      have hafter : after (E.execOnce fuel) s =
          after (runCommand fuel ((E.fire (s.getValue .rip) s).getValue .rip) result.insn command)
          u := by
        unfold after
        rw [hstep, bind_of_ok hparse, bind_of_ok hquery]
      rw [hafter]
      refine runCommand_fetched (queryCommand_ok hE hquery) hkept.noRemoval (fun hv => ?_)
        (fun hv => ?_) fuel
      · rcases hkept.position with ⟨-, hp, hl⟩ | ⟨hv', -⟩
        · rw [hrip] at hbehind
          exact ⟨by rw [hp, hl, hbehind.tempRIP], by simpa only [hl] using hbehind.lookahead⟩
        · rw [hv'] at hv
          cases hv
      · rcases hkept.position with ⟨hv', -, -⟩ | ⟨-, hl⟩
        · rw [hv', hsame, hvalid] at hv
          cases hv
        · exact hl
    · have hafter : after (E.execOnce fuel) s = t := by
        have hparse : parseCmd E.stream E.decoder (E.start s) = .error (.command e) t := by
          unfold parseCmd
          rw [hrun]
        exact after_of_error (hstep.trans (bind_of_error hparse))
      obtain ⟨hbytes, hstate⟩ := Decoding.run_reads hreads hrun
      have hnext := hahead.drop hbytes (t := t) (k := 0) (by rw [hstate]) (Nat.zero_le _) hlook
      rw [hafter]
      refine ⟨?_, fun _ => ?_, fun hv => ?_⟩
      · rw [hstate]
        exact hremoval
      · have hsame : t.getValue .rip = (E.start s).getValue .rip := by rw [hstate]; rfl
        rw [hsame]
        rwa [BitVec.add_zero] at hnext
      · rw [hstate] at hv
        rw [hvalid] at hv
        cases hv
  · obtain ⟨⟨hlen, hbytes⟩, -, -⟩ := parseCmd_ahead (E.decoder_leaves _) hahead hreads hparse
    refine List.ext_getElem (by simp [hlen]) fun i h _ => ?_
    rw [hbytes i h]
    simp

end Env

/-! ## Any calls -/

/-- A call of `DianaProcessor_ExecOnce`, with what the processor is set up with then. -/
structure Call (μ : Type) where
  env : Env μ
  fuel : Nat

def Call.next (c : Call μ) (s : Proc μ) : Proc μ := after (c.env.execOnce c.fuel) s

/-- The code bytes are not modified: every call reads the same. -/
def CodeKept (code : Value → Byte) (s : Proc μ) : List (Call μ) → Prop
  | [] => True
  | c :: cs => (c.env.start s).Reads code c.env.stream ∧ CodeKept code (c.next s) cs

def AllClear (s : Proc μ) : List (Call μ) → Prop
  | [] => True
  | c :: cs => c.env.Clear s ∧ AllClear (c.next s) cs

/-- Before and behind every call the fetch position is that of RIP, and every call decodes there. -/
def AtRip (code : Value → Byte) (s : Proc μ) : List (Call μ) → Prop
  | [] => s.Fetched code
  | c :: cs => s.Fetched code ∧ c.env.DecodesAtRip code s ∧ AtRip code (c.next s) cs

theorem init_fetched (code : Value → Byte) (mode : Mode) (mem : μ) :
    (Proc.init mode mem).Fetched code :=
  ⟨rfl, nofun, fun _ => rfl⟩

/-- Calls that are `Clear`, from any state with the fetch position at RIP. -/
theorem atRip_of_allClear {code : Value → Byte} {s : Proc μ} {calls : List (Call μ)}
    (hs : s.Fetched code) (hregular : ∀ c ∈ calls, c.env.Regular) (hcode : CodeKept code s calls)
    (hclear : AllClear s calls) : AtRip code s calls := by
  induction calls generalizing s with
  | nil => exact hs
  | cons c cs ih =>
    have hc := hregular c List.mem_cons_self
    obtain ⟨hnext, hdecodes⟩ := Env.execOnce_fetched hc hs hcode.1 hclear.1 c.fuel
    exact ⟨hs, hdecodes, ih hnext (fun d hd => hregular d (List.mem_cons_of_mem c hd))
      hcode.2 hclear.2⟩

/-! ## Instructions of flat memory -/

/-- `DI_MAX_OPCODE_COUNT + 1` -/
def readAhead : Nat := 5

/-- `Diana_ReadCache` -/
def readCache (cache : List Byte) (next : List Byte → Decoding) : Decoding :=
  if cache.length < readAhead then
    .read (readAhead - cache.length) fun
      | .ok bs => next (cache ++ bs)
      | .error e => .done (.error e) cache
  else next cache

/-- `Diana_ParseCmdEx` where no prefix is found; `find` is the search in the table, with the size of
the instruction. -/
def parseOpcode (find : List Byte → Option (Insn × Nat)) (cache : List Byte) : Decoding :=
  readCache cache fun
    | [] => .done (.error .ended) []
    | data :: tail => readCache tail fun tail =>
      match find (data :: tail) with
      | some (I, size) => .done (.ok I) ((data :: tail).drop size)
      | none => .done (.error .error) tail

theorem readCache_leaves {given cache : List Byte} {next : List Byte → Decoding}
    (h : ∀ bs, (next (cache ++ bs)).Leaves (given ++ bs)) :
    (readCache cache next).Leaves given := by
  unfold readCache
  split
  · exact ⟨h, fun e => trivial⟩
  · have hnone := h []
    rwa [List.append_nil, List.append_nil] at hnone

theorem parseOpcode_leaves (find : List Byte → Option (Insn × Nat)) (cache : List Byte) :
    (parseOpcode find cache).Leaves cache := by
  refine readCache_leaves fun bs => ?_
  cases h : cache ++ bs with
  | nil => trivial
  | cons data tail =>
    refine readCache_leaves fun bs => ?_
    split
    · exact List.drop_suffix _ _
    · trivial

def incEax : Insn where
  command := .general .inc
  operands := [⟨.register (.r32 0), .dword, .dword⟩]
  iPrefix := .none
  opsize := .dword
  addressSize := .dword
  rexW := false
  fullCmdSize := 0
  signExtends := false
  pushSeg := false
  lockable := false
  isEvex := false

/-- Numbered as in `g_groups`. -/
def hlt : Insn := { incEax with command := .other 1361, operands := [] }

def jmpShort (d : Byte) : Insn :=
  { incEax with command := .other 1380, operands := [⟨.rel (d.signExtend 64), .dword, .dword⟩] }

/-- 40, F4 and EB of 32-bit code. -/
def findOpcode : List Byte → Option (Insn × Nat)
  | data :: tail =>
    if data = 0x40 then some (incEax, 1)
    else if data = 0xF4 then some (hlt, 1)
    else if data = 0xEB then tail.head?.map fun d => (jmpShort d, 2)
    else none
  | [] => none

/-- The handlers beside those of the general-purpose set; `hlt` has none. -/
def findOther (I : Insn) :
    Option OtherCommand := if I.command = .other 1380 then some (.branch .jmp) else none

def flatEnv : Env (Value → Byte) where
  stream := flatStream
  decoder := parseOpcode findOpcode
  decoder_leaves := parseOpcode_leaves findOpcode
  others I := (findOther I).map (OtherCommand.call flatStream I)
  firePoints := []
  customProvider := none

theorem flatEnv_regular : flatEnv.Regular where
  fires _ h := absurd h List.not_mem_nil
  others := Env.others_fetchKept fun _ => rfl
  provider _ := Keeps.pure _
  custom _ _ _ _ h := by cases h

theorem flat_reads {s : Proc (Value → Byte)} {code : Value → Byte} (h : s.mem = code) :
    s.Reads code flatStream := by
  intro offset size bs hbs i hi
  cases hbs
  unfold load at hi ⊢
  rw [List.getElem_map, List.getElem_range, h]

/-- 32-bit code at 0x1000. -/
def atCode (code : Value → Byte) : Proc (Value → Byte) :=
  (Proc.init ⟨false, .dword, .dword⟩ code).setValueEx none .rip 0x1000 .qword

def flatCall : Call (Value → Byte) := ⟨flatEnv, 1⟩

/-- `inc eax` and a jump back to it. -/
def loopCode : Value → Byte :=
  fun a => if a = 0x1001 then 0xEB else if a = 0x1002 then 0xFD else 0x40

theorem atRip_loopCode : AtRip loopCode (atCode loopCode) [flatCall, flatCall, flatCall] := by
  have hs : (atCode loopCode).Fetched loopCode := ⟨rfl, nofun, fun _ => rfl⟩
  have hregular : ∀ c ∈ [flatCall, flatCall, flatCall], c.env.Regular := by
    simpa [flatCall] using flatEnv_regular
  have hcode : CodeKept loopCode (atCode loopCode) [flatCall, flatCall, flatCall] :=
    ⟨flat_reads rfl, flat_reads rfl, flat_reads rfl, trivial⟩
  have hclear : AllClear (atCode loopCode) [flatCall, flatCall, flatCall] :=
    ⟨⟨fun _ => rfl, .inl ⟨_, _, _, _, rfl, rfl⟩⟩, ⟨fun _ => rfl, .inl ⟨_, _, _, _, rfl, rfl⟩⟩,
      ⟨fun _ => rfl, .inl ⟨_, _, _, _, rfl, rfl⟩⟩, trivial⟩
  exact atRip_of_allClear hs hregular hcode hclear

/-- `hlt` and then `inc eax`. -/
def hltCode : Value → Byte := fun a => if a = 0x1000 then 0xF4 else 0x40

/-- The second call runs `inc eax`, with RIP at the `hlt` that the first call left unsupported. -/
theorem not_atRip :
    ¬ ∀ (calls : List (Call (Value → Byte))) (code : Value → Byte) (s : Proc (Value → Byte)),
    s.Fetched code → (∀ c ∈ calls, c.env.Regular) → CodeKept code s calls → AtRip code s calls := by
  intro h
  have hs : (atCode hltCode).Fetched hltCode := ⟨rfl, nofun, fun _ => rfl⟩
  have hregular : ∀ c ∈ [flatCall, flatCall], c.env.Regular := by
    simpa [flatCall] using flatEnv_regular
  have hcode : CodeKept hltCode (atCode hltCode) [flatCall, flatCall] :=
    ⟨flat_reads rfl, flat_reads rfl, trivial⟩
  obtain ⟨-, -, -, hdecodes, -⟩ := h [flatCall, flatCall] hltCode (atCode hltCode) hs hregular hcode
  have hbytes := hdecodes.bytes _ _ rfl
  exact absurd hbytes (by decide +kernel)

end Diana.Processor
