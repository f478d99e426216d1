import Diana.Analyze.X86

/-!
# Root-reachable code

The code that can be reached from the entry by fall-through and direct branches (`RootReach`), and
what the analysis registers of it. Three things decide:

* the turns (`x86_turn`) build what they reach and leave its successors registered, pending or next
  in line (`Explored`);
* an instruction becomes invalid in a rollback and in no other way, and stays so (`invalidAt_turn`);
* a rollback marks all the current route constructed, also what a root route reaches too.

So all root-reachable code is registered and valid in the end if and only if no rollback marked any
of it.
-/

namespace Diana.Analyze

open Diana.Lib

/-! ## Reachability -/

/-- An instruction decodes at `a`. -/
def Image.decodes (img : Image) (a : Nat) : Prop := ∃ r, img.parseCmd a = .ok r

/-- The instruction can go to the next one. -/
def fallsThrough (r : ParserResult) : Bool :=
  match r.linkedInfo with
  | some info =>
    if info.canChangeRip then !info.stop && !info.ret && info.canGoToTheNextInstruction else true
  | none => true

/-- The target of a direct branch inside the image. -/
def directTarget (obs : Observer) (r : ParserResult) (next : Nat) : Option Nat :=
  match r.linkedInfo with
  | some info =>
    if info.canChangeRip = true ∧ info.stop = false ∧ info.ret = false then
      match analyzeJumps r info next with
      | some (newOffset, absolute, false) =>
        match obs.analyzeAddress newOffset absolute with
        | (target, .normal) => some target
        | _ => none
      | _ => none
    else none
  | none => none

/-- The address after the instruction `r` at `a`. -/
def nextOf (a : Nat) (r : ParserResult) : Nat := wrap (a + r.fullCmdSize)

/-- The offsets reached from the entry by fall-through and direct branches through instructions that
decode. -/
inductive RootReach (cfg : Config) (img : Image) (obs : Observer) (entry : Nat) : Nat → Prop where
  | entry (hlt : entry < cfg.maxOffset) (hdec : img.decodes entry) :
      RootReach cfg img obs entry entry
  | fall {a : Nat} {r : ParserResult} (ha : RootReach cfg img obs entry a)
      (hr : img.parseCmd a = .ok r) (hf : fallsThrough r = true) (hlt : nextOf a r < cfg.maxOffset)
      (hdec : img.decodes (nextOf a r)) : RootReach cfg img obs entry (nextOf a r)
  | branch {a t : Nat} {r : ParserResult} (ha : RootReach cfg img obs entry a)
      (hr : img.parseCmd a = .ok r) (ht : directTarget obs r (nextOf a r) = some t)
      (hlt : t < cfg.maxOffset) (hdec : img.decodes t) : RootReach cfg img obs entry t

theorem RootReach.lt {cfg : Config} {img : Image} {obs : Observer} {entry a : Nat}
    (h : RootReach cfg img obs entry a) : a < cfg.maxOffset := by
  cases h with
  | entry hlt => exact hlt
  | fall _ _ _ hlt => exact hlt
  | branch _ _ _ hlt => exact hlt

theorem RootReach.decodes {cfg : Config} {img : Image} {obs : Observer} {entry a : Nat}
    (h : RootReach cfg img obs entry a) : img.decodes a := by
  cases h with
  | entry _ hdec => exact hdec
  | fall _ _ _ _ hdec => exact hdec
  | branch _ _ _ _ hdec => exact hdec

/-! ## The analysis of one instruction -/

section Instruction

variable {img : Image} {obs : Observer} {mode32 : Bool} {r : ParserResult} {next : Nat}
  {questionable : Bool}

/-- The route ends with the instructions that do not fall through. -/
theorem instructionActions_reset :
    (instructionActions img obs mode32 r next questionable).2 = !fallsThrough r := by
  unfold instructionActions fallsThrough
  cases r.linkedInfo with
  | none => rfl
  | some info =>
    simp only
    cases hc : info.canChangeRip with
    | false => rfl
    | true =>
      cases hs : info.stop with
      | true => simp
      | false =>
        cases hr : info.ret with
        | true => simp
        | false =>
          simp only [Bool.false_eq_true, if_false, if_true]
          split <;> simp

/-- The target of a direct branch is saved. -/
theorem saveNewRoute_mem {t : Nat} (h : directTarget obs r next = some t) :
    Action.saveNewRoute t true questionable false ∈
      (instructionActions img obs mode32 r next questionable).1 := by
  unfold directTarget at h
  unfold instructionActions
  cases hl : r.linkedInfo with
  | none =>
    rw [hl] at h
    cases h
  | some info =>
    rw [hl] at h
    simp only at h ⊢
    split at h
    · next hc =>
      obtain ⟨h1, h2, h3⟩ := hc
      rw [h1, h2, h3]
      simp only [Bool.false_eq_true, if_false, if_true]
      split at h
      · next newOffset absolute hj =>
        rw [hj]
        split at h
        · next target ha =>
          cases h
          have hres : resolveTarget img obs newOffset absolute false = (t, .normal, false) := by
            simp [resolveTarget, ha]
          simp only [hres]
          exact List.mem_cons_of_mem _ (List.mem_singleton.mpr rfl)
        · cases h
      · cases h
    · cases h

/-- The operations an x86 instruction uses. -/
def Action.isX86 : Action → Bool
  | .note _ => true
  | .saveNewRoute _ aligned _ _ => aligned
  | .saveDataXRef _ _ => true
  | .saveNewExternalRoute _ _ _ => true
  | .dropPending _ => false
  | .markData _ _ _ => false

theorem saveDataAccess_isX86 {address : Nat} {absolute : Bool} :
    ∀ x ∈ saveDataAccess obs address absolute, x.isX86 = true := by
  unfold saveDataAccess
  split <;> simp [Action.isX86]

theorem saveAddressTaken_isX86 {address : Nat} {absolute : Bool} :
    ∀ x ∈ saveAddressTaken obs address absolute, x.isX86 = true := by
  unfold saveAddressTaken
  split <;> simp [Action.isX86]

theorem dispatch_isX86 (obs : Observer) (r : ParserResult) (next : Nat) (op : LinkedOperand) :
    (∀ x ∈ (dispatchMode32 obs r op).1, x.isX86 = true) ∧
      ∀ x ∈ (dispatchMode64 obs r next op).1, x.isX86 = true := by
  constructor
  · unfold dispatchMode32
    split
    · simp
    · split
      · exact saveDataAccess_isX86
      · split <;> simp
    · simp
  · unfold dispatchMode64
    split
    · split <;> simp [Action.isX86]
    · simp
    · split
      · split
        · simp only
          split
          · intro x hx
            rcases List.mem_cons.mp hx with rfl | hx
            · rfl
            · exact saveAddressTaken_isX86 x hx
          · intro x hx
            rcases List.mem_cons.mp hx with rfl | hx
            · rfl
            · exact saveDataAccess_isX86 x hx
        · simp [Action.isX86]
      · split
        · exact saveDataAccess_isX86
        · split <;> simp
    · simp

theorem operandActions_isX86 {op : LinkedOperand} :
    ∀ x ∈ operandActions obs mode32 r next op, x.isX86 = true := by
  have hd := dispatch_isX86 obs r next op
  unfold operandActions
  have hp : ∀ x ∈ (if mode32 then dispatchMode32 obs r op else dispatchMode64 obs r next op).1,
      x.isX86 = true := by
    cases mode32 with
    | true => exact hd.1
    | false => exact hd.2
  generalize (if mode32 then dispatchMode32 obs r op else dispatchMode64 obs r next op) = p at hp ⊢
  intro x hx
  dsimp only at hx
  split at hx
  · rcases List.mem_append.mp hx with hx | hx
    · exact hp x hx
    · exact saveAddressTaken_isX86 x hx
  · exact hp x hx

theorem instructionActions_isX86 :
    ∀ x ∈ (instructionActions img obs mode32 r next questionable).1, x.isX86 = true := by
  have hops : ∀ x ∈ r.linkedOperands.flatMap (operandActions obs mode32 r next),
      x.isX86 = true := by
    intro x hx
    obtain ⟨op, -, hop⟩ := List.mem_flatMap.mp hx
    exact operandActions_isX86 x hop
  unfold instructionActions
  split
  · split
    · split
      · simp [Action.isX86]
      · split
        · simp [Action.isX86]
        · simp only
          split
          · simp [Action.isX86]
          · intro x hx
            rcases List.mem_cons.mp hx with rfl | hx
            · rfl
            · unfold branchActions at hx
              split at hx <;> simp_all [Action.isX86]
    · exact hops
  · exact hops

end Instruction

/-! ## What the operations leave behind -/

/-- An invalid instruction is registered at `a`. -/
def invalidAt (o : Owner) (a : Nat) : Prop :=
  ∃ i, o.presenceVec a = some i ∧ i.flags.invalid = true

/-- The operations of an analysis register new offsets as pending routes and change neither the
loading nor the invalid flag of others. -/
structure Adds (s t : Session) : Prop where
  keep : ∀ a i, s.owner.presenceVec a = some i → ∃ j, t.owner.presenceVec a = some j ∧
    j.flags.invalid = i.flags.invalid ∧ j.flags.isLoading = i.flags.isLoading
  new : ∀ a j, s.owner.presenceVec a = none → t.owner.presenceVec a = some j →
    j.flags.isLoading = true ∧ j.flags.invalid = false ∧ ∃ r ∈ t.stack, r.startOffset = a
  stack : ∀ r ∈ s.stack, r ∈ t.stack
  fresh : (∀ r ∈ s.stack, r.instructions = []) → ∀ r ∈ t.stack, r.instructions = []

theorem Adds.refl (s : Session) : Adds s s := by
  refine ⟨fun a i h => ⟨i, h, rfl, rfl⟩, fun a j hn hj => ?_, fun _ h => h, id⟩
  rw [hn] at hj
  cases hj

theorem Adds.trans {s t u : Session} (h₁ : Adds s t) (h₂ : Adds t u) : Adds s u := by
  refine ⟨fun a i hi => ?_, fun a k hn hk => ?_, fun r hr => h₂.stack r (h₁.stack r hr),
    fun h => h₂.fresh (h₁.fresh h)⟩
  · obtain ⟨j, hj, hji, hjl⟩ := h₁.keep a i hi
    obtain ⟨k, hk, hki, hkl⟩ := h₂.keep a j hj
    exact ⟨k, hk, hki.trans hji, hkl.trans hjl⟩
  · cases hj : t.owner.presenceVec a with
    | none => exact h₂.new a k hj hk
    | some j =>
      obtain ⟨hl, hi, r, hr, hra⟩ := h₁.new a j hn hj
      obtain ⟨k', hk', hki, hkl⟩ := h₂.keep a j hj
      rw [hk] at hk'
      cases hk'
      exact ⟨hkl.trans hl, hki.trans hi, r, h₂.stack r hr, hra⟩

theorem Adds.isSome {s t : Session} (h : Adds s t) {a : Nat}
    (ha : (s.owner.presenceVec a).isSome = true) : (t.owner.presenceVec a).isSome = true := by
  obtain ⟨i, hi⟩ := Option.isSome_iff_exists.mp ha
  obtain ⟨j, hj, -⟩ := h.keep a i hi
  rw [hj]
  rfl

/-- A write to flags other than loading and invalid. -/
theorem adds_modify {s : Session} {b : Nat} {f : InstrFlags → InstrFlags}
    (hi : ∀ g, (f g).invalid = g.invalid) (hl : ∀ g, (f g).isLoading = g.isLoading) :
    Adds s { s with owner := s.owner.modify b f } := by
  refine ⟨fun a i h => ?_, fun a j hn hj => ?_, fun _ h => h, id⟩
  · by_cases hab : a = b
    · subst hab
      exact ⟨{ i with flags := f i.flags }, by simp [Owner.modify_same, h], hi _, hl _⟩
    · exact ⟨i, by simp [Owner.modify_other hab, h], rfl, rfl⟩
  · have : ((s.owner.modify b f).presenceVec a).isSome = false := by
      rw [modify_isSome, hn]
      rfl
    rw [show (s.owner.modify b f).presenceVec a = some j from hj] at this
    cases this

theorem adds_of_presenceVec {s : Session} {o : Owner} (h : o.presenceVec = s.owner.presenceVec) :
    Adds s { s with owner := o } := by
  refine ⟨fun a i hi => ⟨i, by simp [h, hi], rfl, rfl⟩, fun a j hn hj => ?_, fun _ h => h, id⟩
  have hj' : o.presenceVec a = some j := hj
  rw [h, hn] at hj'
  cases hj'

/-- Setting the root flag and adding a cross reference. -/
theorem adds_root {s : Session} {source a : Nat} {questionable addressTaken : Bool} :
    Adds s { s with owner := s.owner.refer source a questionable addressTaken } := by
  cases questionable with
  | true => exact adds_of_presenceVec rfl
  | false =>
    exact Adds.trans (adds_modify (b := a) (f := fun f => { f with root := true }) (fun _ => rfl)
      fun _ => rfl) (adds_of_presenceVec rfl)

theorem saveNewRoute_adds {cfg : Config} {s t : Session} {source a : Nat}
    {questionable addressTaken : Bool}
    (h : saveNewRoute cfg s source a true questionable addressTaken = .ok t) : Adds s t := by
  obtain rfl | rfl | ⟨i, -, rfl⟩ | ⟨-, hi, rfl⟩ := saveNewRoute_cases h
  · exact Adds.refl t
  · exact adds_of_presenceVec rfl
  · exact adds_root
  · -- the new instruction and its route come first, then the root flag
    refine Adds.trans (t := { s with
      owner := s.owner.allocateInstruction a { isLoading := true }
      stack := ⟨a, questionable, []⟩ :: s.stack }) ⟨fun b i hb => ?_, fun b j hn hj => ?_,
        fun r hr => List.mem_cons_of_mem _ hr, fun hs r hr => ?_⟩ adds_root
    · have hne : b ≠ a := by
        rintro rfl
        rw [hi] at hb
        cases hb
      exact ⟨i, by simp [hne, hb], rfl, rfl⟩
    · by_cases hba : b = a
      · subst hba
        simp only [Owner.allocateInstruction_presenceVec, if_true] at hj
        cases hj
        exact ⟨rfl, rfl, _, List.mem_cons_self, rfl⟩
      · simp only [Owner.allocateInstruction_presenceVec, hba, if_false, hn] at hj
        cases hj
    · rcases List.mem_cons.mp hr with rfl | hr
      · rfl
      · exact hs r hr

theorem act_adds {cfg : Config} {source : Nat} {s t : Session} {x : Action} (hx : x.isX86 = true)
    (h : act cfg source s x = .ok t) : Adds s t := by
  cases x with
  | note n =>
    cases h
    refine adds_modify ?_ ?_
    · cases n <;> exact fun _ => rfl
    · cases n <;> exact fun _ => rfl
  | saveNewRoute a aligned q d =>
    cases (show aligned = true from hx)
    exact saveNewRoute_adds h
  | saveDataXRef a b =>
    cases h
    exact adds_of_presenceVec rfl
  | saveNewExternalRoute a b c =>
    cases h
    exact adds_of_presenceVec (Owner.saveNewExternalRoute_presenceVec ..)
  | dropPending a => cases hx
  | markData a b c => cases hx

theorem foldlM_act_adds {cfg : Config} {source : Nat} {l : List Action} {s t : Session}
    (hl : ∀ x ∈ l, x.isX86 = true) (h : l.foldlM (act cfg source) s = .ok t) : Adds s t := by
  induction l generalizing s with
  | nil =>
    cases h
    exact Adds.refl _
  | cons x l ih =>
    rw [List.foldlM_cons] at h
    obtain ⟨u, hu, hrest⟩ := bind_eq_ok.mp h
    exact (act_adds (hl x List.mem_cons_self) hu).trans
      (ih (fun y hy => hl y (List.mem_cons_of_mem _ hy)) hrest)

/-- A saved target inside the image is registered. -/
theorem saveNewRoute_registers {cfg : Config} {s t : Session} {source a : Nat} {questionable : Bool}
    (hlt : a < cfg.maxOffset) (h : saveNewRoute cfg s source a true questionable false = .ok t) :
    (t.owner.presenceVec a).isSome = true := by
  unfold saveNewRoute at h
  rw [if_neg (Nat.not_le.mpr hlt)] at h
  simp only [Bool.true_eq_false, if_false, Bool.false_eq_true, false_and] at h
  obtain ⟨o, hq, hrest⟩ := bind_eq_ok.mp h
  have hsome := queryOrAllocate_isSome hq
  have hroot : ((if questionable = true then o
      else o.modify a fun f => { f with root := true }).presenceVec a).isSome = true := by
    split
    · exact hsome
    · rw [modify_isSome]
      exact hsome
  split at hrest
  · cases hrest
    exact hroot
  · cases hrest
    exact hroot

theorem foldlM_act_registers {cfg : Config} {source a : Nat} {questionable : Bool}
    {l : List Action} {s t : Session} (hl : ∀ x ∈ l, x.isX86 = true) (hlt : a < cfg.maxOffset)
    (hmem : Action.saveNewRoute a true questionable false ∈ l)
    (h : l.foldlM (act cfg source) s = .ok t) : (t.owner.presenceVec a).isSome = true := by
  induction l generalizing s with
  | nil => cases hmem
  | cons x l ih =>
    rw [List.foldlM_cons] at h
    obtain ⟨u, hu, hrest⟩ := bind_eq_ok.mp h
    have hl' : ∀ y ∈ l, y.isX86 = true := fun y hy => hl y (List.mem_cons_of_mem _ hy)
    rcases List.mem_cons.mp hmem with hx | hmem'
    · subst hx
      exact (foldlM_act_adds hl' hrest).isSome (saveNewRoute_registers hlt hu)
    · exact ih hl' hmem' hrest

/-- The constructed instruction is registered, neither loading nor invalid; nothing else changes. -/
theorem constructInstruction_exact {s t : Session} {a : Nat} {w : WordFlags}
    (h : constructInstruction s a w = .ok t) :
    (∃ i, t.owner.presenceVec a = some i ∧ i.flags.isLoading = false ∧ i.flags.invalid = false) ∧
      (∀ b, b ≠ a → t.owner.presenceVec b = s.owner.presenceVec b) ∧ t.stack = s.stack ∧
      t.curRoute.instructions = s.curRoute.instructions ++ [a] := by
  obtain ⟨o, hq, hrest⟩ := bind_eq_ok.mp h
  cases hrest
  obtain ⟨i, hi⟩ := Option.isSome_iff_exists.mp (queryOrAllocate_isSome hq)
  have hm : ∀ f : InstrFlags, (o.modify a fun _ => f).presenceVec a = some ⟨i.offset, f⟩ := by
    intro f
    rw [Owner.modify_same, hi]
    rfl
  refine ⟨⟨_, hm _, rfl, rfl⟩, fun b hb => ?_, rfl, rfl⟩
  simp only [Owner.modify_other hb]
  unfold Owner.queryOrAllocateInstruction at hq
  split at hq
  · cases hq
    rfl
  · split at hq
    · cases hq
    · cases hq
      simp [hb]

/-- Marking a list of offsets makes what is registered there invalid and nothing else. -/
theorem foldl_routeMarker (l : List Nat) (o : Owner) (a : Nat) :
    (l.foldl Owner.routeMarker o).presenceVec a =
      if a ∈ l then (o.presenceVec a).map fun i =>
      { i with flags := { i.flags with invalid := true } } else o.presenceVec a := by
  induction l generalizing o with
  | nil => simp
  | cons b l ih =>
    rw [List.foldl_cons, ih]
    have hb : (o.routeMarker b).presenceVec a =
        if a = b then (o.presenceVec a).map fun i =>
        { i with flags := { i.flags with invalid := true } } else o.presenceVec a := by
      by_cases hab : a = b
      · subst hab
        rw [if_pos rfl, Owner.routeMarker_presenceVec, Owner.modify_same]
      · rw [if_neg hab, Owner.routeMarker_presenceVec, Owner.modify_other hab]
    rw [hb]
    by_cases hal : a ∈ l
    · rw [if_pos hal, if_pos (List.mem_cons_of_mem _ hal)]
      split
      · cases o.presenceVec a <;> rfl
      · rfl
    · rw [if_neg hal]
      by_cases hab : a = b
      · rw [if_pos hab, if_pos (by simp [hab])]
      · rw [if_neg hab, if_neg (by simp [hab, hal])]

theorem foldl_keeper_presenceVec (l : List Nat) (o : Owner) :
    (l.foldl Owner.addressTakenRouteKeeper o).presenceVec = o.presenceVec := by
  induction l generalizing o with
  | nil => rfl
  | cons b l ih => rw [List.foldl_cons, ih, addressTakenRouteKeeper_presenceVec]

theorem rollback_presenceVec (s : Session) (a : Nat) :
    (rollbackCurrentRoute s).owner.presenceVec a =
      if a ∈ rollbackOffsets s then
        (s.owner.presenceVec a).map fun i => { i with flags := { i.flags with invalid := true } }
      else s.owner.presenceVec a := by
  show ((rollbackOffsets s).foldl Owner.addressTakenRouteKeeper _).presenceVec a = _
  rw [foldl_keeper_presenceVec, foldl_routeMarker]

/-! ## The turns -/

section Turns

variable {cfg : Config} {img : Image} {obs : Observer}

/-- The turn at the session `u` rolls its route back: what is there does not decode on a route that
has to prove it is code, or a questionable route runs into an invalid instruction. -/
def rollsBack (cfg : Config) (img : Image) (u : Session) : Prop :=
  ¬ img.decodes u.offset ∧ isStrictRoute cfg u = true ∨
    img.decodes u.offset ∧ invalidAt u.owner u.offset ∧ u.curRoute.questionable = true

/-- `a` is registered, or the next turn is at it. -/
def Covered (s : Session) (a : Nat) : Prop :=
  (s.owner.presenceVec a).isSome = true ∨ a = s.offset ∧ s.needReset = false

/-- `a` has its route on the stack, or the next turn is at it. -/
def Pending (s : Session) (a : Nat) : Prop :=
  (∃ r ∈ s.stack, r.startOffset = a) ∨ a = s.offset ∧ s.needReset = false

/-- The offsets inside the image the instruction at `a` goes to. -/
def Successor (maxOffset : Nat) (img : Image) (obs : Observer) (a b : Nat) : Prop :=
  b < maxOffset ∧ img.decodes b ∧ ∃ r, img.parseCmd a = .ok r ∧
    (fallsThrough r = true ∧ b = nextOf a r ∨ directTarget obs r (nextOf a r) = some b)

/-- The turn from `u` to `t` constructed the instruction at the offset of `u` and left its
successors covered. -/
structure Constructs (cfg : Config) (img : Image) (obs : Observer) (u t : Session) : Prop where
  here : ∃ i, t.owner.presenceVec u.offset = some i ∧ i.flags.isLoading = false ∧
    i.flags.invalid = false
  keep : ∀ a i, a ≠ u.offset → u.owner.presenceVec a = some i → ∃ j,
    t.owner.presenceVec a = some j ∧ j.flags.invalid = i.flags.invalid ∧
      j.flags.isLoading = i.flags.isLoading
  new : ∀ a j, a ≠ u.offset → u.owner.presenceVec a = none → t.owner.presenceVec a = some j →
    j.flags.isLoading = true ∧ j.flags.invalid = false ∧ ∃ r ∈ t.stack, r.startOffset = a
  stack : ∀ r ∈ u.stack, r ∈ t.stack
  fresh : (∀ r ∈ u.stack, r.instructions = []) → ∀ r ∈ t.stack, r.instructions = []
  route : t.curRoute.instructions = u.curRoute.instructions ++ [u.offset]
  successors : ∀ b, Successor cfg.maxOffset img obs u.offset b → Covered t b

theorem endTurn_x86 (cfg : Config) (w : Session) :
    endTurn cfg false w = w ∨
      cfg.maxOffset ≤ w.offset ∧ endTurn cfg false w = { w with needReset := true } := by
  unfold endTurn
  split
  · next hle => exact Or.inr ⟨hle, by simp⟩
  · exact Or.inl rfl

theorem x86_constructs {u w : Session} {r : ParserResult} (hr : img.parseCmd u.offset = .ok r)
    (hw : analyzeAndConstructInstruction cfg (x86Answers cfg img obs u) u (nextOf u.offset r) =
      .ok w) : Constructs cfg img obs u (endTurn cfg false w) := by
  obtain ⟨v, hc, h1⟩ := bind_eq_ok.mp hw
  obtain ⟨x, hf, h2⟩ := bind_eq_ok.mp h1
  obtain ⟨b, hn, h3⟩ := bind_eq_ok.mp h2
  cases h3
  have hact : (x86Answers cfg img obs u).actions = (instructionActions img obs cfg.mode32 r
      (nextOf u.offset r) u.curRoute.questionable).1 := by
    simp only [x86Answers, hr, nextOf]
  have hreset : b = !fallsThrough r := by
    simp only [x86Answers, hr, instructionActions_reset] at hn
    cases hn
    rfl
  rw [hact] at hf
  have hx86 : ∀ y ∈ (instructionActions img obs cfg.mode32 r (nextOf u.offset r)
      u.curRoute.questionable).1, y.isX86 = true := instructionActions_isX86
  have hadds := foldlM_act_adds hx86 hf
  obtain ⟨⟨i, hi, hil, hii⟩, hother, hst, hroute⟩ := constructInstruction_exact hc
  have hcur := (acts_foldlM _ hf).curRoute
  -- the end of the turn leaves all but the reset flag
  have hend : ∀ P : Session → Prop,
      (∀ c, P { x with offset := nextOf u.offset r, needReset := c }) →
      P (endTurn cfg false { x with offset := nextOf u.offset r, needReset := b }) := by
    intro P hP
    rcases endTurn_x86 cfg { x with offset := nextOf u.offset r, needReset := b } with he | ⟨-, he⟩
    · rw [he]
      exact hP b
    · rw [he]
      exact hP true
  refine ⟨?_, ?_, ?_, ?_, ?_, ?_, ?_⟩
  · obtain ⟨j, hj, hji, hjl⟩ := hadds.keep _ _ hi
    exact hend (fun t => ∃ i, t.owner.presenceVec u.offset = some i ∧ i.flags.isLoading = false ∧
      i.flags.invalid = false) fun _ => ⟨j, hj, hjl.trans hil, hji.trans hii⟩
  · intro a k hne hk
    obtain ⟨j, hj, hji, hjl⟩ := hadds.keep a k ((hother a hne).trans hk)
    exact hend (fun t => ∃ j, t.owner.presenceVec a = some j ∧ j.flags.invalid = k.flags.invalid ∧
      j.flags.isLoading = k.flags.isLoading) fun _ => ⟨j, hj, hji, hjl⟩
  · intro a j hne hn
    exact hend (fun t => t.owner.presenceVec a = some j → j.flags.isLoading = true ∧
      j.flags.invalid = false ∧ ∃ r ∈ t.stack, r.startOffset = a)
      fun _ hj => hadds.new a j ((hother a hne).trans hn) hj
  · intro q hq
    exact hend (fun t => q ∈ t.stack) fun _ => hadds.stack q (hst ▸ hq)
  · intro hfr
    exact hend (fun t => ∀ q ∈ t.stack, q.instructions = []) fun _ => hadds.fresh (hst ▸ hfr)
  · exact hend (fun t => t.curRoute.instructions = u.curRoute.instructions ++ [u.offset])
      fun _ => by rw [← hroute, ← hcur]
  · rintro a ⟨hlt, -, r', hr', hsucc⟩
    rw [hr] at hr'
    cases hr'
    rcases hsucc with ⟨hft, rfl⟩ | ht
    · rcases endTurn_x86 cfg { x with offset := nextOf u.offset r, needReset := b } with
        he | ⟨hge, -⟩
      · rw [he]
        exact Or.inr ⟨rfl, by simp [hreset, hft]⟩
      · exact absurd hlt (Nat.not_lt.mpr hge)
    · have hreg : (x.owner.presenceVec a).isSome = true :=
        foldlM_act_registers hx86 hlt (saveNewRoute_mem ht) hf
      exact Or.inl (hend (fun t => (t.owner.presenceVec a).isSome = true) fun _ => hreg)

/-- All a turn at an offset of the image can do. -/
theorem x86_turn {u t : Session} (h : analyzeOffset cfg (x86Env cfg img obs) u = .inl t) :
    (rollsBack cfg img u ∧
      ∃ off, t = { rollbackCurrentRoute u with offset := off, needReset := true }) ∨
    (¬ rollsBack cfg img u ∧ ¬ img.decodes u.offset ∧ ∃ off, t = { u with offset := off }) ∨
    (¬ rollsBack cfg img u ∧ isOpen u.owner u.offset = false ∧
      ∃ off, t = { u with offset := off, needReset := true }) ∨
    (¬ rollsBack cfg img u ∧ isOpen u.owner u.offset = true ∧ Constructs cfg img obs u t) := by
  unfold analyzeOffset at h
  cases hp : img.parseCmd u.offset with
  | error e =>
    have hdec : ¬ img.decodes u.offset := by
      rintro ⟨r, hr⟩
      rw [hp] at hr
      cases hr
    have hparse : (x86Answers cfg img obs u).parse = .error e := by
      simp [x86Answers, hp, Except.map]
    simp only [x86Env, hparse] at h
    rw [if_neg (by simp [x86Answers])] at h
    cases hs : isStrictRoute cfg u with
    | true =>
      rw [hs] at h
      cases h
      exact Or.inl ⟨Or.inl ⟨hdec, hs⟩, u.offset, rfl⟩
    | false =>
      rw [hs, if_neg (by decide)] at h
      have hno : ¬ rollsBack cfg img u := by
        rintro (⟨-, hr⟩ | ⟨hd, -⟩)
        · rw [hs] at hr
          cases hr
        · exact hdec hd
      split at h
      · cases h
      · cases h
        exact Or.inr (Or.inl ⟨hno, hdec, _, rfl⟩)
  | ok r =>
    have hdec : img.decodes u.offset := ⟨r, hp⟩
    have hparse : (x86Answers cfg img obs u).parse = .ok r.fullCmdSize := by
      simp [x86Answers, hp, Except.map]
    simp only [x86Env, hparse] at h
    rw [if_neg (by simp [x86Answers])] at h
    -- a rollback at an instruction that decodes needs an invalid one
    have hno : ¬ (invalidAt u.owner u.offset ∧ u.curRoute.questionable = true) →
        ¬ rollsBack cfg img u := by
      rintro hn (⟨hd, -⟩ | ⟨-, hi⟩)
      · exact hd hdec
      · exact hn hi
    have hconstruct : ¬ rollsBack cfg img u → isOpen u.owner u.offset = true →
        analyzeInstruction cfg (x86Answers cfg img obs u) u (nextOf u.offset r) = .inl t →
        ¬ rollsBack cfg img u ∧ isOpen u.owner u.offset = true ∧ Constructs cfg img obs u t := by
      intro h1 h2 h3
      unfold analyzeInstruction at h3
      split at h3
      · cases h3
      · next w hw =>
        cases h3
        exact ⟨h1, h2, x86_constructs hp hw⟩
    cases hi : u.owner.getInstruction u.offset with
    | none =>
      have hpv : u.owner.presenceVec u.offset = none := hi
      rw [hi] at h
      refine Or.inr (Or.inr (Or.inr (hconstruct (hno ?_) ?_ h)))
      · rintro ⟨⟨i, hi', -⟩, -⟩
        rw [hpv] at hi'
        cases hi'
      · simp [isOpen, hpv]
    | some i =>
      have hpv : u.owner.presenceVec u.offset = some i := hi
      rw [hi] at h
      simp only at h
      cases hinv : i.flags.invalid with
      | true =>
        rw [hinv, if_pos rfl] at h
        cases hq : u.curRoute.questionable with
        | true =>
          rw [hq] at h
          cases h
          exact Or.inl ⟨Or.inr ⟨hdec, ⟨i, hpv, hinv⟩, hq⟩, _, rfl⟩
        | false =>
          rw [hq] at h
          cases h
          refine Or.inr (Or.inr (Or.inl ⟨hno ?_, ?_, _, rfl⟩))
          · rw [hq]
            rintro ⟨-, hf⟩
            cases hf
          · simp [isOpen, hpv, hinv]
      | false =>
        have hnr : ¬ rollsBack cfg img u := by
          refine hno ?_
          rintro ⟨⟨j, hj, hji⟩, -⟩
          rw [hpv] at hj
          cases hj
          rw [hinv] at hji
          cases hji
        rw [hinv, if_neg (by decide)] at h
        cases hl : i.flags.isLoading with
        | true =>
          rw [hl, if_neg (by decide)] at h
          exact Or.inr (Or.inr (Or.inr (hconstruct hnr (by simp [isOpen, hpv, hinv, hl]) h)))
        | false =>
          rw [hl] at h
          cases h
          exact Or.inr (Or.inr (Or.inl ⟨hnr, by simp [isOpen, hpv, hl], _, rfl⟩))

/-! ## What is explored -/

/-- Every offset that is registered and decodes is invalid, or its instruction was constructed and
its successors are covered, or it is pending. -/
structure Explored (cfg : Config) (img : Image) (obs : Observer) (s : Session) : Prop where
  pending : ∀ a i, s.owner.presenceVec a = some i → i.flags.invalid = false →
    i.flags.isLoading = true → a < cfg.maxOffset → img.decodes a → Pending s a
  successors : ∀ a i, s.owner.presenceVec a = some i → i.flags.invalid = false →
    i.flags.isLoading = false → ∀ b, Successor cfg.maxOffset img obs a b → Covered s b
  route : ∀ a ∈ s.curRoute.instructions, (s.owner.presenceVec a).isSome = true
  fresh : ∀ r ∈ s.stack, r.instructions = []

theorem isSome_of_closed {o : Owner} {a : Nat} (h : isOpen o a = false) :
    (o.presenceVec a).isSome = true := by
  cases hp : o.presenceVec a with
  | none => simp [isOpen, hp] at h
  | some i => rfl

theorem rollback_isSome {s : Session} {a : Nat} (h : (s.owner.presenceVec a).isSome = true) :
    ((rollbackCurrentRoute s).owner.presenceVec a).isSome = true := by
  rw [rollback_presenceVec]
  split
  · rw [Option.isSome_map]
    exact h
  · exact h

theorem Constructs.isSome {u t : Session} (h : Constructs cfg img obs u t) {a : Nat}
    (ha : Covered u a) : (t.owner.presenceVec a).isSome = true := by
  by_cases hne : a = u.offset
  · obtain ⟨i, hi, -⟩ := h.here
    rw [hne, hi]
    rfl
  · rcases ha with ha | ⟨he, -⟩
    · obtain ⟨i, hi⟩ := Option.isSome_iff_exists.mp ha
      obtain ⟨j, hj, -⟩ := h.keep a i hne hi
      rw [hj]
      rfl
    · exact absurd he hne

/-- What was covered and decodes is registered after the turn. -/
theorem covered_turn {u t : Session} (h : analyzeOffset cfg (x86Env cfg img obs) u = .inl t)
    {a : Nat} (ha : Covered u a) (hdec : img.decodes a) :
    (t.owner.presenceVec a).isSome = true := by
  rcases x86_turn h with ⟨hr, off, rfl⟩ | ⟨-, hnd, off, rfl⟩ | ⟨-, hc, off, rfl⟩ | ⟨-, -, hcons⟩
  · refine rollback_isSome ?_
    rcases ha with ha | ⟨rfl, -⟩
    · exact ha
    · rcases hr with ⟨hnd, -⟩ | ⟨-, ⟨i, hi, -⟩, -⟩
      · exact absurd hdec hnd
      · rw [hi]
        rfl
  · rcases ha with ha | ⟨rfl, -⟩
    · exact ha
    · exact absurd hdec hnd
  · rcases ha with ha | ⟨rfl, -⟩
    · exact ha
    · exact isSome_of_closed hc
  · exact hcons.isSome ha

/-- A route that ends, with the flags of some instructions set to invalid. -/
theorem explored_stop {u t : Session} (hu : Explored cfg img obs u)
    (h : analyzeOffset cfg (x86Env cfg img obs) u = .inl t) (hst : t.stack = u.stack)
    (hcur : t.curRoute = u.curRoute)
    (hback : ∀ a i, t.owner.presenceVec a = some i → i.flags.invalid = false →
      u.owner.presenceVec a = some i)
    (hsome : ∀ a, (u.owner.presenceVec a).isSome = true → (t.owner.presenceVec a).isSome = true)
    (hhere : ∀ i, u.owner.presenceVec u.offset = some i → i.flags.invalid = false →
      i.flags.isLoading = true → ¬ img.decodes u.offset) : Explored cfg img obs t := by
  refine ⟨fun a i hi hv hl hlt hdec => ?_, fun a i hi hv hl b hb => ?_, ?_, hst ▸ hu.fresh⟩
  · have hi' := hback a i hi hv
    rcases hu.pending a i hi' hv hl hlt hdec with ⟨r, hr, hra⟩ | ⟨rfl, -⟩
    · exact Or.inl ⟨r, hst ▸ hr, hra⟩
    · exact absurd hdec (hhere i hi' hv hl)
  · exact Or.inl (covered_turn h (hu.successors a i (hback a i hi hv) hv hl b hb) hb.2.1)
  · rw [hcur]
    exact fun a ha => hsome a (hu.route a ha)

theorem explored_constructs {u t : Session} (hu : Explored cfg img obs u)
    (hc : Constructs cfg img obs u t) : Explored cfg img obs t := by
  refine ⟨fun a i hi hv hl hlt hdec => ?_, fun a i hi hv hl b hb => ?_, fun a ha => ?_,
    hc.fresh hu.fresh⟩
  · by_cases hne : a = u.offset
    · subst hne
      obtain ⟨j, hj, hjl, -⟩ := hc.here
      rw [hi] at hj
      cases hj
      rw [hl] at hjl
      cases hjl
    · cases hp : u.owner.presenceVec a with
      | none => exact Or.inl (hc.new a i hne hp hi).2.2
      | some k =>
        obtain ⟨j, hj, hji, hjl⟩ := hc.keep a k hne hp
        rw [hi] at hj
        cases hj
        rcases hu.pending a k hp (hji.symm.trans hv) (hjl.symm.trans hl) hlt hdec with
          ⟨r, hr, hra⟩ | ⟨he, -⟩
        · exact Or.inl ⟨r, hc.stack r hr, hra⟩
        · exact absurd he hne
  · by_cases hne : a = u.offset
    · subst hne
      exact hc.successors b hb
    · cases hp : u.owner.presenceVec a with
      | none =>
        rw [(hc.new a i hne hp hi).1] at hl
        cases hl
      | some k =>
        obtain ⟨j, hj, hji, hjl⟩ := hc.keep a k hne hp
        rw [hi] at hj
        cases hj
        exact Or.inl (hc.isSome (hu.successors a k hp (hji.symm.trans hv) (hjl.symm.trans hl) b hb))
  · rw [hc.route] at ha
    rcases List.mem_append.mp ha with ha | ha
    · exact hc.isSome (Or.inl (hu.route a ha))
    · obtain ⟨i, hi, -⟩ := hc.here
      rw [List.mem_singleton.mp ha, hi]
      rfl

/-- A turn keeps everything explored. -/
theorem explored_turn {u t : Session} (hu : Explored cfg img obs u)
    (h : analyzeOffset cfg (x86Env cfg img obs) u = .inl t) : Explored cfg img obs t := by
  rcases x86_turn h with ⟨hr, off, rfl⟩ | ⟨-, hnd, off, rfl⟩ | ⟨-, hc, off, rfl⟩ | ⟨-, -, hcons⟩
  · refine explored_stop hu h rfl rfl (fun a i hi hv => ?_) (fun a ha => rollback_isSome ha) ?_
    · have hi' : (rollbackCurrentRoute u).owner.presenceVec a = some i := hi
      rw [rollback_presenceVec] at hi'
      split at hi'
      · obtain ⟨k, -, rfl⟩ := Option.map_eq_some_iff.mp hi'
        cases hv
      · exact hi'
    · intro i hi hv _ hdec
      rcases hr with ⟨hnd, -⟩ | ⟨-, ⟨j, hj, hji⟩, -⟩
      · exact hnd hdec
      · rw [hi] at hj
        cases hj
        rw [hv] at hji
        cases hji
  · exact explored_stop hu h rfl rfl (fun _ _ hi _ => hi) (fun _ ha => ha) fun _ _ _ _ => hnd
  · refine explored_stop hu h rfl rfl (fun _ _ hi _ => hi) (fun _ ha => ha) ?_
    intro i hi hv hl
    simp [isOpen, hi, hv, hl] at hc
  · exact explored_constructs hu hcons

/-- Taking the next route from the stack. -/
theorem explored_next {s u : Session} (hs : Explored cfg img obs s)
    (h : nextSession cfg s = some u) : Explored cfg img obs u := by
  unfold nextSession at h
  split at h
  · next hgo =>
    -- the next turn is not at the old offset
    have hnot : ∀ a, a < cfg.maxOffset → ¬ (a = s.offset ∧ s.needReset = false) := by
      rintro a hlt ⟨rfl, hnr⟩
      rcases hgo with hge | hr
      · exact absurd hlt (Nat.not_lt.mpr hge)
      · rw [hnr] at hr
        cases hr
    cases hstack : s.stack with
    | nil =>
      rw [hstack] at h
      cases h
    | cons route rest =>
      rw [hstack] at h
      cases h
      refine ⟨fun a i hi hv hl hlt hdec => ?_, fun a i hi hv hl b hb => ?_, fun a ha => ?_,
        fun r hr => hs.fresh r (by rw [hstack]; exact List.mem_cons_of_mem _ hr)⟩
      · rcases hs.pending a i hi hv hl hlt hdec with ⟨r, hr, hra⟩ | hat
        · rw [hstack] at hr
          rcases List.mem_cons.mp hr with rfl | hr
          · exact Or.inr ⟨hra.symm, rfl⟩
          · exact Or.inl ⟨r, hr, hra⟩
        · exact absurd hat (hnot a hlt)
      · rcases hs.successors a i hi hv hl b hb with hsome | hat
        · exact Or.inl hsome
        · exact absurd hat (hnot b hb.1)
      · have hnil : route.instructions = [] := hs.fresh route (by rw [hstack]; simp)
        rw [show route.instructions = [] from hnil] at ha
        cases ha
  · next hgo =>
    cases h
    have hnr : s.needReset = false := by simpa using (not_or.mp hgo).2
    refine ⟨fun a i hi hv hl hlt hdec => ?_, fun a i hi hv hl b hb => ?_, hs.route, hs.fresh⟩
    · rcases hs.pending a i hi hv hl hlt hdec with hst | ⟨ha, -⟩
      · exact Or.inl hst
      · exact Or.inr ⟨ha, rfl⟩
    · rcases hs.successors a i hi hv hl b hb with hsome | ⟨hat, -⟩
      · exact Or.inl hsome
      · exact Or.inr ⟨hat, rfl⟩

/-! ## What becomes invalid -/

theorem rollbackOffsets_isSome {s : Session} (hs : Explored cfg img obs s) {a : Nat}
    (ha : a ∈ rollbackOffsets s) : (s.owner.presenceVec a).isSome = true := by
  unfold rollbackOffsets at ha
  rcases List.mem_append.mp ha with ha | ha
  · exact hs.route a ha
  · split at ha
    · next hload =>
      rw [List.mem_singleton.mp ha]
      cases hp : s.owner.presenceVec s.curRoute.startOffset with
      | none =>
        rw [Owner.getInstruction, hp] at hload
        cases hload
      | some i => rfl
    · cases ha

/-- What is registered is invalid after a turn if it was before, or if the turn rolls it back. -/
theorem invalidAt_turn {u t : Session} (hu : Explored cfg img obs u)
    (h : analyzeOffset cfg (x86Env cfg img obs) u = .inl t) (a : Nat) :
    invalidAt t.owner a ↔
      invalidAt u.owner a ∨ rollsBack cfg img u ∧ a ∈ rollbackOffsets u := by
  rcases x86_turn h with ⟨hr, off, rfl⟩ | ⟨hnr, hnd, off, rfl⟩ | ⟨hnr, hc, off, rfl⟩ |
    ⟨hnr, ho, hcons⟩
  · have hpv := rollback_presenceVec u a
    by_cases ha : a ∈ rollbackOffsets u
    · obtain ⟨i, hi⟩ := Option.isSome_iff_exists.mp (rollbackOffsets_isSome hu ha)
      rw [if_pos ha, hi] at hpv
      exact ⟨fun _ => Or.inr ⟨hr, ha⟩, fun _ => ⟨_, hpv, rfl⟩⟩
    · rw [if_neg ha] at hpv
      have hiff : invalidAt (rollbackCurrentRoute u).owner a ↔ invalidAt u.owner a := by
        rw [invalidAt, invalidAt, hpv]
      exact ⟨fun h => Or.inl (hiff.mp h), fun h => hiff.mpr (h.resolve_right fun h => ha h.2)⟩
  · exact ⟨Or.inl, fun h => h.resolve_right fun h => hnr h.1⟩
  · exact ⟨Or.inl, fun h => h.resolve_right fun h => hnr h.1⟩
  · have hiff : invalidAt t.owner a ↔ invalidAt u.owner a := by
      by_cases hne : a = u.offset
      · subst hne
        constructor
        · rintro ⟨i, hi, hv⟩
          obtain ⟨j, hj, -, hjv⟩ := hcons.here
          rw [hi] at hj
          cases hj
          rw [hv] at hjv
          cases hjv
        · rintro ⟨i, hi, hv⟩
          simp [isOpen, hi, hv] at ho
      · constructor
        · rintro ⟨j, hj, hv⟩
          cases hp : u.owner.presenceVec a with
          | none =>
            rw [(hcons.new a j hne hp hj).2.1] at hv
            cases hv
          | some i =>
            obtain ⟨k, hk, hki, -⟩ := hcons.keep a i hne hp
            rw [hj] at hk
            cases hk
            exact ⟨i, hp, hki.symm.trans hv⟩
        · rintro ⟨i, hi, hv⟩
          obtain ⟨k, hk, hki, -⟩ := hcons.keep a i hne hi
          exact ⟨k, hk, hki.trans hv⟩
    rw [hiff]
    exact ⟨Or.inl, fun h => h.resolve_right fun h => hnr h.1⟩

/-! ## Runs -/

/-- Nothing of the owner waits for its analysis: what is registered and decodes is invalid, or
constructed with its successors registered. -/
structure Settled (maxOffset : Nat) (img : Image) (obs : Observer) (o : Owner) : Prop where
  constructed : ∀ a i, o.presenceVec a = some i → i.flags.invalid = false → a < maxOffset →
    img.decodes a → i.flags.isLoading = false
  successors : ∀ a i, o.presenceVec a = some i → i.flags.invalid = false →
    i.flags.isLoading = false → ∀ b, Successor maxOffset img obs a b →
    (o.presenceVec b).isSome = true

theorem Settled.explored {o : Owner} (h : Settled cfg.maxOffset img obs o) (entry : Nat) :
    Explored cfg img obs (startSession o entry) := by
  refine ⟨fun a i hi hv hl hlt hdec => ?_, fun a i hi hv hl b hb => ?_, ?_, ?_⟩
  · rw [h.constructed a i hi hv hlt hdec] at hl
    cases hl
  · exact Or.inl (h.successors a i hi hv hl b hb)
  · exact fun a ha => absurd ha List.not_mem_nil
  · exact fun a ha => absurd ha List.not_mem_nil

theorem analyzeOffset_ne_ok {env : Env} {u : Session} {o : Owner} :
    analyzeOffset cfg env u ≠ .inr (.ok o) := by
  have hai : ∀ {a : Answers} {next : Nat}, analyzeInstruction cfg a u next ≠ .inr (.ok o) := by
    intro a next h
    unfold analyzeInstruction at h
    split at h
    · cases h
    · cases h
  intro h
  unfold analyzeOffset at h
  simp only at h
  split at h
  · split at h <;> cases h
  · split at h
    · split at h
      · cases h
      · split at h <;> cases h
    · split at h
      · split at h
        · split at h <;> cases h
        · split at h
          · cases h
          · exact hai h
      · exact hai h

/-- A turn is at the next session. -/
theorem iterate_inl {env : Env} {s t : Session} (h : iterate cfg env s = .inl t) :
    ∃ u, nextSession cfg s = some u ∧ analyzeOffset cfg env u = .inl t := by
  unfold iterate at h
  unfold nextSession
  split at h
  · next hgo =>
    rw [if_pos hgo]
    cases hstack : s.stack with
    | nil =>
      rw [hstack] at h
      cases h
    | cons route rest =>
      rw [hstack] at h
      simp only at h
      split at h
      · cases h
      · exact ⟨_, rfl, h⟩
  · next hgo =>
    rw [if_neg hgo]
    exact ⟨_, rfl, h⟩

/-- The loop is left when there is no route any more. -/
theorem iterate_ok {env : Env} {s : Session} {o : Owner} (h : iterate cfg env s = .inr (.ok o)) :
    (s.offset ≥ cfg.maxOffset ∨ s.needReset = true) ∧ s.stack = [] ∧ o = s.owner := by
  unfold iterate at h
  split at h
  · next hgo =>
    cases hstack : s.stack with
    | nil =>
      rw [hstack] at h
      cases h
      exact ⟨hgo, rfl, rfl⟩
    | cons route rest =>
      rw [hstack] at h
      simp only at h
      split at h
      · cases h
      · exact absurd h analyzeOffset_ne_ok
  · exact absurd h analyzeOffset_ne_ok

theorem covered_next {s u : Session} (h : nextSession cfg s = some u) {a : Nat} (ha : Covered s a)
    (hlt : a < cfg.maxOffset) : Covered u a := by
  unfold nextSession at h
  split at h
  · next hgo =>
    split at h
    · cases h
    · cases h
      rcases ha with ha | ⟨rfl, hnr⟩
      · exact Or.inl ha
      · rcases hgo with hge | hr
        · exact absurd hlt (Nat.not_lt.mpr hge)
        · rw [hnr] at hr
          cases hr
  · cases h
    rcases ha with ha | ⟨he, -⟩
    · exact Or.inl ha
    · exact Or.inr ⟨he, rfl⟩

theorem nextSession_owner {s u : Session} (h : nextSession cfg s = some u) : u.owner = s.owner := by
  unfold nextSession at h
  split at h
  · split at h
    · cases h
    · cases h
      rfl
  · cases h
    rfl

end Turns

section Runs

variable {cfg : Config} {img : Image} {obs : Observer} {owner : Owner} {entry : Nat}

/-- The entry is new, and the analysis is its loop. -/
theorem analyzeCode_inl {n : Nat} {s : Session}
    (h : analyzeCode cfg img obs owner entry n = .inl s) :
    ∀ m, analyzeCode cfg img obs owner entry m =
      runFrom (fun _ => iterate cfg (x86Env cfg img obs)) 0 m (startSession owner entry) := by
  intro m
  unfold analyzeCode analyzeCodeEx2 at h ⊢
  split at h
  · cases h
  · split at h
    · cases h
    · rfl

/-- The state in which the loop is left with what was found. -/
theorem analyzeCode_ok {n : Nat} {found : Owner}
    (h : analyzeCode cfg img obs owner entry n = .inr (.ok found)) :
    found = owner ∧ (owner.presenceVec entry).isSome = true ∨
      ∃ m s, analyzeCode cfg img obs owner entry m = .inl s ∧
        iterate cfg (x86Env cfg img obs) s = .inr (.ok found) := by
  unfold analyzeCode analyzeCodeEx2 at h
  split at h
  · next i hi =>
    cases h
    have hi' : owner.presenceVec entry = some i := hi
    exact Or.inl ⟨rfl, by rw [hi']; rfl⟩
  · next hnew =>
    split at h
    · cases h
    · next hmove =>
      obtain ⟨m, s, -, hrun, hlast⟩ := exists_last h
      refine Or.inr ⟨m, s, ?_, hlast⟩
      rw [analyzeCode, analyzeCodeEx2, hnew, hmove]
      exact hrun

/-- Every session an analysis reaches is explored. -/
theorem analyzeCode_explored (hset : Settled cfg.maxOffset img obs owner) {n : Nat} {s : Session}
    (h : analyzeCode cfg img obs owner entry n = .inl s) : Explored cfg img obs s := by
  rw [analyzeCode_inl h] at h
  refine runFrom_inv (P := Explored cfg img obs) ?_ (hset.explored entry) h
  intro k s t hs ht
  obtain ⟨u, hu, hut⟩ := iterate_inl ht
  exact explored_turn (explored_next hs hu) hut

theorem analyzeCode_covers_entry (hlt : entry < cfg.maxOffset) (hdec : img.decodes entry) {n : Nat}
    {s : Session} (h : analyzeCode cfg img obs owner entry n = .inl s) : Covered s entry := by
  rw [analyzeCode_inl h] at h
  refine runFrom_inv (P := fun s => Covered s entry) ?_ (Or.inr ⟨rfl, rfl⟩) h
  intro k s t hs ht
  obtain ⟨u, hu, hut⟩ := iterate_inl ht
  exact Or.inl (covered_turn hut (covered_next hu hs hlt) hdec)

/-- The turns of the analysis so far that rolled back `a`. -/
def RolledBack (cfg : Config) (img : Image) (obs : Observer) (owner : Owner) (entry n a : Nat) :
    Prop :=
  ∃ m s u, m < n ∧ analyzeCode cfg img obs owner entry m = .inl s ∧ nextSession cfg s = some u ∧
    rollsBack cfg img u ∧ a ∈ rollbackOffsets u

/-- What is invalid was so before the analysis, or was rolled back by a turn of it. -/
theorem invalidAt_analyzeCode (hset : Settled cfg.maxOffset img obs owner) {n : Nat} {s : Session}
    (h : analyzeCode cfg img obs owner entry n = .inl s) (a : Nat) :
    invalidAt s.owner a ↔ invalidAt owner a ∨ RolledBack cfg img obs owner entry n a := by
  have hrun := analyzeCode_inl h
  induction n generalizing s with
  | zero =>
    rw [hrun] at h
    cases h
    refine ⟨Or.inl, fun h => h.resolve_right ?_⟩
    rintro ⟨m, -, -, hm, -⟩
    exact absurd hm (Nat.not_lt_zero m)
  | succ n ih =>
    rw [hrun] at h
    obtain ⟨v, hv, hvs⟩ := runFrom_pred h
    obtain ⟨u, hu, hus⟩ := iterate_inl hvs
    rw [← hrun] at hv
    have hih : invalidAt v.owner a ↔ invalidAt owner a ∨ RolledBack cfg img obs owner entry n a :=
      ih hv
    rw [invalidAt_turn (explored_next (analyzeCode_explored hset hv) hu) hus, nextSession_owner hu,
      hih, or_assoc]
    refine or_congr_right ⟨?_, ?_⟩
    · rintro (⟨m, s', u', hm, hrest⟩ | hroll)
      · exact ⟨m, s', u', by omega, hrest⟩
      · exact ⟨n, v, u, by omega, hv, hu, hroll⟩
    · rintro ⟨m, s', u', hm, hs', hu', hroll⟩
      rcases Nat.lt_succ_iff_lt_or_eq.mp hm with hm | rfl
      · exact Or.inl ⟨m, s', u', hm, hs', hu', hroll⟩
      · rw [hv] at hs'
        cases hs'
        rw [hu] at hu'
        cases hu'
        exact Or.inr hroll

/-- What a successful analysis leaves is settled. -/
theorem analyzeCode_settled (hset : Settled cfg.maxOffset img obs owner) {n : Nat} {found : Owner}
    (h : analyzeCode cfg img obs owner entry n = .inr (.ok found)) :
    Settled cfg.maxOffset img obs found := by
  rcases analyzeCode_ok h with ⟨rfl, -⟩ | ⟨m, s, hm, hlast⟩
  · exact hset
  · have hex := analyzeCode_explored hset hm
    obtain ⟨hgo, hstack, rfl⟩ := iterate_ok hlast
    have hnot : ∀ a, a < cfg.maxOffset → ¬ (a = s.offset ∧ s.needReset = false) := by
      rintro a hlt ⟨rfl, hnr⟩
      rcases hgo with hge | hr
      · exact absurd hlt (Nat.not_lt.mpr hge)
      · rw [hnr] at hr
        cases hr
    refine ⟨fun a i hi hv hlt hdec => ?_, fun a i hi hv hl b hb => ?_⟩
    · cases hl : i.flags.isLoading with
      | false => rfl
      | true =>
        rcases hex.pending a i hi hv hl hlt hdec with ⟨r, hr, -⟩ | hat
        · rw [hstack] at hr
          cases hr
        · exact absurd hat (hnot a hlt)
    · rcases hex.successors a i hi hv hl b hb with hsome | hat
      · exact hsome
      · exact absurd hat (hnot b hb.1)

theorem analyzeCode_registers_entry {n : Nat} {found : Owner}
    (h : analyzeCode cfg img obs owner entry n = .inr (.ok found)) (hlt : entry < cfg.maxOffset)
    (hdec : img.decodes entry) : (found.presenceVec entry).isSome = true := by
  rcases analyzeCode_ok h with ⟨rfl, hsome⟩ | ⟨m, s, hm, hlast⟩
  · exact hsome
  · obtain ⟨hgo, -, rfl⟩ := iterate_ok hlast
    rcases analyzeCode_covers_entry hlt hdec hm with hsome | ⟨he, hnr⟩
    · exact hsome
    · rcases hgo with hge | hr
      · rw [← he] at hge
        exact absurd hlt (Nat.not_lt.mpr hge)
      · rw [hnr] at hr
        cases hr

/-- In a settled owner the valid instructions lead to registered ones. -/
theorem RootReach.registered {o : Owner} (hset : Settled cfg.maxOffset img obs o)
    (hentry : entry < cfg.maxOffset → img.decodes entry → (o.presenceVec entry).isSome = true)
    (hvalid : ∀ a, RootReach cfg img obs entry a → ¬ invalidAt o a) {a : Nat}
    (ha : RootReach cfg img obs entry a) :
    ∃ i, o.presenceVec a = some i ∧ i.flags.invalid = false := by
  have hflag : ∀ {b}, RootReach cfg img obs entry b → (o.presenceVec b).isSome = true →
      ∃ i, o.presenceVec b = some i ∧ i.flags.invalid = false := by
    intro b hb hsome
    obtain ⟨i, hi⟩ := Option.isSome_iff_exists.mp hsome
    refine ⟨i, hi, ?_⟩
    cases hv : i.flags.invalid with
    | false => rfl
    | true => exact absurd ⟨i, hi, hv⟩ (hvalid b hb)
  -- one step from an instruction that is registered and valid
  have hstep : ∀ {b c}, RootReach cfg img obs entry b →
      (∃ i, o.presenceVec b = some i ∧ i.flags.invalid = false) →
      Successor cfg.maxOffset img obs b c → (o.presenceVec c).isSome = true := by
    rintro b c hb ⟨i, hi, hv⟩ hsucc
    exact hset.successors b i hi hv (hset.constructed b i hi hv hb.lt hb.decodes) c hsucc
  induction ha with
  | entry hlt hdec => exact hflag (.entry hlt hdec) (hentry hlt hdec)
  | fall hb hr hf hlt hdec ih =>
    exact hflag (.fall hb hr hf hlt hdec) (hstep hb ih ⟨hlt, hdec, _, hr, Or.inl ⟨hf, rfl⟩⟩)
  | branch hb hr ht hlt hdec ih =>
    exact hflag (.branch hb hr ht hlt hdec) (hstep hb ih ⟨hlt, hdec, _, hr, Or.inr ht⟩)

/-- The owners of an image: a new one, or what successful analyses left of one. -/
inductive Analysed (maxOffset : Nat) (img : Image) (obs : Observer) : Owner → Prop where
  | init (n m : Nat) : Analysed maxOffset img obs (Owner.init n m)
  | next {cfg : Config} {owner found : Owner} {entry n : Nat} (hmax : cfg.maxOffset = maxOffset)
      (howner : Analysed maxOffset img obs owner)
      (h : analyzeCode cfg img obs owner entry n = .inr (.ok found)) :
      Analysed maxOffset img obs found

theorem Analysed.settled {maxOffset : Nat} {o : Owner} (h : Analysed maxOffset img obs o) :
    Settled maxOffset img obs o := by
  induction h with
  | init n m => exact ⟨fun _ _ h => (nomatch h), fun _ _ h => (nomatch h)⟩
  | next hmax _ h ih =>
    subst hmax
    exact analyzeCode_settled ih h

theorem valid_not_invalidAt {o : Owner} {a : Nat}
    (h : ∃ i, o.presenceVec a = some i ∧ i.flags.invalid = false) : ¬ invalidAt o a := by
  obtain ⟨i, hi, hv⟩ := h
  rintro ⟨j, hj, hjv⟩
  rw [hi] at hj
  cases hj
  rw [hv] at hjv
  cases hjv

/-- There are no turns for an entry that is registered. -/
theorem analyzeCode_registered (h : (owner.presenceVec entry).isSome = true) (k : Nat)
    (s : Session) : analyzeCode cfg img obs owner entry k ≠ .inl s := by
  obtain ⟨i, hi⟩ := Option.isSome_iff_exists.mp h
  rw [analyzeCode, analyzeCodeEx2, Owner.getInstruction, hi]
  intro h
  cases h

/-- After a successful analysis all root-reachable code is registered and valid if and only if none
of it was invalid before and no turn of the analysis rolled a route back that held some of it. -/
theorem analyzeCode_rootReach_iff (howner : Analysed cfg.maxOffset img obs owner) {n : Nat}
    {found : Owner} (hfound : analyzeCode cfg img obs owner entry n = .inr (.ok found)) :
    (∀ a, RootReach cfg img obs entry a →
        ∃ i, found.presenceVec a = some i ∧ i.flags.invalid = false) ↔
      (∀ a, RootReach cfg img obs entry a → ¬ invalidAt owner a) ∧
        ∀ m s u, analyzeCode cfg img obs owner entry m = .inl s → nextSession cfg s = some u →
          rollsBack cfg img u → ∀ a ∈ rollbackOffsets u, ¬ RootReach cfg img obs entry a := by
  have hset := howner.settled
  constructor
  · intro hall
    rcases analyzeCode_ok hfound with ⟨rfl, hsome⟩ | ⟨m, s, hm, hlast⟩
    · refine ⟨fun a ha hinv => valid_not_invalidAt (hall a ha) hinv, ?_⟩
      intro k s u hs
      exact absurd hs (analyzeCode_registered hsome k s)
    · obtain ⟨hgo, hstack, rfl⟩ := iterate_ok hlast
      have hinv := invalidAt_analyzeCode hset hm
      refine ⟨fun a ha h => valid_not_invalidAt (hall a ha) ((hinv a).mpr (Or.inl h)), ?_⟩
      intro k s' u hs' hu hr a ha hreach
      refine valid_not_invalidAt (hall a hreach)
        ((hinv a).mpr (Or.inr ⟨k, s', u, ?_, hs', hu, hr, ha⟩))
      by_contra hle
      rcases Nat.eq_or_lt_of_le (Nat.le_of_not_lt hle) with rfl | hlt
      · -- the last turn finds no route
        rw [hm] at hs'
        cases hs'
        rw [nextSession, if_pos hgo, hstack] at hu
        cases hu
      · have hrun := analyzeCode_inl hm
        rw [hrun] at hm hs'
        have hend := (runFrom_succ hm).trans hlast
        obtain ⟨d, rfl⟩ := Nat.exists_eq_add_of_le hlt
        rw [runFrom_inr_mono hend d] at hs'
        cases hs'
  · rintro ⟨hbefore, hroll⟩ a ha
    refine ha.registered (analyzeCode_settled hset hfound)
      (analyzeCode_registers_entry hfound) fun b hb hinv => ?_
    rcases analyzeCode_ok hfound with ⟨rfl, -⟩ | ⟨m, s, hm, hlast⟩
    · exact hbefore b hb hinv
    · obtain ⟨-, -, rfl⟩ := iterate_ok hlast
      rcases (invalidAt_analyzeCode hset hm b).mp hinv with hinv | ⟨k, s', u, -, hs', hu, hr, hbu⟩
      · exact hbefore b hb hinv
      · exact hroll k s' u hs' hu hr b hbu hb

/-- Thirteen bytes of 32-bit code. -/
def thirteenBytes : Config := ⟨13, by decide, true, false⟩

/-- `jz 8; push 100Ah; ret; jmp 11; nop; nop` and the byte `0F`. -/
def sharedTail : Image where
  parseCmd
    | 0 => .ok ⟨2, some ⟨true, false, false, true, 0⟩, [.rel 6], false⟩
    | 2 => .ok ⟨5, none, [.imm 0x100A], false⟩
    | 7 => .ok ⟨1, some ⟨true, false, true, false, 0⟩, [], false⟩
    | 8 => .ok ⟨2, some ⟨true, false, false, false, 0⟩, [.rel 1], false⟩
    | 10 => .ok ⟨1, none, [], false⟩
    | 11 => .ok ⟨1, none, [], false⟩
    | _ => .error .endOfStream
  readPointer _ _ := none

/-- The image is loaded at 1000h. -/
def at1000 : Observer where
  analyzeAddress address absolute :=
    if absolute then
      if 0x1000 ≤ address ∧ address < 0x100D then (address - 0x1000, .normal)
        else (address, .external)
    else if address < 13 then (address, .normal) else (address + 0x1000, .external)

/-- From the `push` on: the two `nop`s are rolled back and nothing else leads to them. -/
theorem analyzeCode_rootReach_push : ∃ found,
    analyzeCode thirteenBytes sharedTail at1000 (Owner.init 13 0) 2 6 = .inr (.ok found) ∧
    ((∀ a, RootReach thirteenBytes sharedTail at1000 2 a →
        ∃ i, found.presenceVec a = some i ∧ i.flags.invalid = false) ↔
      (∀ a, RootReach thirteenBytes sharedTail at1000 2 a → ¬ invalidAt (Owner.init 13 0) a) ∧
        ∀ m s u, analyzeCode thirteenBytes sharedTail at1000 (Owner.init 13 0) 2 m = .inl s →
          nextSession thirteenBytes s = some u → rollsBack thirteenBytes sharedTail u →
          ∀ a ∈ rollbackOffsets u, ¬ RootReach thirteenBytes sharedTail at1000 2 a) :=
  ⟨_, rfl, analyzeCode_rootReach_iff (.init 13 0) (n := 6) rfl⟩

/-- The second `nop` is first constructed on the route of the pushed address, which runs into the
byte `0F` and is rolled back. The jump to it comes too late. -/
theorem analyzeCode_loses_jump_target :
    ¬ ∀ n found, analyzeCode thirteenBytes sharedTail at1000 (Owner.init 13 0) 0 n =
        .inr (.ok found) →
      ∀ a, RootReach thirteenBytes sharedTail at1000 0 a →
        ∃ i, found.presenceVec a = some i ∧ i.flags.invalid = false := by
  intro hall
  have h0 : RootReach thirteenBytes sharedTail at1000 0 0 := .entry (by decide) ⟨_, rfl⟩
  have h8 : RootReach thirteenBytes sharedTail at1000 0 8 := .branch h0 rfl rfl (by decide) ⟨_, rfl⟩
  have h11 : RootReach thirteenBytes sharedTail at1000 0 11 :=
    .branch h8 rfl rfl (by decide) ⟨_, rfl⟩
  have hinv : ∃ found, analyzeCode thirteenBytes sharedTail at1000 (Owner.init 13 0) 0 8 =
      .inr (.ok found) ∧ invalidAt found 11 := ⟨_, rfl, _, rfl, rfl⟩
  obtain ⟨found, hfound, h⟩ := hinv
  exact valid_not_invalidAt (hall 8 found hfound 11 h11) h

end Runs

end Diana.Analyze
