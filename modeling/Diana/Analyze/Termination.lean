import Diana.Analyze.Session
import Diana.Lib.Check
import Mathlib.Data.Finset.Card
import Mathlib.Data.Finset.Range
import Mathlib.Data.Prod.Lex

/-!
# The analysis terminates

An offset is open while nothing is known at it: no instruction is registered there, or one that is
still loading. Nothing opens an offset again (`Closes`), and a turn that constructs an instruction
closes the offset it is at. New routes are pushed only by such turns. So every turn lowers

* the number of open offsets, or
* with these unchanged, the number of pending routes, or
* with both unchanged, what is left of the image in front of the current route.

Neither the image nor the observer nor the architecture enters: the argument holds for every `Env`.
-/

namespace Diana.Analyze

open Diana.Lib

/-! ## Open offsets -/

/-- Nothing is known at `a` yet. -/
def isOpen (o : Owner) (a : Nat) : Bool :=
  match o.presenceVec a with
  | none => true
  | some i => i.flags.isLoading && !i.flags.invalid

/-- No offset is open in `o'` that was not open in `o`. -/
def Closes (o o' : Owner) : Prop := ∀ a, isOpen o' a = true → isOpen o a = true

theorem Closes.refl (o : Owner) : Closes o o := fun _ h => h

theorem Closes.trans {o₁ o₂ o₃ : Owner} (h₁ : Closes o₁ o₂) (h₂ : Closes o₂ o₃) : Closes o₁ o₃ :=
  fun a h => h₁ a (h₂ a h)

theorem Closes.of_presenceVec {o o' : Owner} (h : o'.presenceVec = o.presenceVec) :
    Closes o o' := by
  intro a ha
  rwa [isOpen, h] at ha

/-- A write to the flags that sets no loading flag and clears no invalid flag. -/
theorem closes_modify {o : Owner} {b : Nat} {f : InstrFlags → InstrFlags}
    (hl : ∀ g, (f g).isLoading = true → g.isLoading = true)
    (hi : ∀ g, (f g).isLoading = true → g.invalid = true → (f g).invalid = true) :
    Closes o (o.modify b f) := by
  intro a ha
  by_cases hab : a = b
  · subst hab
    unfold isOpen at ha ⊢
    rw [Owner.modify_same] at ha
    cases hp : o.presenceVec a with
    | none => rfl
    | some i =>
      rw [hp] at ha
      simp only [Option.map_some, Bool.and_eq_true, Bool.not_eq_true'] at ha ⊢
      refine ⟨hl _ ha.1, ?_⟩
      by_contra hc
      rw [hi _ ha.1 (by simpa using hc)] at ha
      exact absurd ha.2 (by decide)
  · rwa [isOpen, Owner.modify_other hab] at ha

theorem closes_allocate {o : Owner} {b : Nat} {f : InstrFlags} (hnone : o.presenceVec b = none) :
    Closes o (o.allocateInstruction b f) := by
  intro a ha
  by_cases hab : a = b
  · subst hab
    rw [isOpen, hnone]
  · simpa [isOpen, hab] using ha

theorem closes_queryOrAllocate {o o' : Owner} {b : Nat} {f : InstrFlags}
    (h : o.queryOrAllocateInstruction b f = .ok o') : Closes o o' := by
  rcases Owner.queryOrAllocate_cases h with ⟨i, -, rfl⟩ | ⟨hnone, rfl⟩
  · exact Closes.refl o'
  · exact closes_allocate hnone

theorem closes_routeMarker (o : Owner) (b : Nat) : Closes o (o.routeMarker b) := by
  have h : Closes o (o.modify b fun f => { f with invalid := true }) :=
    closes_modify (fun _ h => h) fun _ _ _ => rfl
  exact h.trans (Closes.of_presenceVec rfl)

theorem closes_foldl {f : Owner → Nat → Owner} (hf : ∀ o a, Closes o (f o a)) (l : List Nat)
    (o : Owner) : Closes o (l.foldl f o) := by
  induction l generalizing o with
  | nil => exact Closes.refl o
  | cons a l ih => exact (hf o a).trans (ih (f o a))

theorem addressTakenRouteKeeper_presenceVec (o : Owner) (a : Nat) :
    (o.addressTakenRouteKeeper a).presenceVec = o.presenceVec :=
  Owner.addressTakenRouteKeeper_of (fun _ _ _ => rfl) o a

theorem closes_rollback (s : Session) : Closes s.owner (rollbackCurrentRoute s).owner :=
  (closes_foldl closes_routeMarker _ _).trans
    (closes_foldl (fun o a => Closes.of_presenceVec (addressTakenRouteKeeper_presenceVec o a)) _ _)

/-! ## The operations -/

/-- What the operations of an instruction's analysis may do to a session. -/
structure Acts (cfg : Config) (s t : Session) : Prop where
  closes : Closes s.owner t.owner
  stack : (∀ r ∈ s.stack, r.startOffset < cfg.maxOffset) → ∀ r ∈ t.stack,
    r.startOffset < cfg.maxOffset
  curRoute : t.curRoute = s.curRoute

theorem Acts.refl (cfg : Config) (s : Session) : Acts cfg s s := ⟨Closes.refl _, id, rfl⟩

theorem Acts.trans {cfg : Config} {s t u : Session} (h₁ : Acts cfg s t) (h₂ : Acts cfg t u) :
    Acts cfg s u :=
  ⟨h₁.closes.trans h₂.closes, fun h => h₂.stack (h₁.stack h), h₂.curRoute.trans h₁.curRoute⟩

theorem Acts.of_owner {cfg : Config} {s : Session} {o : Owner} (h : Closes s.owner o) :
    Acts cfg s { s with owner := o } :=
  ⟨h, id, rfl⟩

/-- The target of a route gets its flag and the reference to it. -/
def Owner.refer (o : Owner) (source a : Nat) (questionable addressTaken : Bool) : Owner :=
  (if questionable then o else o.modify a fun f => { f with root := true }).createXRef source
    (.inside a) { addressTaken := addressTaken }

/-- `SaveNewRoute` does nothing, keeps a data reference, adds a reference to a registered
instruction, or registers one with its route. -/
theorem saveNewRoute_cases {cfg : Config} {s t : Session} {source a : Nat}
    {aligned questionable addressTaken : Bool}
    (h : saveNewRoute cfg s source a aligned questionable addressTaken = .ok t) :
    t = s ∨ t = { s with owner := s.owner.saveDataXRef source a true } ∨
      (∃ i, s.owner.presenceVec a = some i ∧
        t = { s with owner := s.owner.refer source a questionable addressTaken }) ∨
      a < cfg.maxOffset ∧ s.owner.presenceVec a = none ∧
        t = { s with
          owner := (s.owner.allocateInstruction a { isLoading := true }).refer source a questionable
            addressTaken
          stack := ⟨a, questionable, []⟩ :: s.stack } := by
  unfold saveNewRoute at h
  split at h
  · cases h
    exact .inl rfl
  · next hlt =>
    split at h
    · split at h
      · cases h
        exact .inr (.inl rfl)
      · cases h
        exact .inl rfl
    · simp only at h
      split at h
      · cases h
        exact .inr (.inl rfl)
      · obtain ⟨o, hq, hrest⟩ := bind_eq_ok.mp h
        rcases Owner.queryOrAllocate_cases hq with ⟨i, hi, rfl⟩ | ⟨hnone, rfl⟩
        · rw [if_pos (by simp [Owner.getInstruction, hi])] at hrest
          cases hrest
          exact .inr (.inr (.inl ⟨i, hi, rfl⟩))
        · rw [if_neg (by simp [Owner.getInstruction, hnone])] at hrest
          cases hrest
          exact .inr (.inr (.inr ⟨Nat.lt_of_not_le hlt, hnone, rfl⟩))

theorem closes_refer (o : Owner) (source a : Nat) (questionable addressTaken : Bool) :
    Closes o (o.refer source a questionable addressTaken) := by
  have hroot : Closes o (if questionable = true then o
      else o.modify a fun f => { f with root := true }) := by
    split
    · exact Closes.refl o
    · exact closes_modify (fun _ h => h) fun _ _ h => h
  exact hroot.trans (Closes.of_presenceVec rfl)

theorem acts_saveNewRoute {cfg : Config} {s t : Session} {source newOffset : Nat}
    {aligned questionable addressTaken : Bool}
    (h : saveNewRoute cfg s source newOffset aligned questionable addressTaken = .ok t) :
    Acts cfg s t := by
  obtain rfl | rfl | ⟨i, -, rfl⟩ | ⟨hlt, hnone, rfl⟩ := saveNewRoute_cases h
  · exact Acts.refl cfg t
  · exact Acts.of_owner (Closes.of_presenceVec rfl)
  · exact Acts.of_owner (closes_refer _ _ _ _ _)
  · have hcl : Closes s.owner (s.owner.allocateInstruction newOffset { isLoading := true }) :=
      closes_allocate hnone
    refine ⟨hcl.trans (closes_refer _ _ _ _ _), fun hs r hr => ?_, rfl⟩
    rcases List.mem_cons.mp hr with rfl | hr
    · exact hlt
    · exact hs r hr

theorem acts_act {cfg : Config} {source : Nat} {s t : Session} {x : Action}
    (h : act cfg source s x = .ok t) : Acts cfg s t := by
  cases x with
  | note n =>
    cases h
    refine Acts.of_owner (closes_modify ?_ ?_)
    · cases n <;> exact fun _ h => h
    · cases n <;> exact fun _ _ h => h
  | saveNewRoute a b c d => exact acts_saveNewRoute h
  | saveDataXRef a b =>
    cases h
    exact Acts.of_owner (Closes.of_presenceVec rfl)
  | saveNewExternalRoute a b c =>
    cases h
    exact Acts.of_owner (Closes.of_presenceVec (Owner.saveNewExternalRoute_presenceVec ..))
  | dropPending a =>
    simp only [act] at h
    split at h
    · cases h
      refine Acts.of_owner (closes_modify ?_ ?_)
      · intro g hg
        split at hg <;> exact hg
      · intro g _ hi
        split
        · rfl
        · exact hi
    · cases h
      exact Acts.refl cfg s
  | markData a b c =>
    simp only [act] at h
    split at h
    · obtain ⟨o, hq, hrest⟩ := bind_eq_ok.mp h
      cases hrest
      exact Acts.of_owner ((closes_queryOrAllocate hq).trans (Closes.of_presenceVec rfl))
    · cases h
      exact Acts.refl cfg s

theorem acts_foldlM {cfg : Config} {source : Nat} (l : List Action) {s t : Session}
    (h : l.foldlM (act cfg source) s = .ok t) : Acts cfg s t :=
  foldlM_rel (Acts.refl cfg) Acts.trans (fun _ _ _ => acts_act) l h

/-! ## One turn -/

/-- After a query the slot is filled. -/
theorem queryOrAllocate_isSome {o o' : Owner} {a : Nat} {f : InstrFlags}
    (h : o.queryOrAllocateInstruction a f = .ok o') : (o'.presenceVec a).isSome = true := by
  unfold Owner.queryOrAllocateInstruction at h
  split at h
  · next i hi =>
    cases h
    rw [hi]
    rfl
  · split at h
    · cases h
    · cases h
      simp

/-- Constructing an instruction closes its offset. -/
theorem constructInstruction_spec {s t : Session} {a : Nat} {w : WordFlags}
    (h : constructInstruction s a w = .ok t) :
    Closes s.owner t.owner ∧ isOpen t.owner a = false ∧ t.stack = s.stack := by
  obtain ⟨o, hq, hrest⟩ := bind_eq_ok.mp h
  cases hrest
  refine ⟨?_, ?_, rfl⟩
  · refine (closes_queryOrAllocate hq).trans ?_
    have hm : ∀ f : InstrFlags, f.isLoading = false → Closes o (o.modify a fun _ => f) := by
      intro f hf
      refine closes_modify ?_ ?_
      · intro g hg
        rw [hf] at hg
        cases hg
      · intro g hg
        rw [hf] at hg
        cases hg
    exact hm _ rfl
  · obtain ⟨i, hi⟩ := Option.isSome_iff_exists.mp (queryOrAllocate_isSome hq)
    simp only [isOpen, Owner.modify_same, hi]
    rfl

theorem analyzeAndConstruct_spec {cfg : Config} {a : Answers} {s t : Session} {next : Nat}
    (h : analyzeAndConstructInstruction cfg a s next = .ok t)
    (hs : ∀ r ∈ s.stack, r.startOffset < cfg.maxOffset) :
    Closes s.owner t.owner ∧ isOpen t.owner s.offset = false ∧
      ∀ r ∈ t.stack, r.startOffset < cfg.maxOffset := by
  obtain ⟨u, hc, h1⟩ := bind_eq_ok.mp h
  obtain ⟨v, hf, h2⟩ := bind_eq_ok.mp h1
  obtain ⟨b, hn, h3⟩ := bind_eq_ok.mp h2
  cases h3
  obtain ⟨hclose, hopen, hstack⟩ := constructInstruction_spec hc
  have hacts := acts_foldlM _ hf
  refine ⟨hclose.trans hacts.closes, ?_, hacts.stack (hstack ▸ hs)⟩
  by_contra hcon
  rw [hacts.closes s.offset (by simpa using hcon)] at hopen
  cases hopen

theorem endTurn_spec (cfg : Config) (arm : Bool) (t : Session) :
    Closes t.owner (endTurn cfg arm t).owner ∧ (endTurn cfg arm t).stack = t.stack := by
  unfold endTurn
  split
  · split
    · exact ⟨closes_rollback t, rfl⟩
    · exact ⟨Closes.refl _, rfl⟩
  · exact ⟨Closes.refl _, rfl⟩

/-- What is left of the image in front of the current route. -/
def remaining (cfg : Config) (s : Session) : Nat :=
  if s.offset ≥ cfg.maxOffset ∨ s.needReset = true then 0 else 1 + (cfg.maxOffset - s.offset)

theorem remaining_reset {cfg : Config} {s : Session} (h : s.needReset = true) :
    remaining cfg s = 0 :=
  if_pos (Or.inr h)

/-- A turn at an offset of the image closes the offset, or keeps the stack and moves on. -/
theorem analyzeOffset_spec {cfg : Config} {env : Env} {s t : Session}
    (h : analyzeOffset cfg env s = .inl t) (hlt : s.offset < cfg.maxOffset)
    (hs : ∀ r ∈ s.stack, r.startOffset < cfg.maxOffset) :
    Closes s.owner t.owner ∧ (∀ r ∈ t.stack, r.startOffset < cfg.maxOffset) ∧
      (isOpen s.owner s.offset = true ∧ isOpen t.owner s.offset = false ∨
        t.stack = s.stack ∧ remaining cfg t < 1 + (cfg.maxOffset - s.offset)) := by
  -- the turns that end the route, with a rollback or without
  have hstop : ∀ {u : Session}, u.stack = s.stack → Closes s.owner u.owner → u.needReset = true →
      Closes s.owner u.owner ∧ (∀ r ∈ u.stack, r.startOffset < cfg.maxOffset) ∧
        (isOpen s.owner s.offset = true ∧ isOpen u.owner s.offset = false ∨
          u.stack = s.stack ∧ remaining cfg u < 1 + (cfg.maxOffset - s.offset)) := by
    intro u hst hcl hr
    refine ⟨hcl, hst ▸ hs, Or.inr ⟨hst, ?_⟩⟩
    rw [remaining_reset hr]
    omega
  -- the turns that construct the instruction
  have hcons : ∀ {a : Answers} {next : Nat}, isOpen s.owner s.offset = true →
      analyzeInstruction cfg a s next = .inl t →
      Closes s.owner t.owner ∧ (∀ r ∈ t.stack, r.startOffset < cfg.maxOffset) ∧
        (isOpen s.owner s.offset = true ∧ isOpen t.owner s.offset = false ∨
          t.stack = s.stack ∧ remaining cfg t < 1 + (cfg.maxOffset - s.offset)) := by
    intro a next hopen ha
    unfold analyzeInstruction at ha
    split at ha
    · cases ha
    · next u hu =>
      cases ha
      obtain ⟨h1, h2, h3⟩ := analyzeAndConstruct_spec hu hs
      obtain ⟨h4, h5⟩ := endTurn_spec cfg a.arm u
      refine ⟨h1.trans h4, h5 ▸ h3, Or.inl ⟨hopen, ?_⟩⟩
      by_contra hcon
      have h2' : isOpen u.owner s.offset = false := h2
      rw [h4 s.offset (by simpa using hcon)] at h2'
      cases h2'
  unfold analyzeOffset at h
  simp only at h
  split at h
  · split at h
    · cases h
      exact hstop rfl (closes_rollback _) rfl
    · cases h
      exact hstop rfl (Closes.refl _) rfl
  · split at h
    · split at h
      · cases h
        exact hstop rfl (closes_rollback _) rfl
      · -- the loop steps over bytes that do not decode
        split at h
        · cases h
        · cases h
          refine ⟨Closes.refl _, hs, Or.inr ⟨rfl, ?_⟩⟩
          have hpos := (env.answers s).alignment_pos
          have hle := (env.answers s).alignment_le
          have hmax := cfg.maxOffset_le
          unfold remaining wrap
          simp only
          split <;> omega
    · split at h
      · next i hi =>
        split at h
        · split at h
          · cases h
            exact hstop rfl (closes_rollback _) rfl
          · cases h
            exact hstop rfl (Closes.refl _) rfl
        · next hinv =>
          split at h
          · cases h
            exact hstop rfl (Closes.refl _) rfl
          · next hload =>
            refine hcons ?_ h
            have hp : s.owner.presenceVec s.offset = some i := hi
            simp only [Bool.not_eq_true, Bool.not_eq_false'] at hinv hload
            simp [isOpen, hp, hinv, hload]
      · next hi =>
        refine hcons ?_ h
        have hp : s.owner.presenceVec s.offset = none := hi
        simp [isOpen, hp]

/-! ## The measure -/

/-- The number of open offsets of the image. -/
def openCount (cfg : Config) (o : Owner) : Nat :=
  ((Finset.range cfg.maxOffset).filter fun a => isOpen o a = true).card

theorem openCount_le {cfg : Config} {o o' : Owner} (h : Closes o o') :
    openCount cfg o' ≤ openCount cfg o := by
  refine Finset.card_le_card fun a ha => ?_
  rw [Finset.mem_filter] at ha ⊢
  exact ⟨ha.1, h a ha.2⟩

theorem openCount_lt {cfg : Config} {o o' : Owner} {a : Nat} (h : Closes o o')
    (ha : a < cfg.maxOffset) (h1 : isOpen o a = true) (h2 : isOpen o' a = false) :
    openCount cfg o' < openCount cfg o := by
  refine Finset.card_lt_card (Finset.ssubset_iff_of_subset ?_ |>.mpr ⟨a, ?_, ?_⟩)
  · intro b hb
    rw [Finset.mem_filter] at hb ⊢
    exact ⟨hb.1, h b hb.2⟩
  · rw [Finset.mem_filter, Finset.mem_range]
    exact ⟨ha, h1⟩
  · rw [Finset.mem_filter, h2]
    exact fun hb => absurd hb.2 (by decide)

/-- Open offsets, pending routes, what is left of the current one. -/
def progress (cfg : Config) (s : Session) : Nat × Nat × Nat :=
  (openCount cfg s.owner, s.stack.length, remaining cfg s)

/-- The lexicographic order of `progress`. -/
def progressLt : Nat × Nat × Nat → Nat × Nat × Nat → Prop :=
  Prod.Lex (· < ·) (Prod.Lex (· < ·) (· < ·))

theorem progressLt_wf : WellFounded progressLt :=
  WellFounded.prod_lex Nat.lt_wfRel.wf (WellFounded.prod_lex Nat.lt_wfRel.wf Nat.lt_wfRel.wf)

theorem progressLt_of {a a' b b' c c' : Nat}
    (h : a' < a ∨ a' ≤ a ∧ (b' < b ∨ b' = b ∧ c' < c)) : progressLt (a', b', c') (a, b, c) := by
  rcases h with h | ⟨ha, h⟩
  · exact Prod.Lex.left _ _ h
  · rcases Nat.lt_or_eq_of_le ha with ha | rfl
    · exact Prod.Lex.left _ _ ha
    · refine Prod.Lex.right _ ?_
      rcases h with h | ⟨rfl, h⟩
      · exact Prod.Lex.left _ _ h
      · exact Prod.Lex.right _ h

/-- Every turn keeps the pending routes inside the image and lowers the measure. -/
theorem iterate_progress {cfg : Config} {env : Env} {s t : Session}
    (h : iterate cfg env s = .inl t) (hs : ∀ r ∈ s.stack, r.startOffset < cfg.maxOffset) :
    (∀ r ∈ t.stack, r.startOffset < cfg.maxOffset) ∧
      progressLt (progress cfg t) (progress cfg s) := by
  unfold iterate at h
  split at h
  · split at h
    · cases h
    · next route rest hstack =>
      split at h
      · cases h
      · have hlt : route.startOffset < cfg.maxOffset := hs route (by rw [hstack]; simp)
        have hs' : ∀ r ∈ rest, r.startOffset < cfg.maxOffset :=
          fun r hr => hs r (by rw [hstack]; exact List.mem_cons_of_mem _ hr)
        obtain ⟨hcl, hst, hcase⟩ := analyzeOffset_spec h hlt hs'
        refine ⟨hst, progressLt_of ?_⟩
        rcases hcase with ⟨h1, h2⟩ | ⟨h1, -⟩
        · exact Or.inl (openCount_lt hcl hlt h1 h2)
        · refine Or.inr ⟨openCount_le hcl, Or.inl ?_⟩
          rw [h1, hstack]
          exact Nat.lt_succ_self _
  · next hgo =>
    obtain ⟨hoff, hreset⟩ := not_or.mp hgo
    have hlt : s.offset < cfg.maxOffset := Nat.lt_of_not_le hoff
    obtain ⟨hcl, hst, hcase⟩ := analyzeOffset_spec h hlt hs
    refine ⟨hst, progressLt_of ?_⟩
    rcases hcase with ⟨h1, h2⟩ | ⟨h1, h2⟩
    · exact Or.inl (openCount_lt hcl hlt h1 h2)
    · refine Or.inr ⟨openCount_le hcl, Or.inr ⟨by rw [h1], ?_⟩⟩
      rw [show remaining cfg s = 1 + (cfg.maxOffset - s.offset) from if_neg hgo]
      exact h2

/-- The loop of `Diana_AnalyzeCodeImpl` is left after finitely many turns, whatever the image, the
observer and the architecture answer at each of them, and whatever earlier analyses registered. -/
theorem analyzeCodeImpl_terminates (cfg : Config) (env : Nat → Env) (owner : Owner)
    (initialOffset : Nat) :
    ∃ n status, analyzeCodeImpl cfg env owner initialOffset n = .inr status := by
  have hstart : ∀ r ∈ (startSession owner initialOffset).stack, r.startOffset < cfg.maxOffset :=
    fun _ hr => absurd hr List.not_mem_nil
  exact exists_runFrom_inr progressLt_wf (progress cfg)
    (fun k s t hs (h : iterate cfg (env k) s = .inl t) => (iterate_progress h hs).1)
    (fun k s t hs h => (iterate_progress h hs).2) hstart

end Diana.Analyze
