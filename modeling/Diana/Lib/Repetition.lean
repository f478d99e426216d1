import Diana.Lib.Post

/-!
# Loops that can be taken up again

A loop repeats one element as long as a counter lasts and a condition holds, and ends where an
element fails. Where it is left between two elements it can be entered again.

* `Turns`: the elements that were completed; `Ends`: how the loop ends; `Runs`: the one after the
  other;
* `Turns.runs_iff`: the run from a state in between is the rest of the run from the start;
* `Runs.unique`: there is one run.
-/

namespace Diana.Lib

/-- What is repeated: the element, whether the counter lasts, its next value, and whether the loop
goes on then. -/
structure Repetition (ε σ : Type) where
  element : EStateM ε σ Unit
  pending : σ → Prop
  tick : σ → σ
  goesOn : σ → Prop

namespace Repetition

variable {ε σ : Type} (L : Repetition ε σ)

/-- `n` completed elements lead from one state to the other, and the loop has not ended. -/
inductive Turns : Nat → σ → σ → Prop
  | refl (s : σ) : Turns 0 s s
  | step {n : Nat} {s t u : σ} (pending : L.pending s) (element : L.element s = .ok () t)
      (goesOn : L.goesOn (L.tick t)) (rest : Turns n (L.tick t) u) : Turns (n + 1) s u

/-- The end of the loop in a state. -/
inductive Ends : σ → EStateM.Result ε σ Unit → Prop
  | done {s : σ} (h : ¬ L.pending s) : Ends s (.ok () s)
  | stop {s t : σ} (pending : L.pending s) (element : L.element s = .ok () t)
  (h : ¬ L.goesOn (L.tick t)) :
      Ends s (.ok () (L.tick t))
  | fault {s t : σ} {e : ε} (pending : L.pending s) (element : L.element s = .error e t) :
  Ends s (.error e t)

/-- The loop, from a state to its result. -/
def Runs (s : σ) (r : EStateM.Result ε σ Unit) : Prop := ∃ n t, L.Turns n s t ∧ L.Ends t r

variable {L} {n k : Nat} {s t u : σ} {r r' : EStateM.Result ε σ Unit}

theorem Ends.runs (h : L.Ends s r) : L.Runs s r := ⟨0, s, .refl s, h⟩

theorem Runs.step (pending : L.pending s) (element : L.element s = .ok () t)
    (goesOn : L.goesOn (L.tick t)) (h : L.Runs (L.tick t) r) : L.Runs s r := by
  obtain ⟨n, u, hturns, hends⟩ := h
  exact ⟨n + 1, u, .step pending element goesOn hturns, hends⟩

/-- The first element of a run. -/
theorem Runs.cases (h : L.Runs s r) :
    L.Ends s r ∨ ∃ t, L.pending s ∧ L.element s = .ok () t ∧ L.goesOn (L.tick t) ∧ L.Runs
    (L.tick t) r := by
  obtain ⟨n, u, hturns, hends⟩ := h
  cases hturns with
  | refl => exact .inl hends
  | step pending element goesOn rest => exact .inr ⟨_, pending, element, goesOn, _, u, rest, hends⟩

/-- Two ways on from one state: they agree. -/
theorem Ends.unique (h : L.Ends s r) (h' : L.Runs s r') : r = r' := by
  rcases h'.cases with h' | ⟨t', hpending, helement, hgoes, -⟩
  · cases h with
    | done hs =>
      cases h' with
      | done => rfl
      | stop hp | fault hp => exact absurd hp hs
    | stop hp he hs =>
      cases h' with
      | done hs' => exact absurd hp hs'
      | stop _ he' => cases he.symm.trans he'; rfl
      | fault _ he' => cases he.symm.trans he'
    | fault hp he =>
      cases h' with
      | done hs' => exact absurd hp hs'
      | stop _ he' => cases he.symm.trans he'
      | fault _ he' => cases he.symm.trans he'; rfl
  · cases h with
    | done hs => exact absurd hpending hs
    | stop _ he hs =>
      cases he.symm.trans helement
      exact absurd hgoes hs
    | fault _ he => cases he.symm.trans helement

/-- The run from a state in between is the rest of the run. -/
theorem Turns.runs_iff (h : L.Turns n s t) : L.Runs s r ↔ L.Runs t r := by
  induction h with
  | refl => exact Iff.rfl
  | step pending element goesOn rest ih =>
    refine ⟨fun hr => ih.1 ?_, fun hr => .step pending element goesOn (ih.2 hr)⟩
    rcases hr.cases with hends | ⟨t', -, helement, -, hrest⟩
    · cases hends with
      | done hs => exact absurd pending hs
      | stop _ he hs =>
        cases he.symm.trans element
        exact absurd goesOn hs
      | fault _ he => cases he.symm.trans element
    · cases element.symm.trans helement
      exact hrest

theorem Runs.unique (h : L.Runs s r) (h' : L.Runs s r') : r = r' := by
  obtain ⟨n, t, hturns, hends⟩ := h
  exact hends.unique (hturns.runs_iff.1 h')

/-- A run that failed has completed the elements before the one that did. -/
theorem Runs.error {e : ε} (h : L.Runs s (.error e u)) :
    ∃ n t, L.Turns n s t ∧ L.pending t ∧ L.element t = .error e u := by
  obtain ⟨n, t, hturns, hends⟩ := h
  cases hends with
  | fault pending element => exact ⟨n, t, hturns, pending, element⟩

/-- A loop ends in one state. -/
theorem Turns.end_unique {t' : σ} (h : L.Turns n s t) (hr : L.Ends t r) (h' : L.Turns k s t')
    (hr' : L.Ends t' r') : t = t' := by
  induction h generalizing k with
  | refl s =>
    cases h' with
    | refl => rfl
    | step pending element goesOn rest =>
      cases hr with
      | done hs => exact absurd pending hs
      | stop _ he hs =>
        cases he.symm.trans element
        exact absurd goesOn hs
      | fault _ he => cases he.symm.trans element
  | step pending element goesOn rest ih =>
    cases h' with
    | refl =>
      cases hr' with
      | done hs => exact absurd pending hs
      | stop _ he hs =>
        cases he.symm.trans element
        exact absurd goesOn hs
      | fault _ he => cases he.symm.trans element
    | step _ element' _ rest' =>
      cases element.symm.trans element'
      exact ih hr rest'

/-- What every element and the counter preserve holds after the completed elements. -/
theorem Turns.invariant {P : σ → Prop}
    (hP : ∀ s t, P s → L.pending s → L.element s = .ok () t → P (L.tick t))
    (h : L.Turns n s t) (hs : P s) : P t := by
  induction h with
  | refl => exact hs
  | step pending element goesOn rest ih => exact ih (hP _ _ hs pending element)

end Repetition

end Diana.Lib
