import Mathlib.Algebra.Group.Int.Defs
import Mathlib.Algebra.Group.Nat.Defs
import Mathlib.Tactic.Common

/-!
# Postconditions

A computation with a state and failures that keep the state (`EStateM`): what holds where it ends.

* `after x s`: the state in which the run of `x` from `s` ends.
* `Post x s Q E`: the run of `x` from `s` ends in `Q` with its value or in `E` with its failure.
* `Keeps R x`: every run of `x` ends in a state that `R` relates to the one it started from.
* `Yields R Q x`: it also ends with a value of `Q`, if with one.
* `Adds P`: a trace gets longer, by elements of `P`.
* `Cuts log x y`: `x` is `y`, perhaps cut short by a failure.
* `Ends x Q E`: from every state, `x` ends with a value of `Q` or a failure of `E`.
-/

namespace Diana.Lib

variable {ε σ α β : Type}

/-! ## Runs -/

section

variable {x : EStateM ε σ α} {f : α → EStateM ε σ β} {s t : σ} {a : α} {e : ε}

theorem bind_of_ok (hx : x s = .ok a t) : (x >>= f) s = f a t := by
  change EStateM.bind x f s = _
  unfold EStateM.bind
  rw [hx]

theorem bind_of_error (hx : x s = .error e t) : (x >>= f) s = .error e t := by
  change EStateM.bind x f s = _
  unfold EStateM.bind
  rw [hx]

@[simp] theorem get_bind {f : σ → EStateM ε σ β} : (get >>= f) s = f s s := rfl

@[simp] theorem set_bind {f : PUnit → EStateM ε σ β} :
    ((set t : EStateM ε σ PUnit) >>= f) s = f ⟨⟩ t := rfl

@[simp] theorem modify_bind {g : σ → σ} {f : PUnit → EStateM ε σ β} :
    ((modify g : EStateM ε σ PUnit) >>= f) s = f ⟨⟩ (g s) := rfl

@[simp] theorem modify_apply {g : σ → σ} : (modify g : EStateM ε σ PUnit) s = .ok ⟨⟩ (g s) := rfl

@[simp] theorem pure_apply : (pure a : EStateM ε σ α) s = .ok a s := rfl

@[simp] theorem throw_apply : (throw e : EStateM ε σ α) s = .error e s := rfl

end

/-- The state in which the run of `x` from `s` ends, with a value or with a failure. -/
def after (x : EStateM ε σ α) (s : σ) : σ :=
  match x s with
  | .ok _ t => t
  | .error _ t => t

section

variable {x : EStateM ε σ α} {s t : σ} {a : α} {e : ε}

theorem after_of_ok (hx : x s = .ok a t) : after x s = t := by
  unfold after
  rw [hx]

theorem after_of_error (hx : x s = .error e t) : after x s = t := by
  unfold after
  rw [hx]

end

/-! ## Postconditions -/

/-- The run of `x` from `s` ends in `Q` with its value or in `E` with its failure. -/
def Post (x : EStateM ε σ α) (s : σ) (Q : α → σ → Prop) (E : ε → σ → Prop) : Prop :=
  match x s with
  | .ok a t => Q a t
  | .error e t => E e t

section

variable {x : EStateM ε σ α} {f : α → EStateM ε σ β} {s t : σ} {a : α} {e : ε}
  {Q Q' : α → σ → Prop} {R : β → σ → Prop} {E E' : ε → σ → Prop}

theorem Post.ok (h : Post x s Q E) (hx : x s = .ok a t) : Q a t := by
  unfold Post at h
  rw [hx] at h
  exact h

theorem Post.error (h : Post x s Q E) (hx : x s = .error e t) : E e t := by
  unfold Post at h
  rw [hx] at h
  exact h

theorem post_of_ok (hx : x s = .ok a t) : Post x s Q E ↔ Q a t := by
  unfold Post
  rw [hx]

theorem post_of_error (hx : x s = .error e t) : Post x s Q E ↔ E e t := by
  unfold Post
  rw [hx]

theorem Post.mono (h : Post x s Q E) (hQ : ∀ a t, Q a t → Q' a t) (hE : ∀ e t, E e t → E' e t) :
    Post x s Q' E' := by
  unfold Post at h ⊢
  cases hx : x s with
  | ok a t =>
    rw [hx] at h
    exact hQ a t h
  | error e t =>
    rw [hx] at h
    exact hE e t h

@[simp] theorem post_pure : Post (pure a : EStateM ε σ α) s Q E ↔ Q a s := Iff.rfl

@[simp] theorem post_throw : Post (throw e : EStateM ε σ α) s Q E ↔ E e s := Iff.rfl

@[simp] theorem post_get {Q : σ → σ → Prop} : Post (get : EStateM ε σ σ) s Q E ↔ Q s s := Iff.rfl

@[simp] theorem post_set {Q : PUnit → σ → Prop} :
    Post (set t : EStateM ε σ PUnit) s Q E ↔ Q ⟨⟩ t := Iff.rfl

@[simp] theorem post_modify {g : σ → σ} {Q : PUnit → σ → Prop} :
    Post (modify g : EStateM ε σ PUnit) s Q E ↔ Q ⟨⟩ (g s) := Iff.rfl

@[simp] theorem post_bind :
    Post (x >>= f) s R E ↔ Post x s (fun a t => Post (f a) t R E) E := by
  unfold Post
  change (match EStateM.bind x f s with | .ok a t => R a t | .error e t => E e t) ↔ _
  unfold EStateM.bind
  cases x s <;> exact Iff.rfl

/-- Where only the value counts, the first part of a computation does not. -/
theorem post_bind_of_forall (h : ∀ a t, Post (f a) t R fun _ _ => True) :
    Post (x >>= f) s R fun _ _ => True := by
  rw [post_bind]
  unfold Post
  cases x s with
  | ok a t => exact h a t
  | error e t => trivial

theorem post_ite {c : Prop} [Decidable c] {y : EStateM ε σ α} (hx : c → Post x s Q E)
    (hy : ¬ c → Post y s Q E) : Post (if c then x else y) s Q E := by
  split
  · exact hx ‹_›
  · exact hy ‹_›

end

/-! ## Relations between the state before and the state after -/

/-- Every run of `x` ends in a state that `R` relates to the one it started from. -/
def Keeps (R : σ → σ → Prop) (x : EStateM ε σ α) : Prop :=
  ∀ s, Post x s (fun _ t => R s t) (fun _ t => R s t)

namespace Keeps

variable {R : σ → σ → Prop} {x y : EStateM ε σ α} {f : α → EStateM ε σ β}

section

variable [Std.Refl R]

protected theorem pure (a : α) : Keeps R (pure a : EStateM ε σ α) := fun s => refl_of R s

protected theorem throw (e : ε) : Keeps R (throw e : EStateM ε σ α) := fun s => refl_of R s

protected theorem get : Keeps R (get : EStateM ε σ σ) := fun s => refl_of R s

end

protected theorem modify {g : σ → σ} (h : ∀ s, R s (g s)) :
    Keeps R (modify g : EStateM ε σ PUnit) := h

protected theorem bind [IsTrans σ R] (hx : Keeps R x) (hf : ∀ a, Keeps R (f a)) :
    Keeps R (x >>= f) := by
  intro s
  refine post_bind.2 ((hx s).mono ?_ fun _ _ h => h)
  intro a t ht
  exact (hf a t).mono (fun _ _ h => trans_of R ht h) fun _ _ h => trans_of R ht h

protected theorem ite {c : Prop} [Decidable c] (hx : Keeps R x) (hy : Keeps R y) :
    Keeps R (if c then x else y) := by
  split
  · exact hx
  · exact hy

theorem mono {R' : σ → σ → Prop} (hx : Keeps R x) (h : ∀ s t, R s t → R' s t) : Keeps R' x :=
  fun s => (hx s).mono (fun _ t => h s t) fun _ t => h s t

/-- A computation that only reads keeps every reflexive relation. -/
theorem of_eq [Std.Refl R] (hx : Keeps Eq x) : Keeps R x :=
  hx.mono fun s _ h => h ▸ refl_of R s

/-- Steps of `R` before steps of `R'`. -/
theorem comp {R' R'' : σ → σ → Prop} (hx : Keeps R x) (hf : ∀ a, Keeps R' (f a))
    (hl : ∀ s t, R s t → R'' s t) (h : ∀ s t u, R s t → R' t u → R'' s u) :
    Keeps R'' (x >>= f) := by
  intro s
  refine post_bind.2 ((hx s).mono ?_ fun _ t => hl s t)
  intro a t ht
  exact (hf a t).mono (fun _ u => h s t u ht) fun _ u => h s t u ht

end Keeps

/-- Every run of `x` keeps `R`, and its value is in `Q`. -/
def Yields (R : σ → σ → Prop) (Q : α → Prop) (x : EStateM ε σ α) : Prop :=
  ∀ s, Post x s (fun a t => Q a ∧ R s t) fun _ t => R s t

section

variable {R : σ → σ → Prop} {Q : α → Prop} {Q' : β → Prop} {x y : EStateM ε σ α} {f : α →
  EStateM ε σ β}

theorem Keeps.yields (h : Keeps R x) :
    Yields R (fun _ => True) x := fun s => (h s).mono (fun _ _ h => ⟨trivial, h⟩) fun _ _ h => h

namespace Yields

protected theorem pure [Std.Refl R] {a : α} (h : Q a) :
    Yields R Q (pure a : EStateM ε σ α) := fun s => ⟨h, refl_of R s⟩

protected theorem throw [Std.Refl R] (e : ε) :
    Yields R Q (throw e : EStateM ε σ α) := fun s => refl_of R s

protected theorem bind [IsTrans σ R] (hx : Yields R Q x) (hf : ∀ a, Q a → Yields R Q' (f a)) :
    Yields R Q' (x >>= f) := by
  intro s
  refine post_bind.2 ((hx s).mono ?_ fun _ _ h => h)
  intro a t ht
  exact (hf a ht.1 t).mono (fun _ _ h => ⟨h.1, trans_of R ht.2 h.2⟩) fun _ _ h => trans_of R ht.2 h

protected theorem ite {c : Prop} [Decidable c] (hx : c → Yields R Q x) (hy : ¬ c → Yields R Q y) :
    Yields R Q (if c then x else y) := fun s => post_ite (fun h => hx h s) fun h => hy h s

theorem keeps (h : Yields R Q x) :
    Keeps R x := fun s => (h s).mono (fun _ _ h => h.2) fun _ _ h => h

theorem keeps_bind [IsTrans σ R] (hx : Yields R Q x) (hf : ∀ a, Q a → Keeps R (f a)) :
    Keeps R (x >>= f) :=
  (hx.bind fun a ha => (hf a ha).yields).keeps

end Yields

end

/-! ## Traces -/

/-- Elements of `P` are added to a trace. -/
def Adds (P : α → Prop) (log log' : List α) : Prop := ∃ new, log' = log ++ new ∧ ∀ a ∈ new, P a

instance (P : α → Prop) :
    Std.Refl (Adds P) := ⟨fun log => ⟨[], (List.append_nil log).symm, fun _ h => nomatch h⟩⟩

instance (P : α → Prop) : IsTrans (List α) (Adds P) where
  trans := by
    rintro _ _ _ ⟨new, rfl, hnew⟩ ⟨new', rfl, hnew'⟩
    refine ⟨new ++ new', List.append_assoc _ _ _, fun a ha => ?_⟩
    rcases List.mem_append.1 ha with ha | ha
    · exact hnew a ha
    · exact hnew' a ha

theorem keeps_modify_append {P : α → Prop} {a : α} (h : P a) :
    Keeps (Adds P) (modify (· ++ [a]) : EStateM ε (List α) PUnit) := fun _ =>
  ⟨[a], rfl, fun _ ha => List.mem_singleton.1 ha ▸ h⟩

/-! ## Runs cut short -/

/-- What `y` does only adds to the trace, and `x` does the same, or fails with a part of the
trace. -/
def Cuts {γ : Type} (log : σ → List γ) (x y : EStateM ε σ α) : Prop := ∀ s,
  log s <+: log (after y s) ∧ (x s = y s ∨ ∃ e t, x s = .error e t ∧ log t <+: log (after y s))

namespace Cuts

variable {γ : Type} {log : σ → List γ} {x y : EStateM ε σ α} {f g : α → EStateM ε σ β}

protected theorem pure (a : α) : Cuts log (pure a : EStateM ε σ α) (pure a) := fun _ =>
  ⟨List.prefix_rfl, .inl rfl⟩

protected theorem throw (e : ε) : Cuts log (throw e : EStateM ε σ α) (throw e) := fun _ =>
  ⟨List.prefix_rfl, .inl rfl⟩

protected theorem bind (hx : Cuts log x y) (hf : ∀ a, Cuts log (f a) (g a)) :
    Cuts log (x >>= f) (y >>= g) := by
  intro s
  obtain ⟨hgrows, hrun⟩ := hx s
  cases hy : y s with
  | error e t =>
    rw [after_of_error (bind_of_error (f := g) hy)]
    rw [after_of_error hy] at hgrows hrun
    refine ⟨hgrows, ?_⟩
    rcases hrun with heq | ⟨e', u, hfail, hlog⟩
    · exact .inl ((bind_of_error (heq.trans hy)).trans (bind_of_error hy).symm)
    · exact .inr ⟨e', u, bind_of_error hfail, hlog⟩
  | ok a t =>
    have hafter : after (y >>= g) s = after (g a) t := by
      unfold after
      rw [bind_of_ok hy]
    rw [after_of_ok hy] at hgrows hrun
    obtain ⟨hgrows', hrun'⟩ := hf a t
    rw [hafter, bind_of_ok hy]
    refine ⟨hgrows.trans hgrows', ?_⟩
    rcases hrun with heq | ⟨e', u, hfail, hlog⟩
    · rw [bind_of_ok (heq.trans hy)]
      exact hrun'
    · exact .inr ⟨e', u, bind_of_error hfail, hlog.trans hgrows'⟩

protected theorem ite {c : Prop} [Decidable c] {x' y' : EStateM ε σ α} (hx : Cuts log x y)
    (hy : Cuts log x' y') : Cuts log (if c then x else x') (if c then y else y') := by
  split
  · exact hx
  · exact hy

/-- The trace of a run that is cut short is part of the whole one. -/
theorem isPrefix (h : Cuts log x y) (s : σ) : log (after x s) <+: log (after y s) := by
  obtain ⟨-, heq | ⟨e, t, hfail, hlog⟩⟩ := h s
  · have hafter : after x s = after y s := by
      unfold after
      rw [heq]
    exact hafter ▸ List.prefix_rfl
  · rw [after_of_error hfail]
    exact hlog

end Cuts

/-! ## Every state -/

/-- From every state, `x` ends with a value of `Q` or a failure of `E`. -/
def Ends (x : EStateM ε σ α) (Q : α → Prop) (E : ε → Prop) :
    Prop := ∀ s, Post x s (fun a _ => Q a) fun e _ => E e

namespace Ends

variable {Q Q' : α → Prop} {R : β → Prop} {E E' : ε → Prop} {x y : EStateM ε σ α} {f : α →
  EStateM ε σ β}

protected theorem pure {a : α} (h : Q a) : Ends (pure a : EStateM ε σ α) Q E := fun _ => h

protected theorem throw {e : ε} (h : E e) : Ends (throw e : EStateM ε σ α) Q E := fun _ => h

protected theorem modify {g : σ → σ} {Q : PUnit → Prop} (h : Q ⟨⟩) :
    Ends (modify g : EStateM ε σ PUnit) Q E := fun _ => h

protected theorem bind (hx : Ends x Q E) (hf : ∀ a, Q a → Ends (f a) R E) :
    Ends (x >>= f) R E := fun s =>
  post_bind.2 ((hx s).mono (fun a t h => hf a h t) fun _ _ h => h)

protected theorem ite {c : Prop} [Decidable c] (hx : c → Ends x Q E) (hy : ¬ c → Ends y Q E) :
    Ends (if c then x else y) Q E := fun s => post_ite (fun h => hx h s) fun h => hy h s

theorem mono (h : Ends x Q E) (hQ : ∀ a, Q a → Q' a) (hE : ∀ e, E e → E' e) :
    Ends x Q' E' := fun s =>
  (h s).mono (fun a _ => hQ a) fun e _ => hE e

end Ends

end Diana.Lib
