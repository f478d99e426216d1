import Mathlib.Algebra.Group.Int.Defs
import Mathlib.Algebra.Group.Nat.Defs

/-!
# Checked sequencing

C code that returns a status checks every call and leaves at the first failure. In `Except` that is
the bind, and a run that succeeded is taken apart call by call with `bind_eq_ok`.
-/

namespace Diana.Lib

variable {ε α β : Type}

theorem bind_eq_ok {x : Except ε α} {f : α → Except ε β} {b : β} :
    (x >>= f) = .ok b ↔ ∃ a, x = .ok a ∧ f a = .ok b := by
  cases x with
  | error e => exact ⟨fun h => (nomatch h), fun ⟨_, h, _⟩ => (nomatch h)⟩
  | ok a => exact ⟨fun h => ⟨a, rfl, h⟩, fun ⟨_, h, hf⟩ => by cases h; exact hf⟩

/-- A checked fold keeps what every call keeps. -/
theorem foldlM_rel {R : β → β → Prop} (hrefl : ∀ s, R s s)
    (htrans : ∀ {s t u}, R s t → R t u → R s u) {f : β → α → Except ε β}
    (hf : ∀ s x t, f s x = .ok t → R s t) (l : List α) {s t : β} (h : l.foldlM f s = .ok t) :
    R s t := by
  induction l generalizing s with
  | nil =>
    cases h
    exact hrefl _
  | cons x l ih =>
    rw [List.foldlM_cons] at h
    obtain ⟨u, hu, hrest⟩ := bind_eq_ok.mp h
    exact htrans (hf s x u hu) (ih hrest)

end Diana.Lib
