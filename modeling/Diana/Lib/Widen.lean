import Diana.Lib.Patches

/-!
# Entries widened in place

An array of entries of `w` values becomes one of entries of `w'` values in the same place, from the
last entry to the first one.

* `widen`: the loop;
* `window_widen`: every entry is what it would be in an array of its own.
-/

namespace Diana.Lib

variable {β : Type}

/-- The entries below `n`, from the end: the `i`-th goes from `w * i` to `w' * i`. -/
def widen (w w' : Nat) (f : List β → List β) : Nat → (Nat → β) → Nat → β
  | 0, m => m
  | i + 1, m => widen w w' f i (overlay m (w' * i) (f (window m (w * i) w)))

variable {w w' : Nat} {f : List β → List β} {m : Nat → β} {n i a : Nat}

/-- What lies behind the array is kept. -/
theorem widen_outside (hf : ∀ l, (f l).length = w') (ha : w' * n ≤ a) :
    widen w w' f n m a = m a := by
  induction n generalizing m with
  | zero => rfl
  | succ n ih =>
    rw [Nat.mul_succ] at ha
    rw [widen, ih (by omega), overlay_of_outside (.inr (by rw [hf]; exact ha))]

/-- An entry that moves lies behind those that are still to be read. -/
theorem window_widen (hf : ∀ l, (f l).length = w') (hw : w ≤ w') (hi : i < n) :
    window (widen w w' f n m) (w' * i) w' = f (window m (w * i) w) := by
  induction n generalizing m with
  | zero => cases hi
  | succ n ih =>
    rw [widen]
    rcases Nat.lt_succ_iff_lt_or_eq.1 hi with hlt | rfl
    · have hread : w * i + w ≤ w' * n := by
        rw [← Nat.mul_succ]
        exact Nat.mul_le_mul hw hlt
      rw [ih hlt, window_overlay_of_disjoint (.inl hread)]
    · have hsame := window_overlay_same m (w' * i) (f (window m (w * i) w))
      rw [hf] at hsame
      refine Eq.trans (window_congr fun a ha _ => ?_) hsame
      exact widen_outside hf ha

end Diana.Lib
