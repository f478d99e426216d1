import Mathlib.Algebra.Group.Int.Defs
import Mathlib.Algebra.Group.Nat.Defs
import Mathlib.Tactic.Common

/-!
# Binary search

* `halve cmp lo hi`: the search of the indices from `lo` up to `hi`, where `cmp i` compares what is
  looked for with entry `i`;
* `halve_some`: what it finds; `halve_none`: in sorted entries it misses nothing.
-/

namespace Diana.Lib

/-- The search of `[lo, hi)`. -/
def halve (cmp : Nat → Ordering) (lo hi : Nat) : Option Nat :=
  if lo < hi then
    let middle := (lo + (hi - 1)) / 2
    match cmp middle with
    | .eq => some middle
    | .gt => halve cmp (middle + 1) hi
    | .lt => halve cmp lo middle
  else none
termination_by hi - lo

/-- Before an entry that is too small all are too small, and behind one that is too
large all are too large. -/
structure Sorted (cmp : Nat → Ordering) (n : Nat) : Prop where
  gt : ∀ {i j}, i ≤ j → j < n → cmp j = .gt → cmp i = .gt
  lt : ∀ {i j}, i ≤ j → j < n → cmp i = .lt → cmp j = .lt

variable {cmp : Nat → Ordering} {lo hi i : Nat}

theorem Sorted.mono {m n : Nat} (h : Sorted cmp n) (hle : m ≤ n) : Sorted cmp m :=
  ⟨fun hij hj => h.gt hij (Nat.lt_of_lt_of_le hj hle),
    fun hij hj => h.lt hij (Nat.lt_of_lt_of_le hj hle)⟩

theorem halve_of_le (h : hi ≤ lo) : halve cmp lo hi = none := by
  rw [halve, if_neg (Nat.not_lt.2 h)]

theorem halve_of_lt (h : lo < hi) : halve cmp lo hi =
    match cmp ((lo + (hi - 1)) / 2) with
    | .eq => some ((lo + (hi - 1)) / 2)
    | .gt => halve cmp ((lo + (hi - 1)) / 2 + 1) hi
    | .lt => halve cmp lo ((lo + (hi - 1)) / 2) := by
  rw [halve, if_pos h]

theorem halve_some (h : halve cmp lo hi = some i) : lo ≤ i ∧ i < hi ∧ cmp i = .eq := by
  fun_induction halve cmp lo hi with
  | case1 lo hi hlt middle heq =>
    obtain rfl := Option.some.inj h
    exact ⟨by omega, by omega, heq⟩
  | case2 lo hi hlt middle heq ih =>
    obtain ⟨hle, hlt, heq⟩ := ih h
    exact ⟨by omega, hlt, heq⟩
  | case3 lo hi hlt middle heq ih =>
    obtain ⟨hle, hlt, heq⟩ := ih h
    exact ⟨hle, by omega, heq⟩
  | case4 => cases h

/-- In sorted entries the half that is left out holds nothing. -/
theorem halve_none (hsorted : Sorted cmp hi) (h : halve cmp lo hi = none) (hlo : lo ≤ i)
    (hhi : i < hi) : cmp i ≠ .eq := by
  fun_induction halve cmp lo hi with
  | case1 => cases h
  | case2 lo hi hlt middle heq ih =>
    rcases Nat.lt_or_ge middle i with hi | hi
    · exact ih hsorted h hi hhi
    · rw [hsorted.gt hi (by omega) heq]
      decide
  | case3 lo hi hlt middle heq ih =>
    have hmiddle : middle < hi := by omega
    rcases Nat.lt_or_ge i middle with hi | hi
    · exact ih (hsorted.mono (Nat.le_of_lt hmiddle)) h hlo hi
    · rw [hsorted.lt hi hhi heq]
      decide
  | case4 => omega

end Diana.Lib
