import Mathlib.Algebra.Group.Int.Defs
import Mathlib.Algebra.Group.Nat.Defs
import Mathlib.Tactic.Common

/-!
# Orthia basics

Bytes, the exceptions of the library, and 64-bit arithmetic on addresses. An address or a size is a
natural number below `2 ^ 64`.
-/

namespace Diana.Orthia

abbrev Byte := BitVec 8

/-- What a call throws. -/
inductive Failure where
  /-- `"Internal error"` -/
  | internalError
  /-- `"Overflow"` -/
  | overflow
  /-- `"Module not found"` -/
  | moduleNotFound
  /-- `"Invalid metadata of item, no address"` -/
  | noAddress
  /-- `"Invalid format"` -/
  | invalidFormat
  /-- `std::vector::resize` past `max_size` -/
  | lengthError
  deriving DecidableEq, Repr

/-- `std::vector<char>::max_size` -/
def maxSize : Nat := 2 ^ 63 - 1

/-- `a + b` of `unsigned long long` -/
def add64 (a b : Nat) : Nat := (a + b) % 2 ^ 64

/-- `a - b` of `unsigned long long` -/
def sub64 (a b : Nat) : Nat := (a + (2 ^ 64 - b)) % 2 ^ 64

theorem add64_of_lt {a b : Nat} (h : a + b < 2 ^ 64) : add64 a b = a + b := Nat.mod_eq_of_lt h

theorem sub64_of_le {a b : Nat} (h : b ≤ a) (ha : a < 2 ^ 64) : sub64 a b = a - b := by
  unfold sub64
  rw [show a + (2 ^ 64 - b) = a - b + 2 ^ 64 by omega, Nat.add_mod_right]
  exact Nat.mod_eq_of_lt (by omega)

end Diana.Orthia
