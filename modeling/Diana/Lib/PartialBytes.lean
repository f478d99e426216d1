import Mathlib.Algebra.Group.Int.Defs
import Mathlib.Algebra.Group.Nat.Defs
import Mathlib.Data.List.TakeWhile
import Mathlib.Tactic.Common

/-!
# Partial contents of an address range

A content `V` gives the value at an address, or nothing. `readFrom V off n` reads `n` values from
`off` on and stops at the first address without one.
-/

namespace Diana.Lib

variable {β : Type}

/-- The values at `off`, `off + 1`, ..., at most `n` of them, up to the first address without
one. -/
def readFrom (V : Nat → Option β) : (off n : Nat) → List β
  | _, 0 => []
  | off, n + 1 =>
    match V off with
    | none => []
    | some b => b :: readFrom V (off + 1) n

section

variable {V W : Nat → Option β} {off m n : Nat} {b : β}

theorem readFrom_of_none (h : V off = none) : readFrom V off (n + 1) = [] := by
  simp [readFrom, h]

theorem readFrom_of_some (h : V off = some b) :
    readFrom V off (n + 1) = b :: readFrom V (off + 1) n := by
  simp [readFrom, h]

theorem length_readFrom_le (V : Nat → Option β) (off n : Nat) : (readFrom V off n).length ≤ n := by
  induction n generalizing off with
  | zero => exact Nat.le_refl 0
  | succ n ih =>
    cases h : V off with
    | none => simp [readFrom_of_none h]
    | some b => simpa [readFrom_of_some h] using ih (off + 1)

/-- Contents that agree on a range are read alike. -/
theorem readFrom_congr (h : ∀ i < n, V (off + i) = W (off + i)) :
    readFrom V off n = readFrom W off n := by
  induction n generalizing off with
  | zero => rfl
  | succ n ih =>
    have h0 : V off = W off := h 0 (Nat.succ_pos n)
    have ih := @ih (off + 1) fun i hi => by
      have := h (i + 1) (Nat.succ_lt_succ hi)
      rwa [Nat.add_assoc, Nat.add_comm 1]
    cases hv : V off with
    | none => rw [readFrom_of_none hv, readFrom_of_none (h0 ▸ hv)]
    | some b => rw [readFrom_of_some hv, readFrom_of_some (h0 ▸ hv), ih]

theorem readFrom_add_of_full (h : (readFrom V off m).length = m) :
    readFrom V off (m + n) = readFrom V off m ++ readFrom V (off + m) n := by
  induction m generalizing off with
  | zero => simp [readFrom]
  | succ m ih =>
    rw [Nat.add_right_comm]
    cases hv : V off with
    | none => simp [readFrom_of_none hv] at h
    | some b =>
      rw [readFrom_of_some hv] at h ⊢
      rw [readFrom_of_some hv, ih (Nat.succ.inj h), List.cons_append, Nat.add_assoc, Nat.add_comm 1]

theorem readFrom_add_of_short (h : (readFrom V off m).length < m) :
    readFrom V off (m + n) = readFrom V off m := by
  induction m generalizing off with
  | zero => cases h
  | succ m ih =>
    rw [Nat.add_right_comm]
    cases hv : V off with
    | none => rw [readFrom_of_none hv, readFrom_of_none hv]
    | some b =>
      rw [readFrom_of_some hv] at h
      rw [readFrom_of_some hv, readFrom_of_some hv, ih (Nat.lt_of_succ_lt_succ h)]

/-- A range every value of which is known. -/
theorem readFrom_eq_of_get (off : Nat) (bs : List β)
    (h : ∀ i b, bs[i]? = some b → V (off + i) = some b) : readFrom V off bs.length = bs := by
  induction bs generalizing off with
  | nil => rfl
  | cons b bs ih =>
    have h1 := @ih (off + 1) fun i c hc => by
      have := h (i + 1) c (by simpa using hc)
      rwa [Nat.add_assoc, Nat.add_comm 1]
    have h0 : V off = some b := h 0 b rfl
    rw [List.length_cons, readFrom_of_some h0, h1]

theorem getElem?_readFrom {i : Nat} (h : (readFrom V off n)[i]? = some b) :
    V (off + i) = some b := by
  induction n generalizing off i with
  | zero => cases h
  | succ n ih =>
    cases hv : V off with
    | none => simp [readFrom_of_none hv] at h
    | some c =>
      rw [readFrom_of_some hv] at h
      cases i with
      | zero => exact hv.trans (by simpa using h)
      | succ i =>
        have := ih (by simpa using h)
        rwa [Nat.add_assoc, Nat.add_comm 1] at this

/-- A read that comes back short stopped at an address without a value. -/
theorem readFrom_stops (h : (readFrom V off n).length < n) :
    V (off + (readFrom V off n).length) = none := by
  induction n generalizing off with
  | zero => cases h
  | succ n ih =>
    cases hv : V off with
    | none => simpa [readFrom_of_none hv] using hv
    | some c =>
      rw [readFrom_of_some hv] at h ⊢
      have := @ih (off + 1) (Nat.lt_of_succ_lt_succ h)
      rwa [Nat.add_assoc, Nat.add_comm 1] at this

end

end Diana.Lib
