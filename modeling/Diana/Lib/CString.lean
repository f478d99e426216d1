import Mathlib.Algebra.Group.Int.Defs
import Mathlib.Algebra.Group.Nat.Defs
import Mathlib.Tactic.Common

/-!
# Strings that end in 0

* `HasString s x`: the bytes from `s` on are the string `x` and its terminating 0;
* `strncmp`: the comparison of the C library, and how many bytes of each string it looks at;
* `zero_mem_iff`, `takeWhile_eq_take`: the first bytes of a string;
* `strncmp_eq`: on strings that end early enough it is the order of the lists.
-/

namespace Diana.Lib

/-- The bytes from `s` on hold a string. -/
def HasString : (Nat → BitVec 8) → List (BitVec 8) → Prop
  | s, [] => s 0 = 0
  | s, c :: x => s 0 = c ∧ c ≠ 0 ∧ HasString (fun k => s (k + 1)) x

instance decidableHasString : ∀ s x, Decidable (HasString s x)
  | s, [] => inferInstanceAs (Decidable (s 0 = 0))
  | s, _ :: x =>
    have := decidableHasString (fun k => s (k + 1)) x
    inferInstanceAs (Decidable (_ ∧ _ ∧ _))

/-- The terminating 0 is among the first `n` bytes. -/
theorem zero_mem_iff {s : Nat → BitVec 8} {x : List (BitVec 8)} (h : HasString s x) (n : Nat) :
    0 ∈ (List.range n).map s ↔ x.length < n := by
  induction n generalizing s x with
  | zero => simp
  | succ n ih =>
    rw [List.range_succ_eq_map, List.map_cons, List.map_map, List.mem_cons]
    cases x with
    | nil => exact iff_of_true (.inl (Eq.symm h)) (Nat.succ_pos n)
    | cons c x =>
      obtain ⟨h0, hc, h⟩ := h
      rw [h0, List.length_cons, Nat.add_lt_add_iff_right, ← ih h]
      exact or_iff_right hc.symm

/-- The first `n` bytes, up to the terminating 0. -/
theorem takeWhile_eq_take {s : Nat → BitVec 8} {x : List (BitVec 8)} (h : HasString s x) (n : Nat) :
    ((List.range n).map s).takeWhile (· ≠ 0) = x.take n := by
  induction n generalizing s x with
  | zero => rw [List.take_zero]; rfl
  | succ n ih =>
    rw [List.range_succ_eq_map, List.map_cons, List.map_map]
    cases x with
    | nil =>
      have h0 : s 0 = 0 := h
      rw [h0, List.takeWhile_cons_of_neg (by decide), List.take_nil]
    | cons c x =>
      obtain ⟨h0, hc, h⟩ := h
      rw [h0, List.takeWhile_cons_of_pos (by exact decide_eq_true hc), List.take_succ_cons]
      exact congrArg (c :: ·) (ih h)

/-- `strncmp`: the result and the number of bytes looked at. -/
def strncmp : Nat → (Nat → BitVec 8) → (Nat → BitVec 8) → Ordering × Nat
  | 0, _, _ => (.eq, 0)
  | n + 1, s, t =>
    if s 0 ≠ t 0 then (compare (s 0) (t 0), 1)
    else if s 0 = 0 then (.eq, 1)
    else
      let (order, looked) := strncmp n (fun k => s (k + 1)) (fun k => t (k + 1))
      (order, looked + 1)

theorem strncmp_looked_le (n : Nat) (s t : Nat → BitVec 8) : (strncmp n s t).2 ≤ n := by
  induction n generalizing s t with
  | zero => exact Nat.le_refl 0
  | succ n ih =>
    unfold strncmp
    split
    · exact Nat.succ_le_succ (Nat.zero_le n)
    · split
      · exact Nat.succ_le_succ (Nat.zero_le n)
      · exact Nat.succ_le_succ (ih _ _)

/-- The comparison of two strings, the second of which ends within the bytes looked at. -/
theorem strncmp_eq {n : Nat} {s t : Nat → BitVec 8} {x y : List (BitVec 8)} (hs : HasString s x)
    (ht : HasString t y) (hy : y.length < n) : (strncmp n s t).1 = compare x y := by
  induction n generalizing s t x y with
  | zero => exact absurd hy (Nat.not_lt_zero _)
  | succ n ih =>
    unfold strncmp
    cases x with
    | nil =>
      have hs0 : s 0 = 0 := hs
      cases y with
      | nil =>
        have ht0 : t 0 = 0 := ht
        rw [if_neg (by rw [hs0, ht0]; exact not_not.2 rfl), if_pos hs0]
        rfl
      | cons d y =>
        obtain ⟨ht0, hd, -⟩ := ht
        rw [if_pos (by rw [hs0, ht0]; exact hd.symm), hs0, ht0]
        exact if_pos ((BitVec.pos_iff_ne_zero d).2 hd)
    | cons c x =>
      obtain ⟨hs0, hc, hs⟩ := hs
      cases y with
      | nil =>
        have ht0 : t 0 = 0 := ht
        rw [if_pos (by rw [hs0, ht0]; exact hc), hs0, ht0]
        have hlt : ¬ c < 0 := BitVec.not_lt_zero
        change (if c < 0 then Ordering.lt else if c = 0 then .eq else .gt) = .gt
        rw [if_neg hlt, if_neg hc]
      | cons d y =>
        obtain ⟨ht0, hd, ht⟩ := ht
        have hcons : compare (c :: x) (d :: y) = (compare c d).then (compare x y) :=
          List.compare_cons_cons
        rw [hs0, ht0, hcons]
        by_cases hcd : c = d
        · subst hcd
          rw [if_neg (not_not.2 rfl), if_neg hc, Std.compare_self]
          exact ih hs ht (Nat.lt_of_succ_lt_succ hy)
        · rw [if_pos hcd]
          have hne : compare c d ≠ .eq := fun h => hcd (Std.LawfulEqOrd.eq_of_compare h)
          cases h : compare c d with
          | eq => exact absurd h hne
          | lt => rfl
          | gt => rfl

end Diana.Lib
