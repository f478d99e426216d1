import Mathlib.Algebra.Group.Int.Defs
import Mathlib.Algebra.Group.Nat.Defs
import Mathlib.Data.List.TakeWhile
import Mathlib.Order.Basic
import Mathlib.Tactic.Common

/-!
# Copies over a buffer

Segments are copied into a buffer one after the other; a later one goes over the earlier ones.
`lastAt segs a` is the value at `a` of the last segment that has one.
-/

namespace Diana.Lib

variable {β : Type}

/-- The values from `start` to before `stop`. -/
structure Segment (β : Type) where
  start : Nat
  stop : Nat
  value : Nat → β

def Segment.at? (s : Segment β) (a : Nat) : Option β :=
  if s.start ≤ a ∧ a < s.stop then some (s.value a) else none

theorem Segment.at?_isSome {s : Segment β} {a : Nat} :
    (s.at? a).isSome = true ↔ s.start ≤ a ∧ a < s.stop := by
  unfold Segment.at?
  split <;> simp_all

/-- A buffer, and whether anything has been copied to it. -/
structure Copied (β : Type) where
  found : Bool
  buffer : Nat → β

/-- An empty segment is not copied. -/
def Copied.copy (c : Copied β) (s : Segment β) : Copied β :=
  if s.start < s.stop then ⟨true, fun a => (s.at? a).getD (c.buffer a)⟩ else c

def lastAt (segs : List (Segment β)) (a : Nat) : Option β := segs.reverse.findSome? (·.at? a)

@[simp] theorem lastAt_nil (a : Nat) : lastAt ([] : List (Segment β)) a = none := rfl

theorem lastAt_append (xs ys : List (Segment β)) (a : Nat) :
    lastAt (xs ++ ys) a = (lastAt ys a).or (lastAt xs a) := by
  simp only [lastAt, List.reverse_append, List.findSome?_append]

theorem lastAt_cons (s : Segment β) (segs : List (Segment β)) (a : Nat) :
    lastAt (s :: segs) a = (lastAt segs a).or (s.at? a) := by
  have h := lastAt_append [s] segs a
  rw [List.singleton_append] at h
  rw [h]
  congr 1
  cases hs : s.at? a <;> simp [lastAt, hs]

theorem Copied.copy_buffer (c : Copied β) (s : Segment β) (a : Nat) :
    (c.copy s).buffer a = (s.at? a).getD (c.buffer a) := by
  unfold Copied.copy
  split
  · rfl
  · next h =>
    have hnone : s.at? a = none := by
      unfold Segment.at?
      exact if_neg (by omega)
    rw [hnone]
    rfl

theorem Copied.copy_found (c : Copied β) (s : Segment β) :
    (c.copy s).found = (c.found || decide (s.start < s.stop)) := by
  unfold Copied.copy
  split
  · next h => simp [h]
  · next h => simp [h]

/-- By induction on the segments: every address has its last copy. -/
theorem foldl_copy_buffer (segs : List (Segment β)) (c : Copied β) (a : Nat) :
    (segs.foldl Copied.copy c).buffer a = (lastAt segs a).getD (c.buffer a) := by
  induction segs generalizing c with
  | nil => rfl
  | cons s segs ih =>
    rw [List.foldl_cons, ih, Copied.copy_buffer, lastAt_cons]
    cases lastAt segs a <;> rfl

theorem foldl_copy_found (segs : List (Segment β)) (c : Copied β) :
    (segs.foldl Copied.copy c).found =
    (c.found || segs.any fun s => decide (s.start < s.stop)) := by
  induction segs generalizing c with
  | nil => simp
  | cons s segs ih => rw [List.foldl_cons, ih, Copied.copy_found, List.any_cons, Bool.or_assoc]

theorem lastAt_isSome {segs : List (Segment β)} {a : Nat} :
    (lastAt segs a).isSome = true ↔ ∃ s ∈ segs, s.start ≤ a ∧ a < s.stop := by
  rw [lastAt, List.findSome?_isSome_iff]
  constructor
  · rintro ⟨s, hs, ha⟩
    exact ⟨s, List.mem_reverse.mp hs, Segment.at?_isSome.mp ha⟩
  · rintro ⟨s, hs, ha⟩
    exact ⟨s, List.mem_reverse.mpr hs, Segment.at?_isSome.mpr ha⟩

theorem lastAt_filterMap {α : Type} (f : α → Option (Segment β)) (xs : List α) (a : Nat) :
    lastAt (xs.filterMap f) a = xs.reverse.findSome? fun x => (f x).bind (·.at? a) := by
  rw [lastAt, ← List.filterMap_reverse]
  induction xs.reverse with
  | nil => rfl
  | cons x xs ih =>
    cases hx : f x with
    | none => rw [List.filterMap_cons_none hx, ih, List.findSome?_cons, hx]; rfl
    | some s =>
      rw [List.filterMap_cons_some hx, List.findSome?_cons, List.findSome?_cons, hx, ih]; rfl

/-- Something is copied exactly when some address has a copy. -/
theorem any_start_lt_stop (segs : List (Segment β)) :
    (segs.any fun s => decide (s.start < s.stop)) = true ↔ ∃ a, (lastAt segs a).isSome = true := by
  simp only [List.any_eq_true, decide_eq_true_eq, lastAt_isSome]
  constructor
  · rintro ⟨s, hs, hlt⟩
    exact ⟨s.start, s, hs, Nat.le_refl _, hlt⟩
  · rintro ⟨a, s, hs, h1, h2⟩
    exact ⟨s, hs, Nat.lt_of_le_of_lt h1 h2⟩

/-! ## One value in a list -/

section Unique

variable {α : Type} {l : List α}

/-- The only value that is found. -/
theorem findSome?_eq_of_unique {f : α → Option β} {x : α} {b : β} (hx : x ∈ l) (hb : f x = some b)
    (h : ∀ y ∈ l, (f y).isSome = true → f y = some b) : l.findSome? f = some b := by
  cases hf : l.findSome? f with
  | none => rw [List.findSome?_eq_none_iff.mp hf x hx] at hb; cases hb
  | some c =>
    obtain ⟨y, hy, hc⟩ := List.exists_of_findSome?_eq_some hf
    rw [← hc]
    exact h y hy (by rw [hc]; rfl)

/-- Two elements of a list are one, or related one way or the other. -/
theorem rel_of_pairwise {R : α → α → Prop} (h : l.Pairwise R) {x y : α} (hx : x ∈ l) (hy : y ∈ l) :
    x = y ∨ R x y ∨ R y x := by
  induction l with
  | nil => cases hx
  | cons z l ih =>
    obtain ⟨hz, hl⟩ := List.pairwise_cons.mp h
    rcases List.mem_cons.mp hx with hxz | hxl
    · rcases List.mem_cons.mp hy with hyz | hyl
      · exact Or.inl (hxz.trans hyz.symm)
      · exact Or.inr (Or.inl (hxz ▸ hz y hyl))
    · rcases List.mem_cons.mp hy with hyz | hyl
      · exact Or.inr (Or.inr (hyz ▸ hz x hxl))
      · exact ih hl hxl hyl

/-- In a list along which `p` can only get lost, `takeWhile p` keeps everything with `p`. -/
theorem mem_takeWhile_of_pairwise {p : α → Bool} (h : l.Pairwise fun x y => p y = true → p x = true)
    {x : α} (hx : x ∈ l) (hp : p x = true) : x ∈ l.takeWhile p := by
  induction l with
  | nil => cases hx
  | cons y l ih =>
    obtain ⟨hy, hl⟩ := List.pairwise_cons.mp h
    rcases List.mem_cons.mp hx with rfl | hx
    · rw [List.takeWhile_cons_of_pos hp]
      exact List.mem_cons_self
    · rw [List.takeWhile_cons_of_pos (hy x hx hp)]
      exact List.mem_cons_of_mem _ (ih hl hx)

end Unique

end Diana.Lib
