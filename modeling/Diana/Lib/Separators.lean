import Mathlib.Algebra.Group.Int.Defs
import Mathlib.Algebra.Group.Nat.Defs
import Mathlib.Data.List.TakeWhile
import Mathlib.Tactic.Common

/-!
# Texts of separated items

Items joined by a separator are found again by splitting at it, when no item is empty or holds the
separator.
-/

namespace Diana.Lib

variable {α : Type} {sep : α}

/-- The text with one more item, after a separator unless it is the first. -/
def appendItem (sep : α) (text item : List α) : List α :=
  if text = [] then item else text ++ sep :: item

theorem foldl_appendItem {items : List (List α)} (h : ∀ i ∈ items, i ≠ []) :
    items.foldl (appendItem sep) [] = [sep].intercalate items := by
  have hrun : ∀ (items : List (List α)) (text : List α), text ≠ [] →
      items.foldl (appendItem sep) text = [sep].intercalate (text :: items) := by
    intro items
    induction items with
    | nil => intro text _; rw [List.foldl_nil, List.intercalate_singleton]
    | cons i items ih =>
      intro text ht
      rw [List.foldl_cons, appendItem, if_neg ht, ih _ (by simp)]
      cases items with
      | nil => simp
      | cons j items => simp [List.intercalate_cons_cons]
  cases items with
  | nil => rfl
  | cons i items => exact hrun items i (h i List.mem_cons_self)

theorem mem_intercalate {items : List (List α)} {x : α} (h : x ∈ [sep].intercalate items) :
    x = sep ∨ ∃ i ∈ items, x ∈ i := by
  induction items with
  | nil => cases h
  | cons i items ih =>
    cases items with
    | nil =>
      rw [List.intercalate_singleton] at h
      exact .inr ⟨i, List.mem_singleton_self i, h⟩
    | cons j items =>
      rw [List.intercalate_cons_cons, List.mem_append, List.mem_append] at h
      rcases h with (h | h) | h
      · exact .inr ⟨i, List.mem_cons_self, h⟩
      · exact .inl (List.mem_singleton.1 h)
      · exact (ih h).imp_right fun ⟨k, hk, hx⟩ => ⟨k, List.mem_cons_of_mem _ hk, hx⟩

variable [DecidableEq α]

/-- The parts between separators; an empty text has none. -/
def split (sep : α) (text : List α) : List (List α) := if text = [] then [] else text.splitOn sep

/-- What stands before the first separator, and what stands after it. -/
def cutAt (sep : α) (text : List α) : List α × Option (List α) :=
  (text.takeWhile (· ≠ sep), (text.dropWhile (· ≠ sep)).tail?)

theorem split_intercalate {items : List (List α)} (hsep : ∀ i ∈ items, sep ∉ i)
    (hne : ∀ i ∈ items, i ≠ []) : split sep ([sep].intercalate items) = items := by
  cases items with
  | nil => rfl
  | cons i items =>
    have hi : [sep].intercalate (i :: items) ≠ [] := by
      cases items with
      | nil => simpa using hne i List.mem_cons_self
      | cons j items => simp [List.intercalate_cons_cons]
    unfold split
    rw [if_neg hi, List.splitOn_intercalate sep hsep (List.cons_ne_nil _ _)]

theorem cutAt_append {a : List α} (h : sep ∉ a) (b : List α) :
    cutAt sep (a ++ sep :: b) = (a, some b) := by
  have ha : ∀ x ∈ a, decide (x ≠ sep) = true := fun x hx => decide_eq_true fun e => h (e ▸ hx)
  unfold cutAt
  rw [List.takeWhile_append_of_pos ha, List.dropWhile_append_of_pos ha]
  simp

theorem cutAt_of_notMem {a : List α} (h : sep ∉ a) : cutAt sep a = (a, none) := by
  have ha : ∀ x ∈ a, decide (x ≠ sep) = true := fun x hx => decide_eq_true fun e => h (e ▸ hx)
  unfold cutAt
  rw [List.takeWhile_eq_self_iff.2 ha, List.dropWhile_eq_nil_iff.2 ha]
  rfl

end Diana.Lib
