import Mathlib.Algebra.Group.Int.Defs
import Mathlib.Algebra.Group.Nat.Defs
import Mathlib.Data.List.Nodup
import Mathlib.Tactic.Common

/-!
# Doubly linked chains

The links of nodes in memory, and the chain that they make between two ends.

* `Linked before l after`: the nodes `l` are linked both ways, from `before` to `after`;
* `Linked.insert`, `Linked.erase`: a node is put into a chain, or taken out of it.
-/

namespace Diana.Lib

variable {α : Type}

/-- The links of the nodes. -/
structure Links (α : Type) where
  next : α → α
  prev : α → α

namespace Links

section

variable [DecidableEq α] (h : Links α) (p q v : α)

def setNext : Links α := { h with next := fun q => if q = p then v else h.next q }

def setPrev : Links α := { h with prev := fun q => if q = p then v else h.prev q }

@[simp] theorem next_setNext : (h.setNext p v).next q = if q = p then v else h.next q := rfl

@[simp] theorem prev_setNext : (h.setNext p v).prev = h.prev := rfl

@[simp] theorem prev_setPrev : (h.setPrev p v).prev q = if q = p then v else h.prev q := rfl

@[simp] theorem next_setPrev : (h.setPrev p v).next = h.next := rfl

end

/-- Every node is linked to the one behind it and to the one before it. -/
def Linked (h : Links α) (before : α) (l : List α) (after : α) : Prop :=
  ∀ l₁ x l₂, l = l₁ ++ x :: l₂ → h.next x = l₂.headD after ∧ h.prev x = l₁.getLastD before

section

variable {h h' : Links α} {before after x y : α} {l l₁ l₂ : List α}

theorem linked_nil (h : Links α) (before after : α) : h.Linked before [] after := by
  intro l₁ x l₂ heq
  simp at heq

variable [DecidableEq α]

/-- A node is put between `l₁` and `l₂`. -/
theorem Linked.insert (hl : h.Linked before (l₁ ++ l₂) after) (hnodup : (l₁ ++ l₂).Nodup)
    (hy : y ∉ l₁ ++ l₂) (hnext : ∀ q, h'.next q = if q = y then l₂.headD after
      else if l₁.getLast? = some q then y else h.next q)
    (hprev : ∀ q, h'.prev q = if q = y then l₁.getLastD before else if l₂.head? = some q then y
      else h.prev q) :
    h'.Linked before (l₁ ++ y :: l₂) after := by
  have hapart := List.disjoint_of_nodup_append hnodup
  obtain ⟨hnodup₁, hnodup₂, -⟩ := List.nodup_append.1 hnodup
  intro m₁ x m₂ heq
  rw [hnext, hprev]
  rcases List.append_eq_append_iff.1 heq with ⟨as, rfl, has⟩ | ⟨cs, rfl, hcs⟩
  · cases as with
    | nil =>
      obtain ⟨rfl, rfl⟩ := List.cons.inj has
      simp
    | cons z as =>
      rw [List.cons_append] at has
      obtain ⟨rfl, rfl⟩ := List.cons.inj has
      obtain ⟨hxnext, hxprev⟩ := hl (l₁ ++ as) x m₂ (by simp)
      have hxy : x ≠ y := fun he => hy (by simp [he])
      have hlast : l₁.getLast? ≠ some x := fun hx => hapart (List.mem_of_getLast? hx) (by simp)
      refine ⟨by rw [if_neg hxy, if_neg hlast, hxnext], ?_⟩
      cases as with
      | nil => simp [hxy]
      | cons w as =>
        have hwx : w ≠ x := fun he => (List.nodup_cons.1 hnodup₂).1 (by simp [he])
        simp [hxy, hwx, hxprev, List.getLastD_eq_getLast?, List.getLast?_append, List.getLast?_cons]
  · cases cs with
    | nil =>
      obtain ⟨rfl, rfl⟩ := List.cons.inj hcs
      simp
    | cons z cs =>
      rw [List.cons_append] at hcs
      obtain ⟨rfl, rfl⟩ := List.cons.inj hcs
      obtain ⟨hxnext, hxprev⟩ := hl m₁ x (cs ++ l₂) (by simp)
      have hxy : x ≠ y := fun he => hy (by simp [he])
      have hhead : l₂.head? ≠ some x := fun hx => hapart (by simp) (List.mem_of_head? hx)
      refine ⟨?_, by rw [if_neg hxy, if_neg hhead, hxprev]⟩
      cases cs with
      | nil => simp [hxy]
      | cons w cs =>
        have hlast : (m₁ ++ x :: w :: cs).getLast? ≠ some x := by
          rw [List.getLast?_append_of_ne_nil _ (List.cons_ne_nil _ _), List.getLast?_cons_cons]
          have hx := (List.nodup_cons.1 (List.nodup_append.1 hnodup₁).2.1).1
          exact fun he => hx (List.mem_of_getLast? he)
        rw [if_neg hxy, if_neg hlast, hxnext]
        rfl

/-- A node is taken out from between `l₁` and `l₂`. -/
theorem Linked.erase (hl : h.Linked before (l₁ ++ x :: l₂) after) (hnodup : (l₁ ++ x :: l₂).Nodup)
    (hnext : ∀ q ∈ l₁ ++ l₂, h'.next q = if l₁.getLast? = some q then l₂.headD after else h.next q)
    (hprev : ∀ q ∈ l₁ ++ l₂, h'.prev q = if l₂.head? = some q then l₁.getLastD before
      else h.prev q) :
    h'.Linked before (l₁ ++ l₂) after := by
  have hapart := List.disjoint_of_nodup_append (List.nodup_middle.1 hnodup).of_cons
  obtain ⟨hnodup₁, hnodup₂, -⟩ := List.nodup_append.1 (List.nodup_middle.1 hnodup).of_cons
  intro m₁ q m₂ heq
  rw [hnext q (by simp [heq]), hprev q (by simp [heq])]
  rcases List.append_eq_append_iff.1 heq with ⟨as, rfl, rfl⟩ | ⟨cs, rfl, hcs⟩
  · obtain ⟨hqnext, hqprev⟩ := hl (l₁ ++ x :: as) q m₂ (by simp)
    have hlast : l₁.getLast? ≠ some q := fun hq => hapart (List.mem_of_getLast? hq) (by simp)
    refine ⟨by rw [if_neg hlast, hqnext], ?_⟩
    cases as with
    | nil => simp
    | cons w as =>
      have hwq : w ≠ q := fun he => (List.nodup_cons.1 hnodup₂).1 (by simp [he])
      simp [hwq, hqprev, List.getLastD_eq_getLast?, List.getLast?_append, List.getLast?_cons]
  · cases cs with
    | nil =>
      rw [List.nil_append] at hcs
      subst hcs
      obtain ⟨hqnext, -⟩ := hl (m₁ ++ [x]) q m₂ (by simp)
      have hlast : (m₁ ++ []).getLast? ≠ some q :=
        fun hq => hapart (List.mem_of_getLast? hq) (by simp)
      exact ⟨by rw [if_neg hlast, hqnext], by simp⟩
    | cons z cs =>
      rw [List.cons_append] at hcs
      obtain ⟨rfl, rfl⟩ := List.cons.inj hcs
      obtain ⟨hqnext, hqprev⟩ := hl m₁ q (cs ++ x :: l₂) (by simp)
      have hhead : l₂.head? ≠ some q := fun hq => hapart (by simp) (List.mem_of_head? hq)
      refine ⟨?_, by rw [if_neg hhead, hqprev]⟩
      cases cs with
      | nil => simp
      | cons w cs =>
        have hlast : (m₁ ++ q :: w :: cs).getLast? ≠ some q := by
          rw [List.getLast?_append_of_ne_nil _ (List.cons_ne_nil _ _), List.getLast?_cons_cons]
          have hq := (List.nodup_cons.1 (List.nodup_append.1 hnodup₁).2.1).1
          exact fun he => hq (List.mem_of_getLast? he)
        rw [if_neg hlast, hqnext]
        rfl

end

end Links

end Diana.Lib
