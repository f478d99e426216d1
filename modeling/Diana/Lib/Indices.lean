import Mathlib.Algebra.Group.Int.Defs
import Mathlib.Algebra.Group.Nat.Defs
import Mathlib.Data.List.Induction
import Mathlib.Data.List.Nodup
import Mathlib.Data.List.Perm.Basic

/-!
# Lists of indices

A store that only grows, and lists of indices that say where the entries of one kind are in it:
`xs.findIdxs p`. What a loop over such a list does is what a loop over the entries does.

* `foldl_modify_findIdxs`: a write to every entry of the list;
* `foldl_findIdxs`: a loop that reads the entries while it appends to the store;
* `flatMap_of_unique`: what one entry alone contributes;
* `flatMap_filter_perm`: the entries gathered kind by kind.
-/

namespace Diana.Lib

variable {α σ κ : Type}

theorem findIdxs_concat (p : α → Bool) (xs : List α) (x : α) :
    (xs ++ [x]).findIdxs p = xs.findIdxs p ++ if p x then [xs.length] else [] := by
  rw [List.findIdxs_append, List.findIdxs_singleton, Nat.zero_add]

/-- An entry is on the list of its kind, once. -/
theorem count_findIdxs (p : α → Bool) {xs : List α} {i : Nat} {x : α} (hi : xs[i]? = some x) :
    (xs.findIdxs p).count i = if p x then 1 else 0 := by
  obtain ⟨hlt, rfl⟩ := List.getElem?_eq_some_iff.1 hi
  have hmem := List.mem_findIdxs_iff_pos_getElem (p := p) hlt
  split
  case isTrue hp => exact List.count_eq_one_of_mem List.nodup_findIdxs (hmem.2 hp)
  case isFalse hp => exact List.count_eq_zero.2 fun hm => hp (hmem.1 hm)

/-- Where only one entry contributes. -/
theorem flatMap_of_unique {β : Type} [DecidableEq α] {f : α → List β} {a : α} {xs : List α}
    (hxs : xs.Nodup) (h : ∀ b ∈ xs, b ≠ a → f b = []) :
    xs.flatMap f = if a ∈ xs then f a else [] := by
  induction xs with
  | nil => rfl
  | cons b xs ih =>
    rw [List.nodup_cons] at hxs
    have ih := ih hxs.2 fun c hc => h c (List.mem_cons_of_mem b hc)
    rw [List.flatMap_cons, ih]
    by_cases hba : b = a
    · subst hba
      rw [if_neg hxs.1, if_pos (List.mem_cons_self ..), List.append_nil]
    · rw [h b (List.mem_cons_self ..) hba, List.nil_append]
      exact if_congr (by rw [List.mem_cons, or_iff_right fun h => hba h.symm]) rfl rfl

/-- A write through each index of a list. -/
theorem foldl_modify_findIdxs (f : α → α) (p : α → Bool) (xs : List α) :
    (xs.findIdxs p).foldl (fun l i => l.modify i f) xs = xs.map fun x => if p x then f x
    else x := by
  have h : ∀ (ys xs : List α),
    (xs.findIdxs p ys.length).foldl (fun l i => l.modify i f) (ys ++ xs) =
      ys ++ xs.map fun x => if p x then f x else x := by
    intro ys xs
    induction xs generalizing ys with
    | nil => rfl
    | cons x xs ih =>
      rw [List.findIdxs_cons, List.map_cons]
      have hlen : ∀ y : α, (ys ++ [y]).length = ys.length + 1 := fun y => by simp
      split
      · have hx : (ys ++ x :: xs).modify ys.length f = (ys ++ [f x]) ++ xs := by
          rw [List.modify_eq_take_cons_drop (by simp)]
          simp
        rw [List.foldl_cons, hx, ← hlen (f x), ih]
        simp
      · have hx : ys ++ x :: xs = (ys ++ [x]) ++ xs := by simp
        rw [hx, ← hlen x, ih]
        simp
  exact h [] xs

/-- What a loop over the indices of entries has done is said by the entries it has seen. -/
theorem foldl_findIdxs {f : σ → Nat → σ} {R : List α → σ → Prop} (p : α → Bool) (xs : List α)
    (hstep : ∀ l s i x, xs[i]? = some x → p x = true → R l s → R (l ++ [x]) (f s i)) {s : σ}
    (hs : R [] s) : R (xs.filter p) ((xs.findIdxs p).foldl f s) := by
  induction xs using List.reverseRecOn with
  | nil => exact hs
  | append_singleton xs x ih =>
    have hold : R (xs.filter p) ((xs.findIdxs p).foldl f s) := by
      refine ih fun l s i y hy => hstep l s i y ?_
      obtain ⟨hi, -⟩ := List.getElem?_eq_some_iff.1 hy
      rw [List.getElem?_append_left hi, hy]
    rw [findIdxs_concat, List.filter_append, List.foldl_append]
    cases hp : p x with
    | false => simpa [hp] using hold
    | true =>
      have hx := hstep _ _ xs.length x (by simp) hp hold
      simpa [hp] using hx

/-- A list gathered key by key -/
theorem flatMap_filter_perm [DecidableEq κ] (key : α → κ) (xs : List α) {ks : List κ}
    (h : ks.Nodup) :
    (ks.flatMap fun k => xs.filter fun x => key x = k).Perm (xs.filter fun x => key x ∈ ks) := by
  induction ks with
  | nil => simp
  | cons k ks ih =>
    obtain ⟨hk, h⟩ := List.nodup_cons.1 h
    have hp := (xs.filter fun x => key x ∈ k :: ks).filter_append_perm fun x => key x = k
    rw [List.filter_filter, List.filter_filter] at hp
    rw [List.flatMap_cons]
    refine ((ih h).append_left _).trans ?_
    convert hp using 2
    · refine List.filter_congr fun x _ => ?_
      by_cases hx : key x = k <;> simp [hx]
    · refine List.filter_congr fun x _ => ?_
      by_cases hx : key x = k
      · simp [hx, hk]
      · simp [hx]

end Diana.Lib
