import Mathlib.Algebra.Group.Int.Defs
import Mathlib.Algebra.Group.Nat.Defs
import Mathlib.Data.List.Pairwise
import Mathlib.Tactic.Common

/-!
# Patches of a content

A content gives the value at every address. A patch reads a window of it and writes a new window
there.

* `window m o n`, `overlay m o l`: reading and writing a window;
* `Patch.apply`: one patch; `applyAll`: several, one after the other;
* `window_applyAll`, `applyAll_outside`: patches with disjoint windows act as if each were alone;
* `applyAll_undo`: and patches that undo them one by one undo them all.
-/

namespace Diana.Lib

variable {β : Type}

/-- The `n` values from `o` on. -/
def window (m : Nat → β) (o n : Nat) : List β := (List.range n).map fun i => m (o + i)

/-- The values `l` from `o` on, everything else as it is. -/
def overlay (m : Nat → β) (o : Nat) (l : List β) : Nat → β := fun i =>
  if o ≤ i then (l[i - o]?).getD (m i) else m i

section

variable {m : Nat → β} {o n i : Nat} {l : List β}

@[simp] theorem length_window (m : Nat → β) (o n : Nat) : (window m o n).length = n := by
  simp [window]

theorem overlay_of_outside (h : i < o ∨ o + l.length ≤ i) : overlay m o l i = m i := by
  unfold overlay
  split
  · next ho =>
    rw [List.getElem?_eq_none (by omega)]
    rfl
  · rfl

theorem overlay_inside (h : i < l.length) : overlay m o l (o + i) = l[i] := by
  unfold overlay
  rw [if_pos (by omega), Nat.add_sub_cancel_left, List.getElem?_eq_getElem h]
  rfl

theorem window_congr {m' : Nat → β} (h : ∀ i, o ≤ i → i < o + n → m i = m' i) :
    window m o n = window m' o n := by
  refine List.map_congr_left fun i hi => ?_
  have := List.mem_range.1 hi
  exact h (o + i) (by omega) (by omega)

theorem window_overlay_same (m : Nat → β) (o : Nat) (l : List β) :
    window (overlay m o l) o l.length = l := by
  refine List.ext_getElem (length_window _ _ _) fun i h _ => ?_
  rw [length_window] at h
  simp only [window, List.getElem_map, List.getElem_range]
  exact overlay_inside h

theorem window_overlay_of_disjoint {p : Nat} (h : o + n ≤ p ∨ p + l.length ≤ o) :
    window (overlay m p l) o n = window m o n := by
  refine window_congr fun i h1 h2 => overlay_of_outside ?_
  omega

theorem overlay_window (m : Nat → β) (o n : Nat) : overlay m o (window m o n) = m := by
  funext i
  by_cases h : o ≤ i ∧ i < o + n
  · obtain ⟨j, rfl⟩ : ∃ j, i = o + j := ⟨i - o, by omega⟩
    have hj : j < (window m o n).length := by
      rw [length_window]
      omega
    rw [overlay_inside hj]
    simp [window]
  · exact overlay_of_outside (by rw [length_window]; omega)

theorem overlay_append (m : Nat → β) (o : Nat) (l l' : List β) :
    overlay (overlay m o l) (o + l.length) l' = overlay m o (l ++ l') := by
  funext i
  by_cases hlow : i < o
  · rw [overlay_of_outside (.inl (by omega)), overlay_of_outside (.inl hlow),
      overlay_of_outside (.inl hlow)]
  · obtain ⟨j, rfl⟩ : ∃ j, i = o + j := ⟨i - o, by omega⟩
    by_cases hj : j < l.length
    · rw [overlay_of_outside (.inl (by omega)), overlay_inside hj,
        overlay_inside (by rw [List.length_append]; omega), List.getElem_append_left hj]
    · have hrest : (l ++ l')[j]? = l'[j - l.length]? := List.getElem?_append_right (by omega)
      have hfirst : l[j]? = none := List.getElem?_eq_none (by omega)
      have hj' : o + j - (o + l.length) = j - l.length := by omega
      simp only [overlay, Nat.le_add_right, if_true, Nat.add_sub_cancel_left, hrest, hfirst, hj',
        Option.getD_none]
      rw [if_pos (by omega)]

/-- A part of a window. -/
theorem take_drop_window {k p : Nat} (h : k + p ≤ n) :
    ((window m o n).drop k).take p = window m (o + k) p := by
  refine List.ext_getElem (by simp only [List.length_take, List.length_drop, length_window]; omega)
    fun i h1 h2 => ?_
  simp only [window, List.getElem_take, List.getElem_drop, List.getElem_map, List.getElem_range,
    Nat.add_assoc]

end

/-! ## Patches -/

/-- A change of the values in a window. -/
structure Patch (β : Type) where
  start : Nat
  width : Nat
  change : List β → List β
  length_change : ∀ l, l.length = width → (change l).length = width

namespace Patch

variable {p q : Patch β} {m : Nat → β}

def apply (p : Patch β) (m : Nat → β) : Nat → β :=
  overlay m p.start (p.change (window m p.start p.width))

/-- The windows do not meet. -/
def Disjoint (p q : Patch β) : Prop := p.start + p.width ≤ q.start ∨ q.start + q.width ≤ p.start

theorem Disjoint.symm (h : p.Disjoint q) : q.Disjoint p := Or.symm h

/-- The address is in the window. -/
def Covers (p : Patch β) (i : Nat) : Prop := p.start ≤ i ∧ i < p.start + p.width

theorem length_change_window (p : Patch β) (m : Nat → β) :
    (p.change (window m p.start p.width)).length = p.width :=
  p.length_change _ (length_window _ _ _)

theorem apply_of_not_covers {i : Nat} (h : ¬ p.Covers i) : p.apply m i = m i := by
  refine overlay_of_outside ?_
  rw [length_change_window]
  unfold Covers at h
  omega

theorem window_apply_same (p : Patch β) (m : Nat → β) :
    window (p.apply m) p.start p.width = p.change (window m p.start p.width) := by
  have h := window_overlay_same m p.start (p.change (window m p.start p.width))
  rw [length_change_window] at h
  exact h

theorem window_apply_of_disjoint (h : p.Disjoint q) :
    window (p.apply m) q.start q.width = window m q.start q.width := by
  refine window_overlay_of_disjoint ?_
  rw [length_change_window]
  exact Or.symm h

end Patch

/-- Patches one after the other. -/
def applyAll (l : List (Patch β)) (m : Nat → β) : Nat → β := l.foldl (fun m p => p.apply m) m

section

variable {l : List (Patch β)} {m : Nat → β}

/-- Patches that change nothing. -/
theorem applyAll_eq_self (h : ∀ p ∈ l, ∀ w : List β, w.length = p.width → p.change w = w) :
    applyAll l m = m := by
  induction l generalizing m with
  | nil => rfl
  | cons p l ih =>
    have hp : p.apply m = m := by
      rw [Patch.apply, h p List.mem_cons_self _ (length_window _ _ _), overlay_window]
    rw [applyAll, List.foldl_cons, hp]
    exact ih fun q hq => h q (List.mem_cons_of_mem _ hq)

theorem applyAll_outside {i : Nat} (h : ∀ p ∈ l, ¬ p.Covers i) : applyAll l m i = m i := by
  induction l generalizing m with
  | nil => rfl
  | cons p l ih =>
    rw [applyAll, List.foldl_cons]
    exact (ih fun q hq => h q (List.mem_cons_of_mem _ hq)).trans
      (Patch.apply_of_not_covers (h p List.mem_cons_self))

theorem window_applyAll_of_disjoint {q : Patch β} (h : ∀ p ∈ l, p.Disjoint q) :
    window (applyAll l m) q.start q.width = window m q.start q.width := by
  induction l generalizing m with
  | nil => rfl
  | cons p l ih =>
    rw [applyAll, List.foldl_cons]
    exact (ih fun r hr => h r (List.mem_cons_of_mem _ hr)).trans
      (Patch.window_apply_of_disjoint (h p List.mem_cons_self))

/-- Each of several disjoint patches acts on what was there before all of them. -/
theorem window_applyAll (hl : l.Pairwise Patch.Disjoint) {p : Patch β} (hp : p ∈ l) :
    window (applyAll l m) p.start p.width = p.change (window m p.start p.width) := by
  induction l generalizing m with
  | nil => cases hp
  | cons q l ih =>
    rw [List.pairwise_cons] at hl
    rw [applyAll, List.foldl_cons]
    rcases List.mem_cons.1 hp with rfl | hp
    · refine (window_applyAll_of_disjoint fun r hr => (hl.1 r hr).symm).trans ?_
      exact Patch.window_apply_same _ m
    · rw [← Patch.window_apply_of_disjoint (m := m) (hl.1 p hp)]
      exact ih hl.2 hp

/-- Two contents with the same windows and the same rest. -/
theorem eq_of_windows {m' : Nat → β}
    (hin : ∀ p ∈ l, window m p.start p.width = window m' p.start p.width)
    (hout : ∀ i, (∀ p ∈ l, ¬ p.Covers i) → m i = m' i) : m = m' := by
  funext i
  by_cases h : ∃ p ∈ l, p.Covers i
  · obtain ⟨p, hp, h1, h2⟩ := h
    have hw := congrArg (fun w => w[i - p.start]?) (hin p hp)
    have hlt : i - p.start < p.width := by omega
    have he : p.start + (i - p.start) = i := by omega
    simpa [window, hlt, he] using hw
  · exact hout i fun p hp hc => h ⟨p, hp, hc⟩

/-- Patches that undo others, window by window. -/
structure Undoes (q p : Patch β) : Prop where
  start : q.start = p.start
  width : q.width = p.width
  change : ∀ w : List β, w.length = p.width → q.change (p.change w) = w

theorem Undoes.disjoint {p q p' q' : Patch β} (hp : Undoes p' p) (hq : Undoes q' q)
    (h : p.Disjoint q) : p'.Disjoint q' := by
  unfold Patch.Disjoint at h ⊢
  rwa [hp.start, hp.width, hq.start, hq.width]

theorem applyAll_undo {κ : Type} {f g : κ → Patch β} {ks : List κ}
    (hl : (ks.map f).Pairwise Patch.Disjoint) (hundo : ∀ k ∈ ks, Undoes (g k) (f k)) :
    applyAll (ks.map g) (applyAll (ks.map f) m) = m := by
  have hl' : (ks.map g).Pairwise Patch.Disjoint := by
    rw [List.pairwise_map] at hl ⊢
    exact hl.imp_of_mem fun hj hk h => (hundo _ hj).disjoint (hundo _ hk) h
  refine eq_of_windows (l := ks.map f) (fun p hp => ?_) fun i hi => ?_
  · obtain ⟨k, hk, rfl⟩ := List.mem_map.1 hp
    have h := window_applyAll (m := applyAll (ks.map f) m) hl' (List.mem_map_of_mem hk)
    rw [(hundo k hk).start, (hundo k hk).width, window_applyAll hl hp,
      (hundo k hk).change _ (length_window _ _ _)] at h
    exact h
  · rw [applyAll_outside, applyAll_outside hi]
    intro q hq
    obtain ⟨k, hk, rfl⟩ := List.mem_map.1 hq
    have hout := hi (f k) (List.mem_map_of_mem hk)
    unfold Patch.Covers at hout ⊢
    rwa [(hundo k hk).start, (hundo k hk).width]

end

end Diana.Lib
