import Diana.Lib.Field

/-!
# Register cells

A register file is a family of words of different widths, and its registers are windows of the
words: `al` is the low byte of the cell of `rax`, `xmm3` the low 128 bits of the cell of `zmm3`.

* `get f c lo n`, `set f c lo n v`: a window of cell `c`, read and written;
* `get_set_same`, `get_set_window`, `get_set_cell`: a written window reads back, and a disjoint
  window or another cell is left alone;
* `set_all`: a window as wide as its cell is the cell;
* `foldl_keeps`, `foldl_turn`: loops that write one cell after the other.
-/

namespace Diana.Lib

variable {ι : Type} [DecidableEq ι] {w : ι → Nat}

/-- A file of cells; cell `c` holds `w c` bits. -/
abbrev Cells (w : ι → Nat) := (c : ι) → BitVec (w c)

namespace Cells

/-- The `n` bits of cell `c` from bit `lo` on. -/
def get (f : Cells w) (c : ι) (lo n : Nat) : BitVec n :=
  (f c).extractLsb' lo n

/-- The `n` bits of cell `c` from bit `lo` on, replaced by `v`. -/
def set (f : Cells w) (c : ι) (lo n : Nat) (v : BitVec n) : Cells w :=
  Function.update f c (setField (f c) lo n v)

theorem set_apply_same (f : Cells w) (c : ι) (lo n : Nat) (v : BitVec n) :
    (f.set c lo n v) c = setField (f c) lo n v :=
  Function.update_self ..

theorem set_apply_other (f : Cells w) {c d : ι} (lo n : Nat) (v : BitVec n) (h : d ≠ c) :
    (f.set c lo n v) d = f d :=
  Function.update_of_ne h ..

theorem get_set_same (f : Cells w) {c : ι} {lo n : Nat} (v : BitVec n) (h : lo + n ≤ w c) :
    (f.set c lo n v).get c lo n = v := by
  rw [get, set_apply_same]
  exact extractLsb'_setField_same _ v h

theorem get_set_window (f : Cells w) {c : ι} {lo n lo' n' : Nat} (v : BitVec n)
    (h : lo' + n' ≤ lo ∨ lo + n ≤ lo') (hw : lo' + n' ≤ w c) :
    (f.set c lo n v).get c lo' n' = f.get c lo' n' := by
  rw [get, set_apply_same]
  exact extractLsb'_setField_other _ v h hw

theorem get_set_cell (f : Cells w) {c d : ι} (lo n : Nat) (v : BitVec n) {lo' n' : Nat}
    (h : d ≠ c) : (f.set c lo n v).get d lo' n' = f.get d lo' n' := by
  rw [get, set_apply_other f lo n v h, get]

/-- The bits of a cell that was written into. -/
theorem getLsbD_set (f : Cells w) {c : ι} {lo n i : Nat} (v : BitVec n) (hi : i < w c) :
    ((f.set c lo n v) c).getLsbD i =
      if lo ≤ i ∧ i < lo + n then v.getLsbD (i - lo) else (f c).getLsbD i := by
  rw [set_apply_same]
  exact getLsbD_setField (f c) lo n v hi

/-- A window as wide as its cell is the whole cell. -/
theorem set_all (f : Cells w) {c : ι} {n : Nat} (v : BitVec n) (h : w c = n) :
    (f.set c 0 n v) c = v.cast h.symm := by
  apply BitVec.eq_of_getLsbD_eq
  intro i hi
  rw [getLsbD_set f v hi, BitVec.getLsbD_cast]
  simp [h ▸ hi]

omit [DecidableEq ι] in
theorem get_all (f : Cells w) {c : ι} {n : Nat} (h : w c = n) :
    f.get c 0 n = (f c).cast h := by
  apply BitVec.eq_of_getLsbD_eq
  intro i hi
  rw [get, BitVec.getLsbD_extractLsb', BitVec.getLsbD_cast]
  simp [hi]

/-! ## Loops over a file -/

section Loop

variable {σ κ τ : Type} {step : σ → κ → σ} {p : σ → τ}

/-- A loop whose turns leave `p` alone leaves it alone. -/
theorem foldl_keeps (l : List κ) (h : ∀ s i, i ∈ l → p (step s i) = p s) (s : σ) :
    p (l.foldl step s) = p s := by
  induction l generalizing s with
  | nil => rfl
  | cons i l ih =>
    rw [List.foldl_cons, ih (fun s j hj => h s j (List.mem_cons_of_mem i hj))]
    exact h s i List.mem_cons_self

/-- In a loop over distinct indices of which only turn `i` touches `p`, what turn `i` does to `p` is
what the loop does to it. -/
theorem foldl_turn {l : List κ} {i : κ} (hl : l.Nodup) (hi : i ∈ l) {g : τ → τ}
    (hother : ∀ s j, j ≠ i → p (step s j) = p s) (hself : ∀ s, p (step s i) = g (p s)) (s : σ) :
    p (l.foldl step s) = g (p s) := by
  induction l generalizing s with
  | nil => cases hi
  | cons j l ih =>
    rw [List.foldl_cons]
    obtain ⟨hj, hl⟩ := List.nodup_cons.mp hl
    rcases List.mem_cons.mp hi with rfl | hi
    · rw [foldl_keeps l (fun s k hk => hother s k fun he => hj (he ▸ hk)), hself]
    · rw [ih hl hi, hother s j fun he => hj (he ▸ hi)]

end Loop

end Cells

end Diana.Lib
