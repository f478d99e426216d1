import Mathlib.Data.BitVec
import Mathlib.Tactic.Common

/-!
# Flat memory

A memory with a value at every address of `w` bits; addresses wrap around at the top.

* `load m a n`, `store m a l`: the `n` values from `a` on, and the values `l` put there;
* `getElem_load`, `store_inside`, `store_of_outside`: one value of a window, one
  address after a store;
* `store_append`: two stores one behind the other;
* `load_store_same`: what a load finds of an earlier store.
-/

namespace Diana.Lib

variable {w : Nat} {β : Type}

/-- The `n` values from `a` on. -/
def load (m : BitVec w → β) (a : BitVec w) (n : Nat) : List β :=
  (List.range n).map fun i => m (a + BitVec.ofNat w i)

/-- The values `l` from `a` on, everything else as it is. -/
def store (m : BitVec w → β) (a : BitVec w) (l : List β) : BitVec w → β := fun x =>
  (l[(x - a).toNat]?).getD (m x)

section

variable {m : BitVec w → β} {a x : BitVec w} {n i : Nat} {l : List β}

@[simp] theorem length_load (m : BitVec w → β) (a : BitVec w) (n : Nat) :
    (load m a n).length = n := by
  simp [load]

theorem getElem_load (h : i < (load m a n).length) :
    (load m a n)[i] = m (a + BitVec.ofNat w i) := by
  simp [load]

theorem store_of_outside (h : l.length ≤ (x - a).toNat) : store m a l x = m x := by
  unfold store
  rw [List.getElem?_eq_none h]
  rfl

theorem store_inside (h : (x - a).toNat < l.length) : store m a l x = l[(x - a).toNat] := by
  unfold store
  rw [List.getElem?_eq_getElem h]
  rfl

theorem toNat_add_sub (a : BitVec w) (hi : i < 2 ^ w) : (a + BitVec.ofNat w i - a).toNat = i := by
  have h : a + BitVec.ofNat w i - a = BitVec.ofNat w i := by
    rw [BitVec.add_comm, BitVec.add_sub_cancel]
  rw [h, BitVec.toNat_ofNat, Nat.mod_eq_of_lt hi]

@[simp] theorem store_nil (m : BitVec w → β) (a : BitVec w) : store m a [] = m := rfl

/-- Two stores one behind the other. -/
theorem store_append (m : BitVec w → β) (a : BitVec w) {l l' : List β}
    (h : l.length + l'.length ≤ 2 ^ w) :
    store m a (l ++ l') = store (store m a l) (a + BitVec.ofNat w l.length) l' := by
  funext x
  have hx := (x - a).isLt
  rcases Nat.lt_or_ge l.length (2 ^ w) with hlt | hge
  · have hsub : (x - (a + BitVec.ofNat w l.length)).toNat =
        (2 ^ w - l.length + (x - a).toNat) % 2 ^ w := by
      rw [sub_add_eq_sub_sub, BitVec.toNat_sub, BitVec.toNat_ofNat, Nat.mod_eq_of_lt hlt]
    unfold store
    by_cases hin : (x - a).toNat < l.length
    · -- in the first part, and too far behind the second
      rw [Nat.mod_eq_of_lt (by omega)] at hsub
      rw [List.getElem?_append_left hin, List.getElem?_eq_none (l := l') (by omega),
        List.getElem?_eq_getElem hin]
      rfl
    · have hmod : (2 ^ w - l.length + (x - a).toNat) % 2 ^ w = (x - a).toNat - l.length := by
        rw [show 2 ^ w - l.length + (x - a).toNat = (x - a).toNat - l.length + 2 ^ w by omega,
          Nat.add_mod_right, Nat.mod_eq_of_lt (by omega)]
      rw [hmod] at hsub
      rw [List.getElem?_append_right (by omega), hsub, List.getElem?_eq_none (l := l) (by omega)]
      rfl
  · -- the first part is everything
    have hnil : l' = [] := List.length_eq_zero_iff.1 (by omega)
    rw [hnil, List.append_nil, store_nil]

/-- A window reads back, as long as it does not run into itself. -/
theorem load_store_same (m : BitVec w → β) (a : BitVec w) (hl : l.length ≤ 2 ^ w) :
    load (store m a l) a l.length = l := by
  refine List.ext_getElem (length_load _ _ _) fun i h hi => ?_
  have hw := toNat_add_sub a (hi.trans_le hl)
  rw [getElem_load, store_inside (by rwa [hw])]
  simp only [hw]

end

end Diana.Lib
