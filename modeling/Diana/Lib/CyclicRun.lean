import Diana.Lib.Rotate

/-!
# Runs in a row that repeats itself

A row with the period `e` that has, in each period, one run of `s + 1` places, rotated by `r`.

* `cyclicRun_begins`: where a run begins;
* `cyclicRun_injective`: the row has one period, one length and one rotation.
-/

namespace Diana.Lib

variable {e e' s s' r r' : Nat}

/-- The place `i` is in a run. -/
def CyclicRun (e s r i : Nat) : Prop := (i + r) % e ≤ s

instance (e s r i : Nat) : Decidable (CyclicRun e s r i) := inferInstanceAs (Decidable (_ ≤ _))

theorem cyclicRun_mod {N : Nat} (h : e ∣ N) (i : Nat) :
    CyclicRun e s r (i % N) ↔ CyclicRun e s r i := by
  unfold CyclicRun
  rw [Nat.add_mod, Nat.mod_mod_of_dvd i h, ← Nat.add_mod]

/-- In the first period. -/
theorem cyclicRun_iff (hs : s < e) (hr : r < e) {i : Nat} (hi : i < e) :
    CyclicRun e s r i ↔ i + r ≤ s ∨ e ≤ i + r ∧ i + r - e ≤ s := by
  unfold CyclicRun
  by_cases hlt : i + r < e
  · rw [Nat.mod_eq_of_lt hlt]
    omega
  · rw [Nat.mod_eq_sub_mod (Nat.le_of_not_lt hlt), Nat.mod_eq_of_lt (by omega)]
    omega

theorem cyclicRun_begins (hs : s + 1 < e) (i : Nat) :
    CyclicRun e s r (i + 1) ∧ ¬CyclicRun e s r i ↔ (i + 1 + r) % e = 0 := by
  have hlt := Nat.mod_lt (i + r) (Nat.zero_lt_of_lt hs)
  have hsucc := succ_mod_cases (k := i + r) (Nat.zero_lt_of_lt hs)
  unfold CyclicRun
  rw [Nat.add_right_comm, hsucc]
  split <;> omega

/-- The period divides another one: two runs that follow each other begin at the same places. -/
theorem dvd_of_cyclicRun (hs : s + 1 < e) (hs' : s' + 1 < e') (hr : r < e)
    (h : ∀ i, CyclicRun e s r i ↔ CyclicRun e' s' r' i) : e' ∣ e := by
  obtain ⟨i, hi⟩ : ∃ i, i + 1 + r = e := ⟨e - r - 1, by omega⟩
  have hfirst : (i + 1 + r') % e' = 0 := by
    rw [← cyclicRun_begins hs', ← h, ← h, cyclicRun_begins hs, hi, Nat.mod_self]
  have hnext : (i + e + 1 + r') % e' = 0 := by
    rw [← cyclicRun_begins hs', ← h, ← h, cyclicRun_begins hs]
    have hperiod : i + e + 1 + r = e + e := by omega
    rw [hperiod, Nat.add_mod_right, Nat.mod_self]
  have hdiff : i + e + 1 + r' = i + 1 + r' + e := by omega
  rw [hdiff] at hnext
  exact (Nat.dvd_add_right (Nat.dvd_of_mod_eq_zero hfirst)).1 (Nat.dvd_of_mod_eq_zero hnext)

theorem cyclicRun_injective (hs : s + 1 < e) (hs' : s' + 1 < e') (hr : r < e) (hr' : r' < e')
    (h : ∀ i, CyclicRun e s r i ↔ CyclicRun e' s' r' i) : e = e' ∧ s = s' ∧ r = r' := by
  obtain rfl : e = e' :=
    Nat.dvd_antisymm (dvd_of_cyclicRun hs' hs hr' fun i => (h i).symm)
      (dvd_of_cyclicRun hs hs' hr h)
  obtain ⟨i, hi⟩ : ∃ i, i + 1 + r = e := ⟨e - r - 1, by omega⟩
  have hbegin : (i + 1 + r') % e = 0 := by
    rw [← cyclicRun_begins hs', ← h, ← h, cyclicRun_begins hs, hi, Nat.mod_self]
  obtain rfl : r = r' := by
    obtain ⟨k, hk⟩ := Nat.dvd_of_mod_eq_zero hbegin
    have hpos : 0 < k := by
      rcases Nat.eq_zero_or_pos k with rfl | hpos
      · omega
      · exact hpos
    have hlt : k < 2 := by
      refine Nat.lt_of_not_le fun hle => ?_
      have htwo := Nat.mul_le_mul_left e hle
      omega
    obtain rfl : k = 1 := by omega
    omega
  refine ⟨rfl, ?_, rfl⟩
  -- the place with the remainder `t`
  have hplace : ∀ t, t < e → (t ≤ s ↔ t ≤ s') := by
    intro t ht
    have hmod : (t + (i + 1) + r) % e = t := by
      rw [Nat.add_assoc t, hi, Nat.add_mod_right, Nat.mod_eq_of_lt ht]
    have ht' := h (t + (i + 1))
    unfold CyclicRun at ht'
    rwa [hmod] at ht'
  have hle := (hplace s (by omega)).1 (Nat.le_refl s)
  have hge := (hplace s' (by omega)).2 (Nat.le_refl s')
  exact Nat.le_antisymm hle hge

end Diana.Lib
