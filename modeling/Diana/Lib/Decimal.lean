import Mathlib.Data.Nat.Digits.Lemmas
import Mathlib.Data.List.Basic

/-!
# Decimal texts

* `decimal n`: the digits of a number, `decimalValue` of a text of digits;
* `padded width n`: with zeros in front, `fixed width n`: the last digits,
  `padded_eq_fixed` where they are all;
* `lt_iff_decimalValue_lt`: texts of digits of one length are ordered as their values are.
-/

namespace Diana.Lib

/-- The character of a digit. -/
def digitByte (d : Nat) : BitVec 8 := BitVec.ofNat 8 (48 + d)

def isDigit (b : BitVec 8) : Bool := 48 ≤ b.toNat ∧ b.toNat < 58

/-- `%llu` -/
def decimal (n : Nat) : List (BitVec 8) :=
  if n = 0 then [digitByte 0] else (Nat.digits 10 n).reverse.map digitByte

/-- `%0<width>llu` -/
def padded (width n : Nat) :
    List (BitVec 8) := List.replicate (width - (decimal n).length) 48 ++ decimal n

def decimalValue (text : List (BitVec 8)) :
    Nat := Nat.ofDigits 10 (text.reverse.map fun b => b.toNat - 48)

theorem toNat_digitByte {d : Nat} (h : d < 10) : (digitByte d).toNat = 48 + d := by
  unfold digitByte
  rw [BitVec.toNat_ofNat, Nat.mod_eq_of_lt (by omega)]

theorem isDigit_digitByte {d : Nat} (h : d < 10) : isDigit (digitByte d) := by
  unfold isDigit
  rw [toNat_digitByte h]
  exact decide_eq_true ⟨by omega, by omega⟩

theorem isDigit_of_mem_decimal {n : Nat} {b : BitVec 8} (h : b ∈ decimal n) : isDigit b := by
  unfold decimal at h
  split at h
  · rw [List.mem_singleton.1 h]
    exact isDigit_digitByte (by decide)
  · obtain ⟨d, hd, rfl⟩ := List.mem_map.1 h
    exact isDigit_digitByte (Nat.digits_lt_base (by decide) (List.mem_reverse.1 hd))

theorem decimal_ne_nil (n : Nat) : decimal n ≠ [] := by
  unfold decimal
  split
  · exact List.cons_ne_nil _ _
  · next h =>
    rw [Ne, List.map_eq_nil_iff, List.reverse_eq_nil_iff]
    exact Nat.digits_ne_nil_iff_ne_zero.2 h

@[simp] theorem decimalValue_decimal (n : Nat) : decimalValue (decimal n) = n := by
  unfold decimalValue decimal
  split
  · next h => subst h; rfl
  · rw [← List.map_reverse, List.reverse_reverse, List.map_map]
    have hid : (Nat.digits 10 n).map ((fun b : BitVec 8 => b.toNat - 48) ∘ digitByte) =
        Nat.digits 10 n := by
      refine (List.map_congr_left fun d hd => ?_).trans (List.map_id _)
      show (digitByte d).toNat - 48 = d
      rw [toNat_digitByte (Nat.digits_lt_base (by decide) hd)]
      omega
    rw [hid, Nat.ofDigits_digits]

theorem decimalValue_cons (b : BitVec 8) (text : List (BitVec 8)) :
    decimalValue (b :: text) = (b.toNat - 48) * 10 ^ text.length + decimalValue text := by
  unfold decimalValue
  rw [List.reverse_cons, List.map_append, Nat.ofDigits_append, List.map_singleton,
    Nat.ofDigits_singleton, List.length_map, List.length_reverse, Nat.mul_comm, Nat.add_comm]

theorem decimalValue_append (s t : List (BitVec 8)) :
    decimalValue (s ++ t) = decimalValue s * 10 ^ t.length + decimalValue t := by
  unfold decimalValue
  rw [List.reverse_append, List.map_append, Nat.ofDigits_append, List.length_map,
    List.length_reverse, Nat.mul_comm, Nat.add_comm]

theorem decimalValue_lt {text : List (BitVec 8)} (h : ∀ b ∈ text, isDigit b) :
    decimalValue text < 10 ^ text.length := by
  unfold decimalValue
  rw [← List.length_reverse, ← @List.length_map _ _ text.reverse fun b => b.toNat - 48]
  refine Nat.ofDigits_lt_base_pow_length (by decide) fun d hd => ?_
  obtain ⟨b, hb, rfl⟩ := List.mem_map.1 hd
  have hdigit := of_decide_eq_true (h b (List.mem_reverse.1 hb))
  omega

/-- The leading digit decides, and then the rest. -/
theorem lead_lt_iff {p x y u v : Nat} (hu : u < p) (hv : v < p) :
    x * p + u < y * p + v ↔ x < y ∨ x = y ∧ u < v := by
  have hgap : ∀ {x y u v : Nat}, u < p → x < y → x * p + u < y * p + v := by
    intro x y u v hu hlt
    have hstep : (x + 1) * p ≤ y * p := Nat.mul_le_mul_right p hlt
    rw [Nat.succ_mul] at hstep
    omega
  rcases Nat.lt_trichotomy x y with hlt | rfl | hgt
  · exact iff_of_true (hgap hu hlt) (.inl hlt)
  · omega
  · have hback : y * p + v < x * p + u := hgap hv hgt
    exact iff_of_false (by omega) (by omega)

theorem lt_iff_decimalValue_lt {s t : List (BitVec 8)} (hlen : s.length = t.length)
    (hs : ∀ b ∈ s, isDigit b) (ht : ∀ b ∈ t, isDigit b) :
    s < t ↔ decimalValue s < decimalValue t := by
  induction s generalizing t with
  | nil =>
    obtain rfl := List.length_eq_zero_iff.1 hlen.symm
    exact iff_of_false (List.lt_irrefl _) (Nat.lt_irrefl _)
  | cons a s ih =>
    cases t with
    | nil => exact absurd hlen (by simp)
    | cons b t =>
      have hlen' : s.length = t.length := Nat.succ.inj hlen
      have hrest := ih hlen' (fun x hx => hs x (List.mem_cons_of_mem _ hx)) fun x hx =>
          ht x (List.mem_cons_of_mem _ hx)
      have hslt := decimalValue_lt fun x hx => hs x (List.mem_cons_of_mem _ hx)
      have htlt := decimalValue_lt fun x hx => ht x (List.mem_cons_of_mem _ hx)
      have ha := of_decide_eq_true (hs a List.mem_cons_self)
      have hb := of_decide_eq_true (ht b List.mem_cons_self)
      rw [hlen'] at hslt
      rw [List.cons_lt_cons_iff, hrest, decimalValue_cons, decimalValue_cons, hlen',
        lead_lt_iff hslt htlt, BitVec.lt_def, ← BitVec.toNat_inj]
      omega

theorem eq_of_decimalValue_eq {s t : List (BitVec 8)} (hlen : s.length = t.length)
    (hs : ∀ b ∈ s, isDigit b) (ht : ∀ b ∈ t, isDigit b) (h : decimalValue s = decimalValue t) :
    s = t := by
  induction s generalizing t with
  | nil => exact (List.length_eq_zero_iff.1 hlen.symm).symm
  | cons a s ih =>
    cases t with
    | nil => exact absurd hlen (by simp)
    | cons b t =>
      have hlen' : s.length = t.length := Nat.succ.inj hlen
      have hs' : ∀ x ∈ s, isDigit x := fun x hx => hs x (List.mem_cons_of_mem _ hx)
      have ht' : ∀ x ∈ t, isDigit x := fun x hx => ht x (List.mem_cons_of_mem _ hx)
      have ha := of_decide_eq_true (hs a List.mem_cons_self)
      have hb := of_decide_eq_true (ht b List.mem_cons_self)
      have hslt := decimalValue_lt hs'
      have htlt := decimalValue_lt ht'
      rw [hlen'] at hslt
      rw [decimalValue_cons, decimalValue_cons, hlen'] at h
      have hno := mt (lead_lt_iff (x := a.toNat - 48) (y := b.toNat - 48) hslt htlt).2 (by omega)
      have hno' := mt (lead_lt_iff (x := b.toNat - 48) (y := a.toNat - 48) htlt hslt).2 (by omega)
      have hlead : a = b := BitVec.eq_of_toNat_eq (by omega)
      rw [hlead, ih hlen' hs' ht' (by omega)]

/-- Texts of one length are ordered by their first parts, and then by what comes behind. -/
theorem append_lt_append {s t : List (BitVec 8)} (hlen : s.length = t.length) (h : s < t)
    (u v : List (BitVec 8)) : s ++ u < t ++ v := by
  induction s generalizing t with
  | nil =>
    obtain rfl := List.length_eq_zero_iff.1 hlen.symm
    exact absurd h (List.lt_irrefl _)
  | cons a s ih =>
    cases t with
    | nil => exact absurd hlen (by simp)
    | cons b t =>
      rw [List.cons_append, List.cons_append, List.cons_lt_cons_iff]
      exact (List.cons_lt_cons_iff.1 h).imp_right fun ⟨heq, hlt⟩ =>
        ⟨heq, ih (Nat.succ.inj hlen) hlt⟩

/-- The last digits of a number. -/
def fixed : (width : Nat) → Nat → List (BitVec 8)
  | 0, _ => []
  | width + 1, n => fixed width (n / 10) ++ [digitByte (n % 10)]

theorem length_fixed (width n : Nat) : (fixed width n).length = width := by
  induction width generalizing n with
  | zero => rfl
  | succ width ih => rw [fixed, List.length_append, ih, List.length_singleton]

theorem isDigit_of_mem_fixed {width n : Nat} {b : BitVec 8} (h : b ∈ fixed width n) :
    isDigit b := by
  induction width generalizing n with
  | zero => cases h
  | succ width ih =>
    rcases List.mem_append.1 h with h | h
    · exact ih h
    · rw [List.mem_singleton.1 h]
      exact isDigit_digitByte (Nat.mod_lt _ (by decide))

theorem decimalValue_fixed (width n : Nat) : decimalValue (fixed width n) = n % 10 ^ width := by
  induction width generalizing n with
  | zero => exact (Nat.mod_one n).symm
  | succ width ih =>
    have hdigit : decimalValue [digitByte (n % 10)] = n % 10 := by
      rw [decimalValue_cons, toNat_digitByte (Nat.mod_lt _ (by decide))]
      simp [decimalValue]
    rw [fixed, decimalValue_append, ih, hdigit, List.length_singleton, Nat.pow_one, Nat.pow_succ,
      Nat.mul_comm (10 ^ width), Nat.mod_mul, Nat.mul_comm, Nat.add_comm]

theorem length_padded {width n : Nat} (hw : 0 < width) (h : n < 10 ^ width) :
    (padded width n).length = width := by
  have hle : (decimal n).length ≤ width := by
    unfold decimal
    split
    · exact hw
    · rw [List.length_map, List.length_reverse]
      exact (Nat.digits_length_le_iff (by decide) n).2 h
  unfold padded
  rw [List.length_append, List.length_replicate]
  omega

theorem isDigit_of_mem_padded {width n : Nat} {b : BitVec 8} (h : b ∈ padded width n) :
    isDigit b := by
  rcases List.mem_append.1 h with h | h
  · rw [List.eq_of_mem_replicate h]
    decide
  · exact isDigit_of_mem_decimal h

@[simp] theorem decimalValue_padded (width n : Nat) : decimalValue (padded width n) = n := by
  unfold padded
  induction width - (decimal n).length with
  | zero => exact decimalValue_decimal n
  | succ k ih =>
    rw [List.replicate_succ, List.cons_append, decimalValue_cons, ih]
    simp

/-- A number of so many digits at most is printed with all of them. -/
theorem padded_eq_fixed {width n : Nat} (hw : 0 < width) (h : n < 10 ^ width) :
    padded width n = fixed width n := by
  refine eq_of_decimalValue_eq ((length_padded hw h).trans (length_fixed width n).symm)
    (fun _ => isDigit_of_mem_padded) (fun _ => isDigit_of_mem_fixed) ?_
  rw [decimalValue_padded, decimalValue_fixed, Nat.mod_eq_of_lt h]

end Diana.Lib
