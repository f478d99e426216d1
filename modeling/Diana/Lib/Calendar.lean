import Mathlib.Logic.Function.Iterate
import Mathlib.Tactic.Common
import Mathlib.Tactic.IntervalCases

/-!
# The Gregorian calendar

Dates follow one another by the lengths of the months, for all years from 0 on.

* `Date.next`: the day after, `Date.after n` the day `n` days after another;
* `Date.number`: the days up to a date, `number_injective` on the dates there are;
* `Date.lex_of_number_lt`: a later date comes later by year, month and day.
-/

namespace Diana.Lib

def isLeap (year : Nat) : Bool := year % 4 = 0 ∧ (year % 100 ≠ 0 ∨ year % 400 = 0)

/-- The length of a month, in a leap year or in another. -/
def monthDays (leap : Bool) : Nat → Nat
  | 2 => if leap then 29 else 28
  | 4 | 6 | 9 | 11 => 30
  | _ => 31

structure Date where
  year : Nat
  month : Nat
  day : Nat
  deriving DecidableEq, Repr

namespace Date

/-- The date is in the calendar. -/
structure Valid (d : Date) : Prop where
  month_pos : 1 ≤ d.month
  month_le : d.month ≤ 12
  day_pos : 1 ≤ d.day
  day_le : d.day ≤ monthDays (isLeap d.year) d.month

/-- The day after. -/
def next (d : Date) : Date :=
  if d.day < monthDays (isLeap d.year) d.month then ⟨d.year, d.month, d.day + 1⟩
  else if d.month < 12 then ⟨d.year, d.month + 1, 1⟩
  else ⟨d.year + 1, 1, 1⟩

/-- So many days later. -/
def after (d : Date) (n : Nat) : Date := next^[n] d

theorem after_succ (d : Date) (n : Nat) :
    d.after (n + 1) = (d.after n).next := Function.iterate_succ_apply' ..

/-! ## Counting days -/

/-- The days of the years before. -/
def yearStart (year : Nat) :
    Nat := 365 * year + (year + 3) / 4 - (year + 99) / 100 + (year + 399) / 400

/-- The days of the months before. -/
def monthStart (leap : Bool) (month : Nat) :
    Nat := ((List.range' 1 (month - 1)).map (monthDays leap)).sum

/-- The days up to a date. -/
def number (d : Date) : Nat := yearStart d.year + monthStart (isLeap d.year) d.month + d.day

/-- One more year is a multiple of `k` among the ones before when it is one. -/
theorem multiples_succ {k : Nat} (h : 0 < k) (year : Nat) :
    (year + k) / k = (year + (k - 1)) / k + if year % k = 0 then 1 else 0 := by
  have hsplit := Nat.div_add_mod year k
  have hlt := Nat.mod_lt year h
  split
  · next hz =>
    have hlow : (year + (k - 1)) / k = year / k := by
      refine Nat.div_eq_of_lt_le ?_ ?_
      · rw [Nat.mul_comm]
        omega
      · rw [Nat.succ_mul, Nat.mul_comm]
        omega
    rw [Nat.add_div_right _ h, hlow]
  · next hz =>
    have hlow : (year + (k - 1)) / k = year / k + 1 := by
      refine Nat.div_eq_of_lt_le ?_ ?_
      · rw [Nat.succ_mul, Nat.mul_comm]
        omega
      · rw [Nat.succ_mul, Nat.succ_mul, Nat.mul_comm]
        omega
    rw [Nat.add_div_right _ h, hlow]

theorem yearStart_succ (year : Nat) :
    yearStart (year + 1) = yearStart year + if isLeap year then 366 else 365 := by
  have h4 := multiples_succ (k := 4) (by decide) year
  have h100 := multiples_succ (k := 100) (by decide) year
  have h400 := multiples_succ (k := 400) (by decide) year
  have hle : (year + 99) / 100 ≤ (year + 3) / 4 := by omega
  have hdvd4 : year % 100 = 0 → year % 4 = 0 := by omega
  have hdvd100 : year % 400 = 0 → year % 100 = 0 := by omega
  unfold yearStart isLeap
  rw [Nat.add_assoc year 1 3, Nat.add_assoc year 1 99, Nat.add_assoc year 1 399, h4, h100, h400]
  clear h4 h100 h400
  generalize (year + (4 - 1)) / 4 = fours at hle ⊢
  generalize (year + (100 - 1)) / 100 = hundreds at hle ⊢
  generalize (year + (400 - 1)) / 400 = fourHundreds at hle ⊢
  by_cases hm4 : year % 4 = 0 <;> by_cases hm100 : year % 100 = 0
    <;> by_cases hm400 : year % 400 = 0 <;> simp [hm4, hm100, hm400] at hdvd4 hdvd100 ⊢ <;> omega

theorem monthStart_succ {leap : Bool} {month : Nat} (h : 1 ≤ month) :
    monthStart leap (month + 1) = monthStart leap month + monthDays leap month := by
  obtain ⟨k, rfl⟩ := Nat.exists_eq_add_of_le' h
  unfold monthStart
  rw [Nat.add_sub_cancel, Nat.add_sub_cancel, List.range'_1_concat, List.map_append,
    List.sum_append, Nat.add_comm 1 k]
  simp

theorem monthStart_end (leap : Bool) : monthStart leap 13 = if leap then 366 else 365 := by
  cases leap <;> rfl

theorem monthDays_pos (leap : Bool) (month : Nat) : 1 ≤ monthDays leap month := by
  unfold monthDays
  split
  · split <;> decide
  all_goals decide

theorem monthDays_le (leap : Bool) (month : Nat) : monthDays leap month ≤ 31 := by
  unfold monthDays
  split
  · split <;> decide
  all_goals decide

/-- Months come one behind the other. -/
theorem monthStart_le {leap : Bool} {m m' : Nat} (hm : 1 ≤ m) (h : m < m') :
    monthStart leap m + monthDays leap m ≤ monthStart leap m' := by
  induction m' with
  | zero => omega
  | succ m' ih =>
    rcases Nat.lt_succ_iff_lt_or_eq.1 h with hlt | rfl
    · have hnext : monthStart leap (m' + 1) = monthStart leap m' + monthDays leap m' :=
        monthStart_succ (by omega)
      have hprev := ih hlt
      omega
    · rw [monthStart_succ hm]

theorem yearStart_le {y y' : Nat} (h : y < y') :
    yearStart y + (if isLeap y then 366 else 365) ≤ yearStart y' := by
  induction y' with
  | zero => omega
  | succ y' ih =>
    rcases Nat.lt_succ_iff_lt_or_eq.1 h with hlt | rfl
    · have hprev := ih hlt
      rw [yearStart_succ y']
      omega
    · rw [yearStart_succ]

variable {d d' : Date}

theorem Valid.month_lt (h : d.Valid) : d.month < 100 := h.month_le.trans_lt (by decide)

theorem Valid.day_lt (h : d.Valid) :
    d.day < 100 := (h.day_le.trans (monthDays_le _ _)).trans_lt (by decide)

theorem Valid.next (h : d.Valid) : d.next.Valid := by
  obtain ⟨hm, hm12, hd, hday⟩ := h
  unfold Date.next
  split
  · next hlt => exact ⟨hm, hm12, Nat.le_add_left 1 _, hlt⟩
  · split
    · next hlt => exact ⟨Nat.le_add_left 1 _, hlt, Nat.le_refl 1, monthDays_pos _ _⟩
    · exact ⟨Nat.le_refl 1, Nat.le_add_left 1 11, Nat.le_refl 1, monthDays_pos _ _⟩

theorem Valid.number_next (h : d.Valid) : d.next.number = d.number + 1 := by
  obtain ⟨hm, hm12, hd, hday⟩ := h
  unfold Date.next
  split
  · rfl
  · next hlast =>
    split
    · unfold number
      dsimp only
      rw [monthStart_succ hm]
      omega
    · next hyear =>
      have h12 : d.month = 12 := by omega
      have hend := @monthStart_succ (isLeap d.year) 12 (by decide)
      have hfirst : ∀ leap, monthStart leap 1 = 0 := fun _ => rfl
      rw [monthStart_end] at hend
      rw [h12] at hlast hday
      unfold number
      dsimp only
      rw [yearStart_succ, hfirst, h12]
      omega

theorem Valid.after (h : d.Valid) (n : Nat) :
    (d.after n).Valid ∧ (d.after n).number = d.number + n := by
  induction n with
  | zero => exact ⟨h, rfl⟩
  | succ n ih =>
    rw [after_succ, ih.1.number_next, ih.2, Nat.add_assoc]
    exact ⟨ih.1.next, rfl⟩

/-- A date of an earlier year or month has fewer days up to it. -/
theorem number_lt_of_lex (h : d.Valid) (h' : d'.Valid)
    (hlt : d.year < d'.year ∨ d.year = d'.year ∧
      (d.month < d'.month ∨ d.month = d'.month ∧ d.day < d'.day)) :
    d.number < d'.number := by
  have hday := h.day_le
  have hday' := h'.day_pos
  unfold number
  rcases hlt with hy | ⟨hy, hm | ⟨hm, hd⟩⟩
  · have hyear := yearStart_le hy
    have hmonth :=
      @monthStart_le (isLeap d.year) d.month 13 h.month_pos (Nat.lt_succ_of_le h.month_le)
    rw [monthStart_end] at hmonth
    omega
  · have hmonth := @monthStart_le (isLeap d.year) d.month d'.month h.month_pos hm
    rw [← hy]
    omega
  · rw [← hy, ← hm]
    omega

/-- A later date comes later by year, month and day. -/
theorem lex_of_number_lt (h : d.Valid) (h' : d'.Valid) (hlt : d.number < d'.number) :
    d.year < d'.year ∨ d.year = d'.year ∧
    (d.month < d'.month ∨ d.month = d'.month ∧ d.day < d'.day) := by
  by_contra hnot
  by_cases heq : d = d'
  · rw [heq] at hlt
    exact Nat.lt_irrefl _ hlt
  · have hfields : ¬(d.year = d'.year ∧ d.month = d'.month ∧ d.day = d'.day) := by
      rintro ⟨hy, hm, hd⟩
      cases d
      cases d'
      simp_all
    have hback := @number_lt_of_lex d' d h' h (by omega)
    omega

theorem number_injective (h : d.Valid) (h' : d'.Valid) (heq : d.number = d'.number) : d = d' := by
  have hno : ¬(d.year < d'.year ∨ d.year = d'.year ∧
      (d.month < d'.month ∨ d.month = d'.month ∧ d.day < d'.day)) :=
    fun hlt => absurd (number_lt_of_lex h h' hlt) (by omega)
  have hno' : ¬(d'.year < d.year ∨ d'.year = d.year ∧
      (d'.month < d.month ∨ d'.month = d.month ∧ d'.day < d.day)) :=
    fun hlt => absurd (number_lt_of_lex h' h hlt) (by omega)
  have hy : d.year = d'.year := by omega
  have hm : d.month = d'.month := by omega
  have hd : d.day = d'.day := by omega
  cases d
  cases d'
  simp_all

end Date

end Diana.Lib
