import Diana.Lib.Calendar
import Diana.Lib.Decimal
import Diana.Orthia.Basic

/-!
# The start stamp of a process

`FormatProcStartStamp` of `orthia_databases.cpp`: the UTC date and time of a number of Unix seconds
as `YYYYMMDD-HHMMSS`, with a date that is computed from the number of days.

* `civil_eq`: it is the date that many days after 1970-01-01;
* `unixStamp_lt_unixStamp`: a later second has a greater stamp.
-/

namespace Diana.Orthia

open Diana.Lib

/-- Years from March on, in a period of 400 of them: `yearOfEra`. -/
def yearOfEra (dayOfEra : Nat) :
    Nat := (dayOfEra - dayOfEra / 1460 + dayOfEra / 36524 - dayOfEra / 146096) / 365

/-- The date of a number of days, as the function has it. Behind its guard nothing is negative. -/
def civil (days : Nat) : Date :=
  let days := days + 719468
  let era := days / 146097
  let dayOfEra := days - era * 146097
  let yearOfEra := yearOfEra dayOfEra
  let dayOfYear := dayOfEra - (365 * yearOfEra + yearOfEra / 4 - yearOfEra / 100)
  let mp := (5 * dayOfYear + 2) / 153
  let day := dayOfYear - (153 * mp + 2) / 5 + 1
  let month := if mp < 10 then mp + 3 else mp - 9
  let year := yearOfEra + era * 400 + if month ≤ 2 then 1 else 0
  ⟨year, month, day⟩

/-- `%04lld%02lld%02lld` -/
def dateText (d : Date) : List Byte := padded 4 d.year ++ (padded 2 d.month ++ padded 2 d.day)

/-- `%02lld%02lld%02lld` -/
def timeText (secondsOfDay : Nat) : List Byte :=
  padded 2 (secondsOfDay / 3600) ++
    (padded 2 (secondsOfDay / 60 % 60) ++ padded 2 (secondsOfDay % 60))

/-- `FormatProcStartStamp` -/
def formatProcStartStamp (unixSeconds : Int) : List Byte :=
  if unixSeconds ≤ 0 then []
  else
    let seconds := unixSeconds.toNat
    dateText (civil (seconds / 86400)) ++ 45 :: timeText (seconds % 86400)

/-! ## The date -/

/-- A day of the 400 years from March on: the century, the four years and the year in it, and the
day of that year. -/
structure EraDay (doe century four year doy : Nat) : Prop where
  eq : doe = 36524 * century + 1461 * four + 365 * year + doy
  century_le : century ≤ 3
  four_le : four ≤ 24
  year_le : year ≤ 3
  doy_le : doy ≤ 365
  /-- the last day of February of a leap year -/
  leap : doy = 365 → year = 3 ∧ (four < 24 ∨ century = 3)

theorem exists_eraDay {doe : Nat} (h : doe < 146097) :
    ∃ century four year doy, EraDay doe century four year doy := by
  obtain ⟨century, hcentury⟩ : ∃ c, c = min (doe / 36524) 3 := ⟨_, rfl⟩
  obtain ⟨doc, hdoc⟩ : ∃ e, doe = 36524 * century + e := ⟨doe - 36524 * century, by omega⟩
  have hdoc_le : doc ≤ 36524 ∧ (doc = 36524 → century = 3) := by omega
  obtain ⟨four, hfour⟩ : ∃ b, b = doc / 1461 := ⟨_, rfl⟩
  obtain ⟨rest, hrest⟩ : ∃ f, doc = 1461 * four + f := ⟨doc - 1461 * four, by omega⟩
  have hrest_le : rest ≤ 1460 := by omega
  obtain ⟨year, hyear⟩ : ∃ a, a = min (rest / 365) 3 := ⟨_, rfl⟩
  refine ⟨century, four, year, rest - 365 * year, ?_, ?_, ?_, ?_, ?_, ?_⟩
  all_goals omega

namespace EraDay

variable {doe century four year doy : Nat}

/-- The divisions of the function find the year. -/
theorem yearOfEra_eq (h : EraDay doe century four year doy) :
    yearOfEra doe = 100 * century + 4 * four + year := by
  obtain ⟨heq, hc, hb, ha, hd, hleap⟩ := h
  -- the last century has a day more
  have hcenturies : doe / 36524 - doe / 146096 = century ∧ doe / 146096 ≤ doe / 36524 := by
    by_cases hlast : doe = 146096
    · rw [hlast]
      have hthree : century = 3 := by omega
      rw [hthree]
      decide
    · have hdoc : 1461 * four + 365 * year + doy < 36524 := by omega
      have hdiv : doe / 36524 = century := by omega
      have hzero : doe / 146096 = 0 := by omega
      rw [hdiv, hzero]
      exact ⟨rfl, Nat.zero_le _⟩
  -- near the end of four years the division by 1460 has taken a day too many
  obtain ⟨extra, hextra⟩ : ∃ x, x = (24 * century + four + 365 * year + doy) / 1460 := ⟨_, rfl⟩
  have h1460 : doe / 1460 = 25 * century + four + extra := by omega
  have hdays : doe - doe / 1460 + doe / 36524 - doe / 146096 =
      365 * (100 * century + 4 * four + year) + (doy - extra) := by
    omega
  unfold yearOfEra
  rw [hdays]
  omega

/-- The days of the years before. -/
theorem yearStart_eq (h : EraDay doe century four year doy) :
    365 * yearOfEra doe + yearOfEra doe / 4 - yearOfEra doe / 100 + doy = doe := by
  rw [h.yearOfEra_eq]
  obtain ⟨heq, hc, hb, ha, hd, hleap⟩ := h
  have h4 : (100 * century + 4 * four + year) / 4 = 25 * century + four := by omega
  have h100 : (100 * century + 4 * four + year) / 100 = century := by omega
  omega

/-- The last day of February. -/
theorem isLeap_of_doy (h : EraDay doe century four year doy) (hd : doy = 365) (era : Nat) :
    isLeap (yearOfEra doe + era * 400 + 1) := by
  obtain ⟨hyear, hor⟩ := h.leap hd
  have hfour := h.four_le
  rw [h.yearOfEra_eq]
  unfold isLeap
  refine decide_eq_true ⟨by omega, ?_⟩
  rcases hor with hlt | hthree
  · exact .inl (by omega)
  · by_cases hlast : four = 24
    · exact .inr (by omega)
    · exact .inl (by omega)

end EraDay

theorem yearStart_succ_eq (y : Nat) :
    Date.yearStart (y + 1) = 365 * y + y / 4 - y / 100 + y / 400 + 366 := by
  have h4 : (y + 1 + 3) / 4 = y / 4 + 1 := @Nat.add_div_right y 4 (by decide)
  have h100 : (y + 1 + 99) / 100 = y / 100 + 1 := @Nat.add_div_right y 100 (by decide)
  have h400 : (y + 1 + 399) / 400 = y / 400 + 1 := @Nat.add_div_right y 400 (by decide)
  have hle : y / 100 ≤ y / 4 := by omega
  unfold Date.yearStart
  rw [h4, h100, h400]
  omega

/-- The months from March on, and January and February behind them. -/
theorem month_of_doy : ∀ doy < 366, ∀ leap : Bool,
    let mp := (5 * doy + 2) / 153
    let day := doy - (153 * mp + 2) / 5 + 1
    if mp < 10 then
      mp + 3 ≤ 12 ∧ day ≤ monthDays leap (mp + 3) ∧
        Date.monthStart leap (mp + 3) + day = doy + 60 + if leap then 1 else 0
    else
      1 ≤ mp - 9 ∧ mp - 9 ≤ 2 ∧ (doy < 365 ∨ leap → day ≤ monthDays leap (mp - 9)) ∧
        Date.monthStart leap (mp - 9) + day + 305 = doy := by
  decide +kernel

theorem civil_spec (n : Nat) : (civil n).Valid ∧ (civil n).number = n + 719529 := by
  obtain ⟨era, hera⟩ : ∃ e, e = (n + 719468) / 146097 := ⟨_, rfl⟩
  obtain ⟨doe, hdoe⟩ : ∃ d, d = n + 719468 - era * 146097 := ⟨_, rfl⟩
  obtain ⟨century, four, year, doy, h⟩ := @exists_eraDay doe (by omega)
  have hstart := h.yearStart_eq
  have hyoe : yearOfEra doe < 400 := by
    have hc := h.century_le
    have hb := h.four_le
    have ha := h.year_le
    rw [h.yearOfEra_eq]
    omega
  have hdoy := h.doy_le
  have hleap := fun hd => h.isLeap_of_doy hd era
  unfold civil
  dsimp only
  rw [← hera, ← hdoe]
  generalize yearOfEra doe = yoe at hstart hyoe hleap ⊢
  have hday : doe - (365 * yoe + yoe / 4 - yoe / 100) = doy := by omega
  rw [hday]
  have hyear := yearStart_succ_eq (yoe + era * 400)
  have hera4 : (yoe + era * 400) / 4 = yoe / 4 + 100 * era := by omega
  have hera100 : (yoe + era * 400) / 100 = yoe / 100 + 4 * era := by omega
  have hera400 : (yoe + era * 400) / 400 = era := by omega
  have hle : yoe / 100 ≤ yoe / 4 := by omega
  rw [hera4, hera100, hera400] at hyear
  by_cases hmp : (5 * doy + 2) / 153 < 10
  · have hmonth := month_of_doy doy (by omega) (isLeap (yoe + era * 400))
    rw [if_pos hmp] at hmonth
    obtain ⟨h12, hlast, hcount⟩ := hmonth
    have hsucc := Date.yearStart_succ (yoe + era * 400)
    rw [if_pos hmp, if_neg (by omega), Nat.add_zero]
    refine ⟨⟨Nat.le_add_left 1 _, h12, Nat.le_add_left 1 _, hlast⟩, ?_⟩
    unfold Date.number
    dsimp only
    cases hl : isLeap (yoe + era * 400)
      <;> simp only [hl, Bool.false_eq_true, if_true, if_false] at hcount hsucc ⊢ <;>
      omega
  · have hmonth := month_of_doy doy (by omega) (isLeap (yoe + era * 400 + 1))
    rw [if_neg hmp] at hmonth
    obtain ⟨h1, h2, hlast, hcount⟩ := hmonth
    rw [if_neg hmp, if_pos h2]
    refine ⟨⟨h1, h2.trans (by decide), Nat.le_add_left 1 _, hlast ?_⟩, ?_⟩
    · by_cases hd : doy = 365
      · exact .inr (hleap hd)
      · exact .inl (by omega)
    · unfold Date.number
      dsimp only
      omega

/-- The first day of Unix time. -/
def epoch : Date := ⟨1970, 1, 1⟩

theorem valid_epoch : epoch.Valid := ⟨by decide, by decide, by decide, by decide⟩

/-- The date is the one so many days after 1970-01-01. -/
theorem civil_eq (n : Nat) : civil n = epoch.after n := by
  obtain ⟨hvalid, hnumber⟩ := valid_epoch.after n
  have hepoch : epoch.number = 719529 := by decide
  refine Date.number_injective (civil_spec n).1 hvalid ?_
  rw [(civil_spec n).2, hnumber, hepoch, Nat.add_comm]

/-! ## The text -/

/-- `YYYYMMDD-HHMMSS` -/
def stamp (d : Date) (hour minute second : Nat) : List Byte :=
  (fixed 4 d.year ++ (fixed 2 d.month ++ fixed 2 d.day)) ++ 45 ::
    (fixed 2 hour ++ (fixed 2 minute ++ fixed 2 second))

/-- The stamp of a second of Unix time: its day, and what it is of the day. -/
def unixStamp (n : Nat) :
    List Byte := stamp (epoch.after (n / 86400)) (n / 3600 % 24) (n / 60 % 60) (n % 60)

/-- The second is in a year of four digits. -/
def InRange (n : Nat) : Prop := 0 < n ∧ (epoch.after (n / 86400)).year ≤ 9999

theorem formatProcStartStamp_eq {n : Nat} (h : InRange n) :
    formatProcStartStamp n = unixStamp n := by
  obtain ⟨hpos, hyear⟩ := h
  have hvalid := (valid_epoch.after (n / 86400)).1
  have hhour : n % 86400 / 3600 = n / 3600 % 24 := by omega
  have hminute : n % 86400 / 60 % 60 = n / 60 % 60 := by omega
  have hsecond : n % 86400 % 60 = n % 60 := by omega
  unfold formatProcStartStamp unixStamp stamp dateText timeText
  rw [if_neg (by omega)]
  dsimp only
  rw [Int.toNat_natCast, civil_eq, hhour, hminute, hsecond, padded_eq_fixed (by decide) (by omega),
    padded_eq_fixed (by decide) hvalid.month_lt, padded_eq_fixed (by decide) hvalid.day_lt,
    padded_eq_fixed (by decide) (by omega), padded_eq_fixed (by decide) (by omega),
    padded_eq_fixed (by decide) (by omega)]

/-- Three numbers in texts of digits are ordered as one number. -/
theorem fixed_lt_fixed {width x y z x' y' z' : Nat} (hx : x < 10 ^ width) (hx' : x' < 10 ^ width)
    (hy : y < 100) (hy' : y' < 100) (hz : z < 100) (hz' : z' < 100)
    (h : x < x' ∨ x = x' ∧ (y < y' ∨ y = y' ∧ z < z')) :
    fixed width x ++ (fixed 2 y ++ fixed 2 z) < fixed width x' ++ (fixed 2 y' ++ fixed 2 z') := by
  have hdigit : ∀ x y z, ∀ b ∈ fixed width x ++ (fixed 2 y ++ fixed 2 z), isDigit b := by
    intro x y z b hb
    rcases List.mem_append.1 hb with hb | hb
    · exact isDigit_of_mem_fixed hb
    · exact (List.mem_append.1 hb).elim isDigit_of_mem_fixed isDigit_of_mem_fixed
  have hvalue : ∀ {x y z}, x < 10 ^ width → y < 100 → z < 100 →
      decimalValue (fixed width x ++ (fixed 2 y ++ fixed 2 z)) = x * 10000 + y * 100 + z := by
    intro x y z hx hy hz
    simp only [decimalValue_append, decimalValue_fixed, List.length_append, length_fixed]
    rw [Nat.mod_eq_of_lt hx]
    omega
  rw [lt_iff_decimalValue_lt (by simp only [List.length_append, length_fixed]) (hdigit x y z)
    (hdigit x' y' z'), hvalue hx hy hz, hvalue hx' hy' hz']
  omega

/-- A later second has a greater stamp. -/
theorem unixStamp_lt_unixStamp {m n : Nat} (hn : InRange n) (h : m < n) :
    unixStamp m < unixStamp n := by
  obtain ⟨hvalid, hnumber⟩ := valid_epoch.after (m / 86400)
  obtain ⟨hvalid', hnumber'⟩ := valid_epoch.after (n / 86400)
  unfold unixStamp stamp
  rcases Nat.lt_or_ge (m / 86400) (n / 86400) with hday | hday
  · have hlex := Date.lex_of_number_lt hvalid hvalid' (by omega)
    have hyear : (epoch.after (m / 86400)).year < 10 ^ 4 := by
      have hle := hn.2
      omega
    have hyear' : (epoch.after (n / 86400)).year < 10 ^ 4 := Nat.lt_succ_of_le hn.2
    refine append_lt_append (by simp only [List.length_append, length_fixed]) ?_ _ _
    exact fixed_lt_fixed hyear hyear' hvalid.month_lt hvalid'.month_lt hvalid.day_lt
      hvalid'.day_lt hlex
  · have hsame : m / 86400 = n / 86400 := by omega
    rw [hsame]
    refine List.append_left_lt (List.cons_lt_cons_iff.2 (.inr ⟨rfl, ?_⟩))
    exact fixed_lt_fixed (by omega) (by omega) (by omega) (by omega) (by omega)
      (by omega) (by omega)

/-- In the years of four digits, the stamp of a second is its date and time, and stamps are ordered
as their seconds. -/
theorem formatProcStartStamp_unixStamp (n : Nat) (h : InRange n) :
    formatProcStartStamp n = unixStamp n ∧
      ∀ m, InRange m → (formatProcStartStamp m = formatProcStartStamp n ↔ m = n) ∧
        (formatProcStartStamp m < formatProcStartStamp n ↔ m < n) := by
  refine ⟨formatProcStartStamp_eq h, fun m hm => ?_⟩
  rw [formatProcStartStamp_eq h, formatProcStartStamp_eq hm]
  rcases Nat.lt_trichotomy m n with hlt | rfl | hgt
  · have htext := unixStamp_lt_unixStamp h hlt
    refine ⟨iff_of_false (fun heq => ?_) (Nat.ne_of_lt hlt), iff_of_true htext hlt⟩
    rw [heq] at htext
    exact List.lt_irrefl _ htext
  · exact ⟨iff_of_true rfl rfl, iff_of_false (List.lt_irrefl _) (Nat.lt_irrefl _)⟩
  · have htext := unixStamp_lt_unixStamp hm hgt
    refine ⟨iff_of_false (fun heq => ?_) (Nat.ne_of_gt hgt),
      iff_of_false (fun hback => ?_) (Nat.lt_asymm hgt)⟩
    · rw [heq] at htext
      exact List.lt_irrefl _ htext
    · exact List.lt_irrefl _ (List.lt_trans htext hback)

/-- The last second of the first day. -/
theorem formatProcStartStamp_unixStamp_day : formatProcStartStamp 86399 = unixStamp 86399 :=
  (formatProcStartStamp_unixStamp 86399 ⟨by decide, by decide⟩).1

end Diana.Orthia
