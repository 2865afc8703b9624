import Mathlib
import ReleasePrompts.Release.Calendar

/-!
# Dates and their numbers

The numbers up to that of the last day are those of the dates of the calendar, one for each
(`number_ofNumber`, `ofNumber_number`), and the text of a date is the last four digits of the year
and the last two of the month and of the day (`text_eq`).
-/

namespace ReleasePrompts.Release

/-! ## Years -/

theorem sum_monthLengths (year : Nat) :
    (monthLengths year).sum = if isLeapYear year then 366 else 365 := by
  simp only [monthLengths]
  split <;> rfl

theorem isLeapYear_iff (year : Nat) :
    isLeapYear year = true ↔ 4 ∣ year ∧ (¬100 ∣ year ∨ 400 ∣ year) := by
  simp [isLeapYear, Nat.dvd_iff_mod_eq_zero]

theorem daysBeforeYear_succ {year : Nat} (h : 1 ≤ year) :
    daysBeforeYear (year + 1) = daysBeforeYear year + (monthLengths year).sum := by
  obtain ⟨years, rfl⟩ := Nat.exists_eq_add_of_le' h
  have hle : years / 100 ≤ years / 4 := Nat.div_le_div_left (by decide) (by decide)
  simp only [sum_monthLengths, isLeapYear_iff, daysBeforeYear, Nat.add_sub_cancel, Nat.succ_div]
  generalize years / 4 = fours at hle ⊢
  generalize years / 100 = centuries at hle ⊢
  generalize years / 400 = eras
  have hcentury : 100 ∣ years + 1 → 4 ∣ years + 1 := Nat.dvd_trans (by decide)
  have hera : 400 ∣ years + 1 → 100 ∣ years + 1 := Nat.dvd_trans (by decide)
  split_ifs <;> omega

theorem daysBeforeYear_mono {year later : Nat} (hyear : 1 ≤ year) (h : year ≤ later) :
    daysBeforeYear year ≤ daysBeforeYear later := by
  induction h with
  | refl => exact Nat.le_refl _
  | @step later hlater ih =>
    rw [daysBeforeYear_succ (Nat.le_trans hyear hlater)]
    exact Nat.le_trans ih (Nat.le_add_right _ _)

/-- A day belongs to one year. -/
theorem year_unique {year other index index' : Nat} (hyear : 1 ≤ year) (hother : 1 ≤ other)
    (hi : index < (monthLengths year).sum) (hi' : index' < (monthLengths other).sum)
    (h : daysBeforeYear year + index = daysBeforeYear other + index') :
    year = other ∧ index = index' := by
  have hnext := daysBeforeYear_succ hyear
  have hnext' := daysBeforeYear_succ hother
  obtain hlt | rfl | hlt := Nat.lt_trichotomy year other
  · have : daysBeforeYear (year + 1) ≤ daysBeforeYear other :=
      daysBeforeYear_mono (Nat.le_add_left 1 year) hlt
    omega
  · exact ⟨rfl, by omega⟩
  · have : daysBeforeYear (other + 1) ≤ daysBeforeYear year :=
      daysBeforeYear_mono (Nat.le_add_left 1 other) hlt
    omega

/-- The year behind eras of 400 years, centuries, fours and odd years. -/
theorem daysBeforeYear_parts {eras centuries fours odd : Nat} (hcenturies : centuries ≤ 3)
    (hfours : fours ≤ 24) (hodd : odd ≤ 3) :
    daysBeforeYear (eras * 400 + centuries * 100 + fours * 4 + odd + 1) =
      eras * 146097 + centuries * 36524 + fours * 1461 + odd * 365 := by
  have hfour : (eras * 400 + centuries * 100 + fours * 4 + odd) / 4 =
      eras * 100 + centuries * 25 + fours := by omega
  have hcentury : (eras * 400 + centuries * 100 + fours * 4 + odd) / 100 = eras * 4 + centuries := by
    omega
  have hera : (eras * 400 + centuries * 100 + fours * 4 + odd) / 400 = eras := by omega
  simp only [daysBeforeYear, Nat.add_sub_cancel, hfour, hcentury, hera]
  omega

theorem isLeapYear_parts {eras centuries fours odd : Nat} (hcenturies : centuries ≤ 3)
    (hfours : fours ≤ 24) (hodd : odd ≤ 3) :
    isLeapYear (eras * 400 + centuries * 100 + fours * 4 + odd + 1) = true ↔
      odd = 3 ∧ (fours ≠ 24 ∨ centuries = 3) := by
  rw [isLeapYear_iff]
  constructor
  · rintro ⟨hfour, hnot | hera⟩
    · omega
    · omega
  · rintro ⟨rfl, hnot | rfl⟩
    · omega
    · omega

/-! ## Months -/

/-- The day with an index among months is a day of the month that it falls into. -/
theorem monthAndDay_spec {lengths : List Nat} {index : Nat} (h : index < lengths.sum)
    (first : Nat) : ∃ month, month < lengths.length ∧
      (monthAndDay first index lengths).1 = first + month ∧
      1 ≤ (monthAndDay first index lengths).2 ∧
      (monthAndDay first index lengths).2 ≤ lengths.getD month 0 ∧
      (lengths.take month).sum + (monthAndDay first index lengths).2 = index + 1 := by
  induction lengths generalizing first index with
  | nil => exact absurd h (Nat.not_lt_zero _)
  | cons length lengths ih =>
    rw [monthAndDay]
    split
    · next hlt => exact ⟨0, by simp, rfl, by omega, hlt, by simp⟩
    · next hle =>
      rw [List.sum_cons] at h
      obtain ⟨month, hm, hfirst, hpos, hday, hsum⟩ :=
        @ih (index - length) (by omega) (first + 1)
      refine ⟨month + 1, Nat.succ_lt_succ hm, by omega, hpos, hday, ?_⟩
      rw [List.take_succ_cons, List.sum_cons]
      omega

/-- The day of a month is found by its index. -/
theorem monthAndDay_eq {lengths : List Nat} {month day : Nat} (first : Nat)
    (hm : month < lengths.length) (hpos : 1 ≤ day) (hday : day ≤ lengths.getD month 0) :
    monthAndDay first ((lengths.take month).sum + (day - 1)) lengths = (first + month, day) := by
  induction lengths generalizing first month with
  | nil => exact absurd hm (Nat.not_lt_zero _)
  | cons length lengths ih =>
    rw [monthAndDay]
    cases month with
    | zero =>
      have hday : day ≤ length := hday
      have hindex : ((length :: lengths).take 0).sum + (day - 1) = day - 1 := by simp
      rw [hindex, if_pos (by omega), Nat.sub_add_cancel hpos]
      rfl
    | succ month =>
      have hindex : ((length :: lengths).take (month + 1)).sum + (day - 1) =
          length + ((lengths.take month).sum + (day - 1)) := by
        rw [List.take_succ_cons, List.sum_cons, Nat.add_assoc]
      rw [hindex, if_neg (by omega), Nat.add_sub_cancel_left,
        ih (first + 1) (Nat.lt_of_succ_lt_succ hm) hday, Nat.add_right_comm, Nat.add_assoc]

/-! ## Dates -/

/-- A date of the calendar. -/
structure Date.InCalendar (date : Date) : Prop where
  year_pos : 1 ≤ date.year
  year_le : date.year ≤ lastYear
  month_pos : 1 ≤ date.month
  month_le : date.month ≤ 12
  day_pos : 1 ≤ date.day
  day_le : date.day ≤ (monthLengths date.year).getD (date.month - 1) 0

theorem date?_eq_some_iff {year month day : Nat} {date : Date} :
    date? year month day = some date ↔ date = ⟨year, month, day⟩ ∧ date.InCalendar := by
  rw [date?]
  constructor
  · split
    · next h =>
      rintro ⟨⟩
      exact ⟨rfl, h.1, h.2.1, h.2.2.1, h.2.2.2.1, h.2.2.2.2.1, h.2.2.2.2.2⟩
    · nofun
  · rintro ⟨rfl, h⟩
    exact if_pos ⟨h.year_pos, h.year_le, h.month_pos, h.month_le, h.day_pos, h.day_le⟩

/-- The index of a date among the days of its year. -/
def Date.index (date : Date) : Nat :=
  ((monthLengths date.year).take (date.month - 1)).sum + (date.day - 1)

theorem Date.number_eq {date : Date} (h : 1 ≤ date.day) :
    date.number = daysBeforeYear date.year + date.index + 1 := by
  have hsum : ∀ lengths : List Nat, lengths.foldl Nat.add 0 = lengths.sum :=
    fun lengths => List.sum_eq_foldl.symm
  simp only [number, index, hsum]
  omega

theorem sum_take_add_getD_le (lengths : List Nat) (month : Nat) :
    (lengths.take month).sum + lengths.getD month 0 ≤ lengths.sum := by
  induction lengths generalizing month with
  | nil => simp
  | cons length lengths ih =>
    cases month with
    | zero => simp
    | succ month =>
      have := ih month
      simp only [List.take_succ_cons, List.sum_cons, List.getD_cons_succ]
      omega

theorem Date.InCalendar.index_lt {date : Date} (h : date.InCalendar) :
    date.index < (monthLengths date.year).sum := by
  have hmonth := sum_take_add_getD_le (monthLengths date.year) (date.month - 1)
  have hpos := h.day_pos
  have hle := h.day_le
  rw [index]
  omega

/-- The numbers of dates are those up to the number of the last day. -/
theorem Date.InCalendar.number_bounds {date : Date} (h : date.InCalendar) :
    1 ≤ date.number ∧ date.number ≤ lastDay := by
  have hindex := h.index_lt
  have hnext := daysBeforeYear_succ h.year_pos
  have hlast : daysBeforeYear (date.year + 1) ≤ lastDay :=
    daysBeforeYear_mono (Nat.le_add_left 1 _) (Nat.succ_le_succ h.year_le)
  rw [number_eq h.day_pos]
  omega

/-- Centuries, four years and odd years lead to the year of a day and to the index of the day in
it. -/
theorem ofNumber_spec {number : Nat} (h : 1 ≤ number) :
    ∃ index, 1 ≤ (Date.ofNumber number).year ∧
      index < (monthLengths (Date.ofNumber number).year).sum ∧
      daysBeforeYear (Date.ofNumber number).year + index + 1 = number ∧
      monthAndDay 1 index (monthLengths (Date.ofNumber number).year) =
        ((Date.ofNumber number).month, (Date.ofNumber number).day) := by
  obtain ⟨days, rfl⟩ := Nat.exists_eq_add_of_le' h
  simp only [Date.ofNumber, Nat.add_sub_cancel]
  generalize hin : days % 146097 - min (days % 146097 / 36524) 3 * 36524 = inCentury
  have hcenturies : min (days % 146097 / 36524) 3 ≤ 3 := Nat.min_le_right _ _
  have hodd : min (inCentury % 1461 / 365) 3 ≤ 3 := Nat.min_le_right _ _
  have hfours : inCentury / 1461 ≤ 24 := by omega
  refine ⟨_, Nat.le_add_left 1 _, ?_, ?_, rfl⟩
  · rw [sum_monthLengths]
    simp only [isLeapYear_parts hcenturies hfours hodd]
    split <;> omega
  · rw [daysBeforeYear_parts hcenturies hfours hodd]
    omega

theorem Date.number_ofNumber {number : Nat} (h : 1 ≤ number) :
    (Date.ofNumber number).number = number := by
  obtain ⟨index, hyear, hindex, hnumber, hmonth⟩ := ofNumber_spec h
  obtain ⟨month, hm, hfirst, hpos, hday, hsum⟩ := monthAndDay_spec hindex 1
  rw [hmonth] at hfirst hpos hday hsum
  simp only at hfirst hpos hday hsum
  rw [number_eq hpos, Date.index, hfirst, Nat.add_sub_cancel_left]
  omega

theorem inCalendar_ofNumber {number : Nat} (h : 1 ≤ number) (hlast : number ≤ lastDay) :
    (Date.ofNumber number).InCalendar := by
  obtain ⟨index, hyear, hindex, hnumber, hmonth⟩ := ofNumber_spec h
  obtain ⟨month, hm, hfirst, hpos, hday, hsum⟩ := monthAndDay_spec hindex 1
  rw [hmonth] at hfirst hpos hday hsum
  simp only at hfirst hpos hday hsum
  have hlength : (monthLengths (Date.ofNumber number).year).length = 12 := rfl
  rw [hlength] at hm
  refine ⟨hyear, ?_, by omega, by omega, hpos, by rwa [hfirst, Nat.add_sub_cancel_left]⟩
  -- a later year would begin behind the last day
  by_contra hlater
  have : lastDay ≤ daysBeforeYear (Date.ofNumber number).year :=
    daysBeforeYear_mono (by decide) (Nat.lt_of_not_le hlater)
  omega

theorem Date.InCalendar.ofNumber_number {date : Date} (h : date.InCalendar) :
    Date.ofNumber date.number = date := by
  obtain ⟨index, hyear, hindex, hnumber, hmonth⟩ := ofNumber_spec h.number_bounds.1
  have hdays : daysBeforeYear (Date.ofNumber date.number).year + index =
      daysBeforeYear date.year + date.index := by
    rw [number_eq h.day_pos] at hnumber ⊢
    exact Nat.succ_inj.mp hnumber
  obtain ⟨hy, rfl⟩ := year_unique hyear h.year_pos hindex h.index_lt hdays
  have hlt : date.month - 1 < (monthLengths date.year).length :=
    Nat.lt_of_lt_of_le (Nat.sub_one_lt (Nat.ne_of_gt h.month_pos)) h.month_le
  rw [hy, Date.index, monthAndDay_eq 1 hlt h.day_pos h.day_le, Nat.add_sub_cancel' h.month_pos,
    Prod.mk.injEq] at hmonth
  generalize Date.ofNumber date.number = found at hy hmonth ⊢
  obtain ⟨_, _, _⟩ := found
  obtain ⟨_, _, _⟩ := date
  simp_all

/-- Two dates with one number are the same. -/
theorem Date.InCalendar.eq_of_number_eq {date other : Date} (h : date.InCalendar)
    (h' : other.InCalendar) (hnumber : date.number = other.number) : date = other := by
  rw [← h.ofNumber_number, hnumber, h'.ofNumber_number]

theorem Date.InCalendar.eq_first_iff {date : Date} (h : date.InCalendar) :
    date = ⟨1, 1, 1⟩ ↔ date.number = 1 := by
  have hfirst : Date.InCalendar ⟨1, 1, 1⟩ := ((@date?_eq_some_iff 1 1 1 _).mp rfl).2
  exact ⟨fun e => e ▸ rfl, fun e => h.eq_of_number_eq hfirst e⟩

theorem Date.InCalendar.eq_last_iff {date : Date} (h : date.InCalendar) :
    date = ⟨lastYear, 12, 31⟩ ↔ date.number = lastDay := by
  have hlast : Date.InCalendar ⟨lastYear, 12, 31⟩ :=
    ((@date?_eq_some_iff lastYear 12 31 _).mp rfl).2
  exact ⟨fun e => e ▸ rfl, fun e => h.eq_of_number_eq hlast e⟩

/-! ## The text of a date -/

/-- The last digits of a number. -/
def lastDigits : (width : Nat) → Nat → List Char
  | 0, _ => []
  | width + 1, n => lastDigits width (n / 10) ++ [Nat.digitChar (n % 10)]

theorem lastDigits_zero (width : Nat) : lastDigits width 0 = List.replicate width '0' := by
  induction width with
  | zero => rfl
  | succ width ih =>
    rw [lastDigits, ih, List.replicate_succ']
    rfl

theorem paddedDigits_eq {width n : Nat} (hwidth : 1 ≤ width) (h : n < 10 ^ width) :
    paddedDigits width n = lastDigits width n := by
  induction width generalizing n with
  | zero => exact absurd hwidth (Nat.not_lt_zero 0)
  | succ width ih =>
    rw [lastDigits, paddedDigits]
    by_cases hn : n < 10
    · rw [Nat.toDigits_of_lt_base hn, Nat.div_eq_of_lt hn, Nat.mod_eq_of_lt hn, lastDigits_zero]
      rfl
    · have hrest : n / 10 < 10 ^ width := by
        rw [Nat.div_lt_iff_lt_mul (by decide), ← Nat.pow_succ]
        exact h
      have hpos : 1 ≤ width := by
        by_contra hzero
        obtain rfl : width = 0 := by omega
        omega
      rw [← ih hpos hrest, paddedDigits, Nat.toDigits_of_base_le (by decide) (by omega)]
      simp only [List.length_append, List.length_singleton, Nat.add_sub_add_right, List.append_assoc]

theorem Date.InCalendar.widths {date : Date} (h : date.InCalendar) :
    date.year < 10 ^ 4 ∧ date.month < 10 ^ 2 ∧ date.day < 10 ^ 2 := by
  refine ⟨Nat.lt_succ_of_le h.year_le, Nat.lt_of_le_of_lt h.month_le (by decide), ?_⟩
  have hshort : ∀ length ∈ monthLengths date.year, length ≤ 31 := by
    simp only [monthLengths]
    split <;> decide
  have hle := h.day_le
  rw [List.getD_eq_getElem?_getD] at hle
  rcases hlength : (monthLengths date.year)[date.month - 1]? with _ | length
  · rw [hlength] at hle
    exact Nat.lt_of_le_of_lt hle (by decide)
  · rw [hlength] at hle
    have := hshort length (List.mem_of_getElem? hlength)
    exact Nat.lt_of_le_of_lt (Nat.le_trans hle this) (by decide)

/-- A date is written with four digits, a hyphen, two digits, a hyphen and two digits. -/
theorem Date.InCalendar.text_eq {date : Date} (h : date.InCalendar) :
    date.text = String.ofList (lastDigits 4 date.year ++ '-' :: lastDigits 2 date.month ++
      '-' :: lastDigits 2 date.day) := by
  obtain ⟨hyear, hmonth, hday⟩ := h.widths
  rw [text, paddedDigits_eq (by decide) hyear, paddedDigits_eq (by decide) hmonth,
    paddedDigits_eq (by decide) hday]

end ReleasePrompts.Release
