/-!
# The calendar

Dates of the Gregorian calendar, extended to the first year, and their numbers: the first day of the
first year has number 1, and `Date.ofNumber` undoes `Date.number`. The last year is 9999.
-/

namespace ReleasePrompts.Release

/-- A date. -/
structure Date where
  year : Nat
  month : Nat
  day : Nat
  deriving DecidableEq, Repr

/-- Whether a year has a leap day. -/
def isLeapYear (year : Nat) : Bool := year % 4 == 0 && (year % 100 != 0 || year % 400 == 0)

/-- The lengths of the months of a year. -/
def monthLengths (year : Nat) : List Nat :=
  [31, if isLeapYear year then 29 else 28, 31, 30, 31, 30, 31, 31, 30, 31, 30, 31]

/-- The number of days of all years before a year. -/
def daysBeforeYear (year : Nat) : Nat :=
  let years := year - 1
  years * 365 + years / 4 - years / 100 + years / 400

/-- The last year of the calendar. -/
def lastYear : Nat := 9999

/-- The number of the last day of the calendar. -/
def lastDay : Nat := daysBeforeYear (lastYear + 1)

/-- The date of a year, a month and a day, if there is one. -/
def date? (year month day : Nat) : Option Date :=
  if 1 ≤ year ∧ year ≤ lastYear ∧ 1 ≤ month ∧ month ≤ 12 ∧ 1 ≤ day ∧
      day ≤ (monthLengths year).getD (month - 1) 0 then
    some ⟨year, month, day⟩
  else none

/-- The number of the date, counted in days from the first one. -/
def Date.number (date : Date) : Nat :=
  let months := (monthLengths date.year).take (date.month - 1)
  daysBeforeYear date.year + months.foldl Nat.add 0 + date.day

/-- The month and the day in it of the day with the given index among months that begin with the one
given. -/
def monthAndDay (month index : Nat) : List Nat → Nat × Nat
  | [] => (month, index + 1)
  | length :: lengths =>
    if index < length then (month, index + 1) else monthAndDay (month + 1) (index - length) lengths

/-- The date with a number. Four centuries have 146097 days, one has 36524 but for the leap day that
ends the fourth, and four years have 1461. -/
def Date.ofNumber (number : Nat) : Date :=
  let index := number - 1
  let inFour := index % 146097
  let century := min (inFour / 36524) 3
  let inCentury := inFour - century * 36524
  let quadrennium := inCentury / 1461
  let inQuadrennium := inCentury % 1461
  let odd := min (inQuadrennium / 365) 3
  let year := index / 146097 * 400 + century * 100 + quadrennium * 4 + odd + 1
  let (month, day) := monthAndDay 1 (inQuadrennium - odd * 365) (monthLengths year)
  ⟨year, month, day⟩

/-- The number of a day in its week, from zero for Monday. -/
def weekday (number : Nat) : Nat := (number + 6) % 7

/-- The number of the Monday that begins the first week of a year, the one with the first Thursday;
it may lie in the year before. -/
def firstMonday (year : Nat) : Int :=
  let first := daysBeforeYear year + 1
  let monday : Int := first - weekday first
  if 3 < weekday first then monday + 7 else monday

/-- Whether a year has a week 53. -/
def hasWeek53 (year : Nat) : Bool :=
  let first := weekday (daysBeforeYear year + 1)
  first == 3 || (first == 2 && isLeapYear year)

/-- The date of a day in a week of a year, if there is one. -/
def weekDate? (year week day : Nat) : Option Date :=
  if 1 ≤ year ∧ 1 ≤ week ∧ (week ≤ 52 ∨ week = 53 ∧ hasWeek53 year) ∧ 1 ≤ day ∧ day ≤ 7 then
    let number := firstMonday year + (week - 1) * 7 + (day - 1)
    if 1 ≤ number ∧ number ≤ lastDay then some (Date.ofNumber number.toNat) else none
  else none

/-- A number in decimal with leading zeros. -/
def paddedDigits (width n : Nat) : List Char :=
  let digits := Nat.toDigits 10 n
  List.replicate (width - digits.length) '0' ++ digits

/-- The date with hyphens between its numbers. -/
def Date.text (date : Date) : String :=
  String.ofList (paddedDigits 4 date.year ++ '-' :: paddedDigits 2 date.month ++
    '-' :: paddedDigits 2 date.day)

end ReleasePrompts.Release
