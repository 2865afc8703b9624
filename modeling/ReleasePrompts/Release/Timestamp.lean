import ReleasePrompts.Release.Calendar
import ReleasePrompts.Text.Digit

/-!
# Timestamps

A timestamp is a date, by month or by week, with or without hyphens; a time of day may follow behind
any one character, and an offset from universal time behind that. `publishDate` gives the date in
universal time. A text that is no timestamp has no date; an instant outside the calendar is an
error.
-/

namespace ReleasePrompts.Release

open Text

/-- An instant that no date of the calendar holds. -/
structure OutOfCalendar where
  deriving DecidableEq, Repr

/-- The wording for an instant outside the calendar. -/
def OutOfCalendar.message (_ : OutOfCalendar) : String := "date value out of range"

/-- A number of exactly `count` digits, and what follows it. -/
def takeNumber? (count : Nat) (cs : List Char) : Option (Nat × List Char) :=
  let digits := cs.take count
  if digits.length == count && digits.all Char.isDigit then
    some (readDigits 10 digits, cs.drop count)
  else none

/-- The number of characters that make the date of a timestamp. A hyphen behind a week begins the
day of the week, unless two digits follow it. Behind a week without hyphens an odd number of digits
begins with the day of the week. -/
def dateLength? (cs : List Char) : Option Nat :=
  let length := cs.length
  if length < 7 then none
  else if length == 7 then some 7
  else if cs[4]? == some '-' then
    if cs[5]? == some 'W' then
      if cs[8]? == some '-' then
        if length == 9 then none
        else if (cs[10]?.map Char.isDigit).getD false then some 8
        else some 10
      else some 8
    else some 10
  else if cs[4]? == some 'W' then
    let digits := ((cs.drop 7).takeWhile Char.isDigit).length
    if digits < 2 then some (7 + digits) else if digits % 2 == 1 then some 7 else some 8
  else some 8

/-- What follows a hyphen, if there has to be one. -/
def skipHyphen? (hyphens : Bool) (cs : List Char) : Option (List Char) :=
  if hyphens then
    match cs with
    | '-' :: rest => some rest
    | _ => none
  else some cs

/-- The date that the first `length` characters spell. -/
def readDate? (length : Nat) (cs : List Char) : Option Date := do
  let (year, rest) ← takeNumber? 4 cs
  let hyphens := rest.head? == some '-'
  let rest := if hyphens then rest.drop 1 else rest
  match rest with
  | 'W' :: rest =>
    let (week, rest) ← takeNumber? 2 rest
    if cs.length - rest.length < length then
      let (day, _) ← takeNumber? 1 (← skipHyphen? hyphens rest)
      weekDate? year week day
    else weekDate? year week 1
  | _ =>
    let (month, rest) ← takeNumber? 2 rest
    let (day, rest) ← takeNumber? 2 (← skipHyphen? hyphens rest)
    if cs.length - rest.length == length then date? year month day else none

/-- A time of day or the size of an offset, in units that need not be in range. -/
structure Clock where
  hour : Nat := 0
  minute : Nat := 0
  second : Nat := 0
  microsecond : Nat := 0
  deriving DecidableEq, Repr

/-- A clock that was read, and whether the text ended with it. -/
structure ClockReading where
  clock : Clock
  complete : Bool

/-- The fraction of a second: up to six digits count, and further ones are left out. -/
def readFraction? (clock : Clock) (cs : List Char) : Option ClockReading := do
  let count := min cs.length 6
  let (value, rest) ← takeNumber? count cs
  let left := rest.dropWhile Char.isDigit
  return ⟨{ clock with microsecond := value * Nat.pow 10 (6 - count) },
    left.isEmpty || left.head? == some '\x00'⟩

/-- What the next number of a clock is. -/
inductive ClockUnit where
  | hour
  | minute
  | second

/-- Puts a number in its place. -/
def Clock.put (clock : Clock) (value : Nat) : ClockUnit → Clock
  | .hour => { clock with hour := value }
  | .minute => { clock with minute := value }
  | .second => { clock with second := value }

/-- Reads the numbers of a clock from `unit` on. Colons separate all of them, or none, and a
fraction may follow any of them. One character of ASCII that follows a number at the end of the text
is left over. -/
def readUnits? (clock : Clock) (unit : ClockUnit) (colons : Bool) (cs : List Char) :
    Option ClockReading := do
  let (value, rest) ← takeNumber? 2 cs
  let clock := clock.put value unit
  match rest with
  | [] => return ⟨clock, true⟩
  | [c] => if c.toNat < 128 then some ⟨clock, c == '\x00'⟩ else none
  | c :: more =>
    let colons := match unit with
      | .hour => c == ':'
      | _ => colons
    if c == '.' || c == ',' then readFraction? clock more
    else if colons && c != ':' then none
    else
      let rest := if colons then more else rest
      match unit with
      | .hour => readUnits? clock .minute colons rest
      | .minute => readUnits? clock .second colons rest
      | .second => readFraction? clock rest
termination_by match unit with
  | .hour => 2
  | .minute => 1
  | .second => 0

/-- Reads a clock. -/
def readClock? (cs : List Char) : Option ClockReading := readUnits? {} .hour false cs

/-- The seconds of a clock. -/
def Clock.seconds (clock : Clock) : Nat := clock.hour * 3600 + clock.minute * 60 + clock.second

/-- The microseconds of a clock. -/
def Clock.microseconds (clock : Clock) : Nat := clock.seconds * 1000000 + clock.microsecond

/-- Whether a clock shows a time of day. -/
def Clock.isTimeOfDay (clock : Clock) : Bool :=
  clock.hour < 24 && clock.minute < 60 && clock.second < 60

/-- The microseconds of a day. -/
def dayLength : Nat := 86400000000

/-- A date and a time of day, and the offset from universal time in microseconds if it is known. -/
structure Timestamp where
  date : Date
  clock : Clock := {}
  offset : Option Int := none
  deriving DecidableEq, Repr

/-- The offset that a sign and a clock spell; it is smaller than a day. An offset of less than a
second is none. -/
def readOffset? (negative : Bool) (cs : List Char) : Option Int := do
  let reading ← readClock? cs
  if !reading.complete then none
  else if reading.clock.seconds == 0 then some 0
  else if dayLength ≤ reading.clock.microseconds then none
  else
    let size : Int := reading.clock.microseconds
    some (if negative then -size else size)

/-- Whether a character is the sign of an offset. -/
def isSign (c : Char) : Bool := c == '+' || c == '-'

/-- Reads what follows the date and the separator. Before an offset the time of day may be followed
by one more character, and by any behind six digits of a fraction. -/
def readTime? (date : Date) (cs : List Char) : Option Timestamp := do
  let reading ← readClock? (cs.takeWhile fun c => !isSign c)
  if !reading.clock.isTimeOfDay then none
  else match cs.dropWhile fun c => !isSign c with
    | [] => if reading.complete then some ⟨date, reading.clock, none⟩ else none
    | sign :: rest =>
      let offset ← readOffset? (sign == '-') rest
      return ⟨date, reading.clock, some offset⟩

/-- Reads a timestamp. -/
def Timestamp.read? (cs : List Char) : Option Timestamp := do
  let length ← dateLength? cs
  let date ← readDate? length cs
  match cs.drop length with
  | [] => return { date }
  | _ :: rest => readTime? date rest

/-- The date in universal time; without offset the timestamp is taken as it is. -/
def Timestamp.universalDate (timestamp : Timestamp) : Except OutOfCalendar Date :=
  match timestamp.offset with
  | none => .ok timestamp.date
  | some offset =>
    let instant : Int := timestamp.date.number * dayLength + timestamp.clock.microseconds - offset
    let number := Int.fdiv instant dayLength
    if 1 ≤ number ∧ number ≤ lastDay then .ok (Date.ofNumber number.toNat) else .error {}

/-- A text in which each `Z` stands as the offset it means. -/
def spellZulu (cs : List Char) : List Char :=
  cs.flatMap fun c => if c = 'Z' then ['+', '0', '0', ':', '0', '0'] else [c]

/-- The date in universal time of the text of a timestamp. -/
def publishDate (timestamp : String) : Except OutOfCalendar (Option String) :=
  match Timestamp.read? (spellZulu timestamp.toList) with
  | none => .ok none
  | some read => do return some (← read.universalDate).text

end ReleasePrompts.Release
