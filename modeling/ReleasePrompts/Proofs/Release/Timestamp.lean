import ReleasePrompts.Proofs.Literal.Escape
import ReleasePrompts.Proofs.Release.Calendar
import ReleasePrompts.Release.Timestamp

/-!
# The date of an instant

A timestamp that is read has a date of the calendar, a time of day and an offset smaller than a day
(`inRange_of_read?`). Its date in universal time is the one that holds its instant
(`universalDate_eq_ok_iff`). There is none just if the timestamp leaves the calendar, by an offset on
the first or the last day (`universalDate_eq_error_iff`).
-/

namespace ReleasePrompts.Release

open Text

/-! ## What is read is in range -/

theorem hexDigitValue_lt_of_isDigit {c : Char} (h : c.isDigit = true) : hexDigitValue c < 10 := by
  have hle : c.toNat ≤ 57 := by
    simp only [Char.isDigit, Bool.and_eq_true, decide_eq_true_eq] at h
    exact h.2
  rw [hexDigitValue, if_pos h]
  omega

theorem takeNumber?_lt {count value : Nat} {cs rest : List Char}
    (h : takeNumber? count cs = some (value, rest)) : value < 10 ^ count := by
  simp only [takeNumber?] at h
  split at h
  · next hd =>
    simp only [Bool.and_eq_true, beq_iff_eq, List.all_eq_true] at hd
    obtain ⟨rfl, -⟩ := Prod.mk.inj (Option.some.inj h)
    have := Literal.readDigits_lt fun c hc => hexDigitValue_lt_of_isDigit (hd.2 c hc)
    rwa [hd.1] at this
  · cases h

theorem inCalendar_of_weekDate? {year week day : Nat} {date : Date}
    (h : weekDate? year week day = some date) : date.InCalendar := by
  simp only [weekDate?] at h
  split at h
  · split at h
    · next hnumber =>
      cases h
      exact inCalendar_ofNumber (by omega) (by omega)
    · cases h
  · cases h

theorem inCalendar_of_readDate? {length : Nat} {cs : List Char} {date : Date}
    (h : readDate? length cs = some date) : date.InCalendar := by
  simp only [readDate?, Option.bind_eq_bind, Option.bind_eq_some_iff] at h
  obtain ⟨⟨year, rest⟩, -, h⟩ := h
  simp only at h
  split at h
  · obtain ⟨⟨week, behind⟩, -, h⟩ := Option.bind_eq_some_iff.mp h
    simp only at h
    split at h
    · simp only [Option.bind_eq_some_iff] at h
      obtain ⟨_, -, ⟨day, _⟩, -, h⟩ := h
      exact inCalendar_of_weekDate? h
    · exact inCalendar_of_weekDate? h
  · simp only [Option.bind_eq_some_iff] at h
    obtain ⟨⟨month, behind⟩, -, _, -, ⟨day, left⟩, -, h⟩ := h
    simp only at h
    split at h
    · exact (date?_eq_some_iff.mp h).2
    · cases h

theorem microsecond_readFraction? {clock : Clock} {cs : List Char} {reading : ClockReading}
    (h : readFraction? clock cs = some reading) : reading.clock.microsecond < 1000000 := by
  simp only [readFraction?, Option.bind_eq_bind, Option.bind_eq_some_iff] at h
  obtain ⟨⟨value, rest⟩, hvalue, h⟩ := h
  cases h
  have hlt := takeNumber?_lt hvalue
  have hcount : min cs.length 6 ≤ 6 := Nat.min_le_right _ _
  calc
    value * 10 ^ (6 - min cs.length 6)
      < 10 ^ min cs.length 6 * 10 ^ (6 - min cs.length 6) :=
        Nat.mul_lt_mul_of_pos_right hlt (Nat.pow_pos (by decide))
    _ = 1000000 := by rw [← Nat.pow_add, Nat.add_sub_cancel' hcount]

/-- The unit that follows another on a clock. -/
def ClockUnit.next? : ClockUnit → Option ClockUnit
  | .hour => some .minute
  | .minute => some .second
  | .second => none

/-- A clock ends with the number that is read, or goes on with a fraction or with the next unit. -/
theorem readUnits?_cases {clock : Clock} {unit : ClockUnit} {colons : Bool} {cs : List Char}
    {reading : ClockReading} (h : readUnits? clock unit colons cs = some reading) :
    ∃ value, reading.clock = clock.put value unit ∨
      (∃ rest, readFraction? (clock.put value unit) rest = some reading) ∨
      ∃ next colons' rest, unit.next? = some next ∧
        readUnits? (clock.put value unit) next colons' rest = some reading := by
  rw [readUnits?] at h
  obtain ⟨⟨value, rest⟩, -, h⟩ := Option.bind_eq_some_iff.mp h
  refine ⟨value, ?_⟩
  simp only at h
  split at h
  · cases h
    exact .inl rfl
  · split at h
    · cases h
      exact .inl rfl
    · cases h
  · cases unit
    all_goals
      simp only at h
      split at h
      · exact .inr (.inl ⟨_, h⟩)
      · split at h
        · cases h
        · first
          | exact .inr (.inr ⟨_, _, _, rfl, h⟩)
          | exact .inr (.inl ⟨_, h⟩)

/-- Each unit is read by way of the next one, so what holds of all units that may follow holds of a
unit. -/
theorem ClockUnit.forall_of_next {P : ClockUnit → Prop}
    (h : ∀ unit, (∀ next, unit.next? = some next → P next) → P unit) (unit : ClockUnit) : P unit := by
  have hsecond : P .second := h .second nofun
  have hminute : P .minute := h .minute fun next hnext => by cases hnext; exact hsecond
  have hhour : P .hour := h .hour fun next hnext => by cases hnext; exact hminute
  cases unit <;> assumption

theorem microsecond_readUnits? (unit : ClockUnit) : ∀ {clock : Clock} {colons : Bool}
    {cs : List Char} {reading : ClockReading}, clock.microsecond < 1000000 →
    readUnits? clock unit colons cs = some reading → reading.clock.microsecond < 1000000 := by
  induction unit using ClockUnit.forall_of_next with
  | h unit ih =>
    intro clock colons cs reading hclock h
    obtain ⟨value, heq | ⟨rest, hfraction⟩ | ⟨next, colons', rest, hnext, hrest⟩⟩ :=
      readUnits?_cases h
    · rw [heq]
      cases unit <;> exact hclock
    · exact microsecond_readFraction? hfraction
    · refine ih next hnext ?_ hrest
      cases unit <;> exact hclock

/-- What a timestamp is made of. -/
structure Timestamp.InRange (timestamp : Timestamp) : Prop where
  date : timestamp.date.InCalendar
  clock : timestamp.clock.microseconds < dayLength
  offset : ∀ offset ∈ timestamp.offset, offset.natAbs < dayLength

theorem natAbs_readOffset? {negative : Bool} {cs : List Char} {offset : Int}
    (h : readOffset? negative cs = some offset) : offset.natAbs < dayLength := by
  obtain ⟨reading, -, h⟩ := Option.bind_eq_some_iff.mp h
  split at h
  · cases h
  · split at h
    · cases h
      decide
    · split at h
      · cases h
      · next hsize =>
        cases h
        have hlt := Nat.lt_of_not_le hsize
        cases negative <;> simpa using hlt

theorem microseconds_lt_of_isTimeOfDay {clock : Clock} (htime : clock.isTimeOfDay = true)
    (h : clock.microsecond < 1000000) : clock.microseconds < dayLength := by
  simp only [Clock.isTimeOfDay, Bool.and_eq_true, decide_eq_true_eq] at htime
  simp only [Clock.microseconds, Clock.seconds, dayLength]
  omega

theorem microseconds_lt {cs : List Char} {reading : ClockReading} (h : readClock? cs = some reading)
    (htime : reading.clock.isTimeOfDay = true) : reading.clock.microseconds < dayLength :=
  microseconds_lt_of_isTimeOfDay htime (microsecond_readUnits? .hour (by decide) h)

theorem inRange_of_readTime? {date : Date} (hdate : date.InCalendar) {cs : List Char}
    {timestamp : Timestamp} (h : readTime? date cs = some timestamp) : timestamp.InRange := by
  obtain ⟨reading, hreading, h⟩ := Option.bind_eq_some_iff.mp h
  split at h
  · cases h
  · next htime =>
    have hclock := microseconds_lt hreading (by simpa using htime)
    split at h
    · split at h
      · cases h
        exact ⟨hdate, hclock, nofun⟩
      · cases h
    · obtain ⟨offset, hoffset, h⟩ := Option.bind_eq_some_iff.mp h
      cases h
      exact ⟨hdate, hclock, fun _ ho => Option.some.inj ho ▸ natAbs_readOffset? hoffset⟩

/-- What is read as a timestamp is a date of the calendar, a time of day and an offset smaller than a
day. -/
theorem inRange_of_read? {cs : List Char} {timestamp : Timestamp}
    (h : Timestamp.read? cs = some timestamp) : timestamp.InRange := by
  obtain ⟨length, -, h⟩ := Option.bind_eq_some_iff.mp h
  obtain ⟨date, hdate, h⟩ := Option.bind_eq_some_iff.mp h
  have hdate := inCalendar_of_readDate? hdate
  split at h
  · cases h
    exact ⟨hdate, by simp [Clock.microseconds, Clock.seconds, dayLength], nofun⟩
  · exact inRange_of_readTime? hdate h

/-! ## The date that holds an instant -/

/-- The instant of a timestamp: the microseconds in universal time since the day before the first
one. Without offset the timestamp is in universal time. -/
def Timestamp.instant (timestamp : Timestamp) : Int :=
  timestamp.date.number * dayLength + timestamp.clock.microseconds - timestamp.offset.getD 0

/-- An instant is on the day of a date. -/
def Date.Holds (date : Date) (instant : Int) : Prop :=
  date.number * dayLength ≤ instant ∧ instant < (date.number + 1) * dayLength

instance (date : Date) (instant : Int) : Decidable (date.Holds instant) :=
  inferInstanceAs (Decidable (_ ∧ _))

theorem fdiv_dayLength_iff {instant number : Int} : instant.fdiv dayLength = number ↔
    number * dayLength ≤ instant ∧ instant < (number + 1) * dayLength := by
  rw [Int.fdiv_eq_ediv_of_nonneg _ (Int.natCast_nonneg dayLength)]
  simp only [dayLength]
  omega

/-- The date in universal time is the one that holds the instant. -/
theorem Timestamp.InRange.universalDate_eq_ok_iff {timestamp : Timestamp} (h : timestamp.InRange)
    {date : Date} : timestamp.universalDate = .ok date ↔
      date.InCalendar ∧ date.Holds timestamp.instant := by
  rw [universalDate, instant, Date.Holds]
  cases hoffset : timestamp.offset with
  | none =>
    have hclock := h.clock
    rw [Except.ok.injEq]
    constructor
    · rintro rfl
      simp only [Option.getD_none, dayLength] at hclock ⊢
      exact ⟨h.date, by omega, by omega⟩
    · rintro ⟨hdate, hfrom, hto⟩
      refine h.date.eq_of_number_eq hdate ?_
      simp only [Option.getD_none, dayLength] at hclock hfrom hto
      omega
  | some offset =>
    simp only [Option.getD_some, ← fdiv_dayLength_iff]
    generalize Int.fdiv _ _ = number
    constructor
    · split
      · next hnumber =>
        rintro ⟨⟩
        rw [Date.number_ofNumber (by omega)]
        exact ⟨inCalendar_ofNumber (by omega) (by omega), by omega⟩
      · nofun
    · rintro ⟨hdate, rfl⟩
      have hbounds := hdate.number_bounds
      rw [if_pos (by omega), Int.toNat_natCast, hdate.ofNumber_number]

/-- A timestamp stands for an instant that is before the first day of the calendar, or behind the last
one. -/
def Timestamp.LeavesCalendar (timestamp : Timestamp) : Prop :=
  timestamp.date = ⟨1, 1, 1⟩ ∧ timestamp.clock.microseconds < timestamp.offset.getD 0 ∨
    timestamp.date = ⟨lastYear, 12, 31⟩ ∧
      dayLength ≤ timestamp.clock.microseconds - timestamp.offset.getD 0

/-- An offset is smaller than a day, so only the first and the last day are near enough to the limits
of the calendar. -/
theorem Timestamp.InRange.leavesCalendar_iff {timestamp : Timestamp} (h : timestamp.InRange) :
    timestamp.LeavesCalendar ↔ ∀ date : Date, date.InCalendar → ¬date.Holds timestamp.instant := by
  have hclock := h.clock
  have hoffset : (timestamp.offset.getD 0).natAbs < dayLength := by
    cases hoffset : timestamp.offset with
    | none => decide
    | some offset => exact h.offset offset hoffset
  have hbounds := h.date.number_bounds
  simp only [LeavesCalendar, h.date.eq_first_iff, h.date.eq_last_iff, Date.Holds, instant]
  generalize timestamp.offset.getD 0 = offset at *
  simp only [dayLength] at *
  constructor
  · intro hleaves date hdate hholds
    have := hdate.number_bounds
    omega
  · intro hnone
    by_contra hstays
    generalize hday : (timestamp.date.number * 86400000000 + timestamp.clock.microseconds - offset) /
      (86400000000 : Int) = day at *
    have hday' : 1 ≤ day ∧ day ≤ lastDay := by omega
    refine hnone (Date.ofNumber day.toNat) (inCalendar_ofNumber (by omega) (by omega)) ?_
    rw [Date.number_ofNumber (by omega)]
    omega

/-- There is no date in universal time just if the timestamp leaves the calendar. -/
theorem Timestamp.InRange.universalDate_eq_error_iff {timestamp : Timestamp} (h : timestamp.InRange) :
    timestamp.universalDate = .error {} ↔ timestamp.LeavesCalendar := by
  rw [h.leavesCalendar_iff]
  constructor
  · intro herror date hdate hholds
    have hok := h.universalDate_eq_ok_iff.mpr ⟨hdate, hholds⟩
    rw [herror] at hok
    cases hok
  · intro hnone
    cases huniversal : timestamp.universalDate with
    | error fault => rfl
    | ok date =>
      obtain ⟨hdate, hholds⟩ := h.universalDate_eq_ok_iff.mp huniversal
      exact absurd hholds (hnone date hdate)

/-! ## The date of a text -/

section

variable {text : String}

theorem publishDate_eq_none_iff :
    publishDate text = .ok none ↔ Timestamp.read? (spellZulu text.toList) = none := by
  rw [publishDate]
  cases Timestamp.read? (spellZulu text.toList) with
  | none => exact ⟨fun _ => rfl, fun _ => rfl⟩
  | some timestamp =>
    refine ⟨fun h => ?_, nofun⟩
    cases huniversal : timestamp.universalDate <;> simp only [huniversal] at h <;> cases h

theorem publishDate_eq_some_iff {shown : String} :
    publishDate text = .ok (some shown) ↔
      ∃ timestamp, Timestamp.read? (spellZulu text.toList) = some timestamp ∧
        ∃ date : Date, date.InCalendar ∧ date.Holds timestamp.instant ∧ shown = date.text := by
  rw [publishDate]
  cases hread : Timestamp.read? (spellZulu text.toList) with
  | none => exact ⟨nofun, nofun⟩
  | some timestamp =>
    have huniversal {date : Date} : timestamp.universalDate = .ok date ↔
        date.InCalendar ∧ date.Holds timestamp.instant :=
      (inRange_of_read? hread).universalDate_eq_ok_iff
    constructor
    · intro h
      cases hdate : timestamp.universalDate with
      | error fault =>
        simp only [hdate] at h
        cases h
      | ok date =>
        simp only [hdate] at h
        cases h
        obtain ⟨hcalendar, hholds⟩ := huniversal.mp hdate
        exact ⟨timestamp, rfl, date, hcalendar, hholds, rfl⟩
    · rintro ⟨_, ⟨⟩, date, hcalendar, hholds, rfl⟩
      simp only [huniversal.mpr ⟨hcalendar, hholds⟩]
      rfl

theorem publishDate_eq_error_iff :
    publishDate text = .error {} ↔
      ∃ timestamp, Timestamp.read? (spellZulu text.toList) = some timestamp ∧
        timestamp.LeavesCalendar := by
  rw [publishDate]
  cases hread : Timestamp.read? (spellZulu text.toList) with
  | none => exact ⟨nofun, nofun⟩
  | some timestamp =>
    simp only [Option.some.injEq, exists_eq_left',
      ← (inRange_of_read? hread).universalDate_eq_error_iff]
    cases timestamp.universalDate with
    | error fault => exact ⟨fun _ => rfl, fun _ => rfl⟩
    | ok date => exact ⟨nofun, nofun⟩

end

end ReleasePrompts.Release
