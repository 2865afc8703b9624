import ReleasePrompts.Proofs.Release.Spelling

/-!
# The date of an instant, however it is spelled

A time of day less its offset is of the day, of the one before or of the next one, which `Date.next`
finds by the rules of the calendar (`Timestamp.Zoned.fallsOn_iff`). The date in universal time of a
text is the one that holds the instant the text stands for, whatever its offset is, as long as that is
none or not less than a second (`publishDate_written_iff`).
-/

namespace ReleasePrompts.Release

/-! ## The next day -/

/-- The next day: of the month, the first one of the next month, or New Year's Day. -/
def Date.next (date : Date) : Date :=
  if date.day < (monthLengths date.year).getD (date.month - 1) 0 then
    { date with day := date.day + 1 }
  else if date.month < 12 then ⟨date.year, date.month + 1, 1⟩
  else ⟨date.year + 1, 1, 1⟩

theorem le_monthLengths (year : Nat) {month : Nat} (h : month < 12) :
    28 ≤ (monthLengths year).getD month 0 := by
  simp only [monthLengths]
  split <;> interval_cases month <;> decide

namespace Date.InCalendar

variable {date other : Date}

theorem index_next_month (h : date.InCalendar)
    (hday : date.day = (monthLengths date.year).getD (date.month - 1) 0) :
    date.index + 1 = ((monthLengths date.year).take date.month).sum := by
  have hlt : date.month - 1 < (monthLengths date.year).length :=
    Nat.lt_of_lt_of_le (Nat.sub_one_lt (Nat.ne_of_gt h.month_pos)) h.month_le
  have hsum := List.sum_take_succ (monthLengths date.year) (date.month - 1) hlt
  rw [Nat.sub_add_cancel h.month_pos, ← List.getD_eq_getElem _ 0 hlt, ← hday] at hsum
  have hpos := h.day_pos
  rw [index, hsum]
  omega

/-- The numbers of dates go up by one from day to day. -/
theorem number_next (h : date.InCalendar) : date.next.number = date.number + 1 := by
  have hpos := h.day_pos
  have hle := h.day_le
  rw [number_eq hpos, next]
  split
  · rw [number_eq (Nat.le_add_left 1 _)]
    simp only [index]
    omega
  · next hlast =>
    have hindex := h.index_next_month (Nat.le_antisymm hle (Nat.le_of_not_lt hlast))
    split
    · rw [number_eq (Nat.le_refl 1)]
      simp only [index, Nat.add_sub_cancel, Nat.sub_self] at hindex ⊢
      omega
    · next hmonth =>
      obtain hmonth : date.month = 12 := Nat.le_antisymm h.month_le (Nat.le_of_not_lt hmonth)
      have hyear : ((monthLengths date.year).take date.month).sum = (monthLengths date.year).sum := by
        rw [hmonth]
        rfl
      rw [number_eq (Nat.le_refl 1), daysBeforeYear_succ h.year_pos, ← hyear, ← hindex]
      simp only [index, Nat.sub_self, List.take_zero, List.sum_nil]
      omega

/-- Only the last day of the calendar has no next one. -/
theorem next_inCalendar (h : date.InCalendar) (hlast : date.number < lastDay) :
    date.next.InCalendar := by
  have hpos := h.day_pos
  rw [next]
  split
  · next hday => exact ⟨h.year_pos, h.year_le, h.month_pos, h.month_le, Nat.le_add_left 1 _, hday⟩
  · next hday =>
    split
    · next hmonth =>
      have := le_monthLengths date.year hmonth
      exact ⟨h.year_pos, h.year_le, Nat.le_add_left 1 _, hmonth, Nat.le_refl 1,
        Nat.le_trans (Nat.le_add_left 1 27) this⟩
    · next hmonth =>
      have hle := h.day_le
      have hyear : date.year ≠ lastYear := fun hyear => by
        have hmonth : date.month = 12 := Nat.le_antisymm h.month_le (Nat.le_of_not_lt hmonth)
        have hday : date.day = 31 := by
          rw [hmonth] at hday hle
          exact Nat.le_antisymm hle (Nat.le_of_not_lt hday)
        have hdate : date = ⟨lastYear, 12, 31⟩ := by
          rw [← hyear, ← hmonth, ← hday]
        exact absurd (h.eq_last_iff.mp hdate) (Nat.ne_of_lt hlast)
      have := le_monthLengths (date.year + 1) (Nat.zero_lt_succ 11)
      exact ⟨Nat.le_add_left 1 _, Nat.lt_of_le_of_ne h.year_le hyear, Nat.le_refl 1,
        Nat.le_add_left 1 11, Nat.le_refl 1, Nat.le_trans (Nat.le_add_left 1 27) this⟩

theorem eq_next_iff (h : date.InCalendar) (h' : other.InCalendar) :
    other = date.next ↔ other.number = date.number + 1 := by
  constructor
  · rintro rfl
    exact h.number_next
  · intro hnumber
    have hlast := h'.number_bounds.2
    refine h'.eq_of_number_eq (h.next_inCalendar (by omega)) ?_
    rw [hnumber, h.number_next]

/-- Two dates with one text are the same. -/
theorem eq_of_text_eq (h : date.InCalendar) (h' : other.InCalendar) (htext : date.text = other.text) :
    date = other := by
  have hinj : ∀ {width n m : Nat}, n < 10 ^ width → m < 10 ^ width →
      lastDigits width n = lastDigits width m → n = m := fun hn hm heq => by
    rw [← readDigits_lastDigits hn, heq, readDigits_lastDigits hm]
  obtain ⟨hyear, hmonth, hday⟩ := h.widths
  obtain ⟨hyear', hmonth', hday'⟩ := h'.widths
  rw [h.text_eq, h'.text_eq, String.ofList_inj] at htext
  obtain ⟨hfront, hback⟩ := List.append_inj htext (by simp [length_lastDigits])
  obtain ⟨hyears, hmonths⟩ := List.append_inj hfront (by simp [length_lastDigits])
  obtain ⟨-, hmonths⟩ := List.cons_eq_cons.mp hmonths
  obtain ⟨-, hdays⟩ := List.cons_eq_cons.mp hback
  cases date
  cases other
  exact Date.mk.injEq .. ▸
    ⟨hinj hyear hyear' hyears, hinj hmonth hmonth' hmonths, hinj hday hday' hdays⟩

end Date.InCalendar

/-! ## The day in universal time -/

namespace Timestamp

variable {timestamp : Timestamp} {offset : Int} {date : Date} {text : String}

/-- What day a timestamp is on in universal time: the time of day less the offset is of its own day, of
the one before or of the next one. -/
def FallsOn (timestamp : Timestamp) (offset : Int) (date : Date) : Prop :=
  let time : Int := timestamp.clock.microseconds - offset
  if time < 0 then timestamp.date = date.next
  else if time < dayLength then date = timestamp.date
  else date = timestamp.date.next

theorem Zoned.microseconds_lt (h : timestamp.Zoned offset) :
    timestamp.clock.microseconds < dayLength :=
  microseconds_lt_of_isTimeOfDay h.time h.microsecond

/-- Days carry over as the calendar counts them. -/
theorem Zoned.fallsOn_iff (h : timestamp.Zoned offset) (hdate : date.InCalendar) :
    timestamp.FallsOn offset date ↔ date.Holds timestamp.instant := by
  have hclock := h.microseconds_lt
  have hoffset := h.offset_lt
  have heq : date = timestamp.date ↔ date.number = timestamp.date.number :=
    ⟨congrArg _, hdate.eq_of_number_eq h.date⟩
  simp only [FallsOn, Date.Holds, instant, h.offset_eq, Option.getD_some, heq,
    hdate.eq_next_iff h.date, h.date.eq_next_iff hdate, dayLength] at *
  split
  · omega
  · split <;> omega

end Timestamp

/-! ## The date of what is written -/

/-- Two texts that are read as one instant have the same date, or none. -/
theorem publishDate_congr {text other : String} {timestamp timestamp' : Timestamp}
    (hread : Timestamp.read? (spellZulu text.toList) = some timestamp)
    (hread' : Timestamp.read? (spellZulu other.toList) = some timestamp')
    (h : timestamp.instant = timestamp'.instant) : publishDate text = publishDate other := by
  have huniversal : timestamp.universalDate = timestamp'.universalDate := by
    have hiff : ∀ date, timestamp.universalDate = .ok date ↔ timestamp'.universalDate = .ok date :=
      fun date => by
        rw [(inRange_of_read? hread).universalDate_eq_ok_iff,
          (inRange_of_read? hread').universalDate_eq_ok_iff, h]
    cases hdate : timestamp'.universalDate with
    | ok date => exact (hiff date).mpr hdate
    | error fault =>
      cases hdate' : timestamp.universalDate with
      | ok date => exact absurd ((hiff date).mp hdate') (by rw [hdate]; nofun)
      | error fault' => rfl
  simp only [publishDate, hread, hread', huniversal]

namespace Timestamp

variable {timestamp : Timestamp} {offset : Int} {date : Date} {text : String}

theorem keptOffset_eq (h : offset.natAbs < 1000000 → offset = 0) : keptOffset offset = offset := by
  rw [keptOffset]
  split
  · next hsmall => exact (h hsmall).symm
  · rfl

/-- The date of a text is the one that holds the instant that is read. -/
theorem Zoned.publishDate_written (hzoned : timestamp.Zoned offset)
    (hwritten : timestamp.Written text.toList) (hdate : date.InCalendar)
    (hholds : date.Holds (timestamp.instant + offset - keptOffset offset)) :
    publishDate text = .ok (some date.text) := by
  refine publishDate_eq_some_iff.mpr ⟨_, hzoned.read?_written hwritten, date, hdate, ?_, rfl⟩
  simpa only [instant, hzoned.offset_eq, Option.getD_some, Int.sub_add_cancel] using hholds

/-- An offset of less than a second counts as none, so it is wrong by a day where it would have moved
the date. -/
theorem Zoned.publishDate_eq_iff (hzoned : timestamp.Zoned offset)
    (hwritten : timestamp.Written text.toList) (hdate : date.InCalendar)
    (hholds : date.Holds timestamp.instant) :
    publishDate text = .ok (some date.text) ↔ (offset.natAbs < 1000000 → date = timestamp.date) := by
  by_cases hsmall : offset.natAbs < 1000000
  · have hown : timestamp.date.Holds (timestamp.instant + offset - keptOffset offset) := by
      have hclock := hzoned.microseconds_lt
      simp only [Date.Holds, instant, hzoned.offset_eq, Option.getD_some, keptOffset, if_pos hsmall,
        dayLength] at hclock ⊢
      omega
    have hshown := hzoned.publishDate_written hwritten hzoned.date hown
    constructor
    · intro hdated _
      rw [hdated] at hshown
      exact hdate.eq_of_text_eq hzoned.date (Option.some.inj (Except.ok.inj hshown))
    · intro hsame
      rw [hsame hsmall]
      exact hshown
  · refine ⟨fun _ hlt => absurd hlt hsmall, fun _ => ?_⟩
    refine hzoned.publishDate_written hwritten hdate ?_
    rwa [keptOffset, if_neg hsmall, Int.add_sub_cancel]

/-- Two texts stand for one instant and their offsets are none or not less than a second: they have one
date, or none. -/
theorem Zoned.publishDate_eq (hzoned : timestamp.Zoned offset)
    (hwritten : timestamp.Written text.toList) (hwhole : offset.natAbs < 1000000 → offset = 0)
    {other : Timestamp} {offset' : Int} {text' : String} (hzoned' : other.Zoned offset')
    (hwritten' : other.Written text'.toList) (hwhole' : offset'.natAbs < 1000000 → offset' = 0)
    (h : other.instant = timestamp.instant) : publishDate text' = publishDate text := by
  refine publishDate_congr (hzoned'.read?_written hwritten') (hzoned.read?_written hwritten) ?_
  rw [keptOffset_eq hwhole, keptOffset_eq hwhole', ← hzoned.offset_eq, ← hzoned'.offset_eq]
  exact h

end Timestamp

/-- A timestamp with an offset smaller than a day can be written in ISO 8601. Where its instant is on a
date of the calendar, which is its own date, the one before or the next one, that is the date of any
such text, unless the offset is of less than a second and moves the date. Texts that stand for one
instant with offsets that are none or not less than a second have the same date. -/
theorem publishDate_written_iff {timestamp : Timestamp} {offset : Int}
    (hzoned : timestamp.Zoned offset) :
    (∃ text : String, timestamp.Written text.toList) ∧
    ∀ text : String, timestamp.Written text.toList →
      (∀ date : Date, date.InCalendar → date.Holds timestamp.instant →
        timestamp.FallsOn offset date ∧
        (publishDate text = .ok (some date.text) ↔
          (offset.natAbs < 1000000 → date = timestamp.date))) ∧
      ∀ (other : Timestamp) (offset' : Int) (text' : String), other.Zoned offset' →
        other.Written text'.toList → other.instant = timestamp.instant →
        (offset.natAbs < 1000000 → offset = 0) → (offset'.natAbs < 1000000 → offset' = 0) →
          publishDate text' = publishDate text :=
  ⟨hzoned.exists_written, fun _ hwritten =>
    ⟨fun _ hdate hholds => ⟨(hzoned.fallsOn_iff hdate).mpr hholds,
      hzoned.publishDate_eq_iff hwritten hdate hholds⟩,
    fun _ _ _ hzoned' hwritten' hinstant hwhole hwhole' =>
      hzoned.publishDate_eq hwritten hwhole hzoned' hwritten' hwhole' hinstant⟩⟩

theorem written_new_york : Timestamp.Written ⟨⟨2024, 2, 29⟩, ⟨23, 30, 0, 0⟩, some (-18000000000)⟩
    "2024-02-29T23:30:00-05:00".toList :=
  have hclock := @Clock.Written.seconds true 23 30 0 (by decide) (by decide) (by decide)
  have hoffset := @Clock.Written.minutes true 5 0 (by decide) (by decide)
  Timestamp.Written.toList (.mk true (show 'T' ≠ 'Z' by decide) hclock rfl (.behind hoffset))
    (by decide +kernel)

theorem written_zulu : Timestamp.Written ⟨⟨2024, 3, 1⟩, ⟨4, 30, 0, 0⟩, some 0⟩
    "2024-03-01T04:30:00Z".toList :=
  have hclock := @Clock.Written.seconds true 4 30 0 (by decide) (by decide) (by decide)
  Timestamp.Written.toList (.mk true (show 'T' ≠ 'Z' by decide) hclock rfl .zulu) (by decide +kernel)

/-- Half past eleven at night on a leap day, five hours west of universal time, is on the first of
March there. -/
theorem publishDate_written_iff_leap_day :
    Timestamp.Zoned ⟨⟨2024, 2, 29⟩, ⟨23, 30, 0, 0⟩, some (-18000000000)⟩ (-18000000000) ∧
    publishDate "2024-02-29T23:30:00-05:00" = .ok (some "2024-03-01") ∧
    publishDate "2024-03-01T04:30:00Z" = publishDate "2024-02-29T23:30:00-05:00" := by
  have hzoned : Timestamp.Zoned ⟨⟨2024, 2, 29⟩, ⟨23, 30, 0, 0⟩, some (-18000000000)⟩ (-18000000000) :=
    ⟨((@date?_eq_some_iff 2024 2 29 _).mp rfl).2, by decide, by decide, rfl, by decide⟩
  have hzulu : Timestamp.Zoned ⟨⟨2024, 3, 1⟩, ⟨4, 30, 0, 0⟩, some 0⟩ 0 :=
    ⟨((@date?_eq_some_iff 2024 3 1 _).mp rfl).2, by decide, by decide, rfl, by decide⟩
  obtain ⟨-, hall⟩ := publishDate_written_iff hzoned
  obtain ⟨hdated, hsame⟩ := hall _ written_new_york
  refine ⟨hzoned, ?_, ?_⟩
  · exact ((hdated ⟨2024, 3, 1⟩ ((@date?_eq_some_iff 2024 3 1 _).mp rfl).2 (by decide)).2.mpr
      (by decide))
  · exact hsame _ _ _ hzulu written_zulu (by decide) (by decide) (by decide)

/-- Midnight at an offset of half a second is on the day before in universal time, but the date of the
text is its own. -/
theorem publishDate_half_second :
    Timestamp.Zoned ⟨⟨2024, 1, 1⟩, ⟨0, 0, 0, 0⟩, some 500000⟩ 500000 ∧
    Timestamp.Written ⟨⟨2024, 1, 1⟩, ⟨0, 0, 0, 0⟩, some 500000⟩
      "2024-01-01T00:00:00+00:00:00.500000".toList ∧
    Date.InCalendar ⟨2023, 12, 31⟩ ∧
    Date.Holds ⟨2023, 12, 31⟩ (Timestamp.instant ⟨⟨2024, 1, 1⟩, ⟨0, 0, 0, 0⟩, some 500000⟩) ∧
    Date.text ⟨2023, 12, 31⟩ = "2023-12-31" ∧
    publishDate "2024-01-01T00:00:00+00:00:00.500000" = .ok (some "2024-01-01") := by
  have hclock := @Clock.Written.seconds true 0 0 0 (by decide) (by decide) (by decide)
  have hoffset := @Clock.Written.fraction true 0 0 0 500000 '.' (lastDigits 6 500000) (by decide)
    (by decide) (by decide) (.inl rfl) (isFraction_lastDigits (by decide))
  refine ⟨⟨((@date?_eq_some_iff 2024 1 1 _).mp rfl).2, by decide, by decide, rfl, by decide⟩, ?_,
    ((@date?_eq_some_iff 2023 12 31 _).mp rfl).2, by decide, by decide +kernel, by decide +kernel⟩
  exact Timestamp.Written.toList (.mk true (show 'T' ≠ 'Z' by decide) hclock rfl (.ahead hoffset))
    (by decide +kernel)

end ReleasePrompts.Release
