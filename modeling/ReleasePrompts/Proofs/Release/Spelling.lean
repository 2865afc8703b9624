import Mathlib.Tactic.IntervalCases
import ReleasePrompts.Proofs.Number.Numeral
import ReleasePrompts.Proofs.Release.Timestamp

/-!
# Timestamps as ISO 8601 writes them

A clock is written with two digits for each unit (`Clock.Written`), an offset by its sign and a clock
or by the letter Z (`OffsetWritten`), and a timestamp by its date, its clock and its offset
(`Timestamp.Written`), which is possible for every offset smaller than a day (`exists_written`). What
is read from such a text is what was written, but for an offset of less than a second, which counts as
none (`read?_written`).
-/

namespace ReleasePrompts.Release

open Text

/-! ## Numbers of fixed width -/

theorem length_lastDigits (width n : Nat) : (lastDigits width n).length = width := by
  induction width generalizing n with
  | zero => rfl
  | succ width ih => rw [lastDigits, List.length_append, ih, List.length_singleton]

theorem digitChar_isDigit {value : Nat} (h : value < 10) :
    (Nat.digitChar value).isDigit = true ∧ hexDigitValue (Nat.digitChar value) = value := by
  interval_cases value <;> decide

theorem isDigit_lastDigits (width n : Nat) : ∀ c ∈ lastDigits width n, c.isDigit = true := by
  induction width generalizing n with
  | zero => exact nofun
  | succ width ih =>
    intro c hc
    rcases List.mem_append.mp hc with hc | hc
    · exact ih _ c hc
    · rw [List.mem_singleton.mp hc]
      exact (digitChar_isDigit (Nat.mod_lt n (by decide))).1

theorem readDigits_append (base : Nat) (digits more : List Char) :
    readDigits base (digits ++ more) =
      readDigits base digits * base ^ more.length + readDigits base more := by
  induction more using List.reverseRecOn with
  | nil => simp [readDigits]
  | append_singleton more c ih =>
    simp only [readDigits, ← List.append_assoc, List.foldl_append, List.foldl_cons, List.foldl_nil,
      List.length_append, List.length_singleton, Nat.pow_succ] at ih ⊢
    rw [ih]
    ring

theorem readDigits_lastDigits {width n : Nat} (h : n < 10 ^ width) :
    readDigits 10 (lastDigits width n) = n := by
  induction width generalizing n with
  | zero => rw [Nat.lt_one_iff.mp h]; rfl
  | succ width ih =>
    have hrest : n / 10 < 10 ^ width := Nat.div_lt_of_lt_mul (Nat.pow_succ' ▸ h)
    have hlast : readDigits 10 [Nat.digitChar (n % 10)] = n % 10 := by
      rw [readDigits, List.foldl_cons, List.foldl_nil,
        (digitChar_isDigit (Nat.mod_lt n (by decide))).2]
      exact Nat.zero_add _
    rw [lastDigits, readDigits_append, ih hrest, hlast, List.length_singleton, Nat.pow_one]
    omega

/-- A number is read as it was written, up to what follows it. -/
theorem takeNumber?_lastDigits {width n : Nat} (h : n < 10 ^ width) (rest : List Char) :
    takeNumber? width (lastDigits width n ++ rest) = some (n, rest) := by
  have hlength := length_lastDigits width n
  have htake : (lastDigits width n ++ rest).take width = lastDigits width n := by
    rw [List.take_append_of_le_length hlength.ge, List.take_of_length_le hlength.le]
  have hdrop : (lastDigits width n ++ rest).drop width = rest := by
    rw [List.drop_append_of_le_length hlength.ge, List.drop_of_length_le hlength.le,
      List.nil_append]
  simp only [takeNumber?, htake, hdrop, hlength, beq_self_eq_true, Bool.true_and,
    List.all_eq_true.mpr (isDigit_lastDigits width n), if_true, readDigits_lastDigits h]

/-- A number of two digits begins with a digit. -/
theorem exists_lastDigits_two (n : Nat) :
    ∃ c d, lastDigits 2 n = [c, d] ∧ c.isDigit = true ∧ d.isDigit = true := by
  refine ⟨_, _, rfl, ?_, ?_⟩
  · exact (digitChar_isDigit (Nat.mod_lt _ (by decide))).1
  · exact (digitChar_isDigit (Nat.mod_lt _ (by decide))).1

/-! ## Clocks -/

/-- What stands between two units of a clock. -/
def between (colons : Bool) : List Char := if colons then [':'] else []

/-- Digits behind the mark of a fraction, whose value is that of so many microseconds. -/
structure IsFraction (digits : List Char) (microsecond : Nat) : Prop where
  ne_nil : digits ≠ []
  isDigit : ∀ c ∈ digits, c.isDigit = true
  value : readDigits 10 digits * 1000000 = microsecond * 10 ^ digits.length

/-- A clock with two digits for each unit, with colons between all of them or none. Units that are
zero may be left out at the end, and behind the seconds a fraction may follow. -/
inductive Clock.Written (colons : Bool) : Clock → List Char → Prop where
  | hours {h : Nat} (hh : h < 100) : Written colons ⟨h, 0, 0, 0⟩ (lastDigits 2 h)
  | minutes {h m : Nat} (hh : h < 100) (hm : m < 100) :
    Written colons ⟨h, m, 0, 0⟩ (lastDigits 2 h ++ (between colons ++ lastDigits 2 m))
  | seconds {h m s : Nat} (hh : h < 100) (hm : m < 100) (hs : s < 100) :
    Written colons ⟨h, m, s, 0⟩ (lastDigits 2 h ++ (between colons ++ (lastDigits 2 m ++
      (between colons ++ lastDigits 2 s))))
  | fraction {h m s microsecond : Nat} {mark : Char} {digits : List Char} (hh : h < 100)
    (hm : m < 100) (hs : s < 100) (hmark : mark = '.' ∨ mark = ',')
    (hdigits : IsFraction digits microsecond) :
    Written colons ⟨h, m, s, microsecond⟩ (lastDigits 2 h ++ (between colons ++ (lastDigits 2 m ++
      (between colons ++ (lastDigits 2 s ++ mark :: digits)))))

theorem isFraction_lastDigits {microsecond : Nat} (h : microsecond < 1000000) :
    IsFraction (lastDigits 6 microsecond) microsecond where
  ne_nil := List.ne_nil_of_length_eq_add_one (length_lastDigits 6 microsecond)
  isDigit := isDigit_lastDigits 6 microsecond
  value := by
    rw [@readDigits_lastDigits 6 microsecond h, length_lastDigits]
    rfl

/-- A clock of two digits a unit can be written with colons and a fraction of six digits. -/
theorem exists_written_clock {clock : Clock} (hh : clock.hour < 100) (hm : clock.minute < 100)
    (hs : clock.second < 100) (h : clock.microsecond < 1000000) : ∃ text, clock.Written true text :=
  ⟨_, .fraction hh hm hs (.inl rfl) (isFraction_lastDigits h)⟩

variable {clock : Clock} {unit : ClockUnit} {colons : Bool} {n m : Nat}

theorem readUnits?_lastDigits (hn : n < 100) :
    readUnits? clock unit colons (lastDigits 2 n) = some ⟨clock.put n unit, true⟩ := by
  have htake := @takeNumber?_lastDigits 2 n hn []
  rw [List.append_nil] at htake
  rw [readUnits?, htake]
  rfl

theorem ne_of_isDigit {c d : Char} (h : c.isDigit = true) (hd : d.isDigit = false) : c ≠ d := by
  rintro rfl
  rw [h] at hd
  cases hd

/-- Behind a unit the next one is read; behind the hours it shows whether there are colons. -/
theorem readUnits?_between (hn : n < 100) {next : ClockUnit} (hnext : unit.next? = some next)
    {before : Bool} (hbefore : unit = .hour ∨ before = colons) (m : Nat) (rest : List Char) :
    readUnits? clock unit before (lastDigits 2 n ++ (between colons ++ (lastDigits 2 m ++ rest))) =
      readUnits? (clock.put n unit) next colons (lastDigits 2 m ++ rest) := by
  obtain ⟨c, d, hm, hc, -⟩ := exists_lastDigits_two m
  have hcolon : c ≠ ':' := ne_of_isDigit hc rfl
  have hpoint : c ≠ '.' := ne_of_isDigit hc rfl
  have hcomma : c ≠ ',' := ne_of_isDigit hc rfl
  rw [readUnits?, takeNumber?_lastDigits hn, hm]
  cases unit with
  | second => cases hnext
  | hour =>
    cases hnext
    have hfirst : (c == ':') = false := beq_eq_false_iff_ne.mpr hcolon
    cases colons <;> simp [between, hfirst, hcolon, hpoint, hcomma]
  | minute =>
    cases hnext
    obtain rfl : before = colons := hbefore.resolve_left nofun
    cases before <;> simp [between, hpoint, hcomma]

/-- The digits behind the sixth are zeros, so the first six give the fraction. -/
theorem IsFraction.take {digits : List Char} {microsecond : Nat} (h : IsFraction digits microsecond) :
    readDigits 10 (digits.take 6) * 10 ^ (6 - min digits.length 6) = microsecond := by
  rcases Nat.le_total digits.length 6 with hle | hle
  · rw [List.take_of_length_le hle, Nat.min_eq_left hle]
    have hpow : (1000000 : Nat) = 10 ^ (6 - digits.length) * 10 ^ digits.length := by
      rw [← Nat.pow_add, Nat.sub_add_cancel hle]
    have hvalue := h.value
    rw [hpow, ← Nat.mul_assoc] at hvalue
    exact Nat.eq_of_mul_eq_mul_right (Nat.pow_pos (by decide)) hvalue
  · have hlength : (digits.drop 6).length = digits.length - 6 := List.length_drop
    have hpow : 10 ^ digits.length = 10 ^ (digits.length - 6) * 1000000 := by
      rw [show (1000000 : Nat) = 10 ^ 6 from rfl, ← Nat.pow_add, Nat.sub_add_cancel hle]
    have hlt : readDigits 10 (digits.drop 6) < 10 ^ (digits.length - 6) := by
      rw [← hlength]
      exact Literal.readDigits_lt fun c hc =>
        hexDigitValue_lt_of_isDigit (h.isDigit c (List.mem_of_mem_drop hc))
    have hsplit : readDigits 10 digits = readDigits 10 (digits.take 6) * 10 ^ (digits.length - 6) +
        readDigits 10 (digits.drop 6) := by
      rw [← hlength, ← readDigits_append, List.take_append_drop]
    have hvalue := h.value
    rw [hsplit, hpow, ← Nat.mul_assoc] at hvalue
    have hvalue := Nat.eq_of_mul_eq_mul_right (by decide) hvalue
    rw [Nat.min_eq_right hle, Nat.sub_self, Nat.pow_zero, Nat.mul_one]
    calc
      readDigits 10 (digits.take 6)
        = (readDigits 10 (digits.drop 6) +
            readDigits 10 (digits.take 6) * 10 ^ (digits.length - 6)) / 10 ^ (digits.length - 6) := by
          rw [Nat.add_mul_div_right _ _ (Nat.pow_pos (by decide)), Nat.div_eq_of_lt hlt, Nat.zero_add]
      _ = microsecond := by
          rw [Nat.add_comm, hvalue, Nat.mul_div_cancel _ (Nat.pow_pos (by decide))]

theorem readFraction?_of_isFraction {digits : List Char} {microsecond : Nat}
    (h : IsFraction digits microsecond) :
    readFraction? clock digits = some ⟨{ clock with microsecond }, true⟩ := by
  have htake : digits.take (min digits.length 6) = digits.take 6 := by
    rw [Nat.min_comm, ← List.take_take, List.take_length]
  have hlength : (digits.take 6).length = min digits.length 6 := by
    rw [List.length_take, Nat.min_comm]
  have hdigits : (digits.take 6).all Char.isDigit = true :=
    List.all_eq_true.mpr fun c hc => h.isDigit c (List.mem_of_mem_take hc)
  have hleft : (digits.drop (min digits.length 6)).dropWhile Char.isDigit = [] :=
    List.dropWhile_eq_nil_iff.mpr fun c hc => h.isDigit c (List.mem_of_mem_drop hc)
  have hvalue : readDigits 10 (digits.take 6) * Nat.pow 10 (6 - min digits.length 6) = microsecond :=
    h.take
  simp only [readFraction?, takeNumber?, htake, hlength, hdigits, beq_self_eq_true, Bool.true_and,
    if_true, Option.bind_eq_bind, Option.bind_some, hleft, hvalue]
  rfl

/-- Behind the seconds, with colons or without, a fraction is read. -/
theorem readUnits?_fraction (hn : n < 100) {before : Bool} {mark : Char} {digits : List Char}
    {microsecond : Nat} (hmark : mark = '.' ∨ mark = ',') (h : IsFraction digits microsecond) :
    readUnits? clock .second before (lastDigits 2 n ++ mark :: digits) =
      some ⟨{ clock.put n .second with microsecond }, true⟩ := by
  obtain ⟨c, more, rfl⟩ := List.exists_cons_of_ne_nil h.ne_nil
  rw [readUnits?, takeNumber?_lastDigits hn]
  rcases hmark with rfl | rfl <;> simp [readFraction?_of_isFraction h]

/-- A clock is read as it was written. -/
theorem Clock.Written.readClock? {text : List Char} (h : clock.Written colons text) :
    readClock? text = some ⟨clock, true⟩ := by
  have hhour : ∀ {h m : Nat}, h < 100 → ∀ rest, readUnits? {} .hour false
      (lastDigits 2 h ++ (between colons ++ (lastDigits 2 m ++ rest))) =
        readUnits? ⟨h, 0, 0, 0⟩ .minute colons (lastDigits 2 m ++ rest) :=
    fun hh rest => readUnits?_between hh rfl (.inl rfl) _ rest
  have hminute : ∀ {h m s : Nat}, m < 100 → ∀ rest, readUnits? ⟨h, 0, 0, 0⟩ .minute colons
      (lastDigits 2 m ++ (between colons ++ (lastDigits 2 s ++ rest))) =
        readUnits? ⟨h, m, 0, 0⟩ .second colons (lastDigits 2 s ++ rest) :=
    fun hm rest => readUnits?_between hm rfl (.inr rfl) _ rest
  rw [Release.readClock?]
  cases h with
  | hours hh => exact readUnits?_lastDigits hh
  | @minutes h m hh hm =>
    rw [← List.append_nil (lastDigits 2 m), hhour hh, List.append_nil, readUnits?_lastDigits hm]
    rfl
  | @seconds h m s hh hm hs =>
    rw [hhour hh, ← List.append_nil (lastDigits 2 s), hminute hm, List.append_nil,
      readUnits?_lastDigits hs]
    rfl
  | fraction hh hm hs hmark hdigits =>
    rw [hhour hh, hminute hm, readUnits?_fraction hs hmark hdigits]
    rfl

/-- A character that is neither a sign nor the letter of universal time. -/
def IsUnsigned (c : Char) : Prop := isSign c = false ∧ c ≠ 'Z'

theorem isUnsigned_of_isDigit {c : Char} (h : c.isDigit = true) : IsUnsigned c :=
  ⟨Bool.or_eq_false_iff.mpr ⟨beq_eq_false_iff_ne.mpr (ne_of_isDigit h rfl),
    beq_eq_false_iff_ne.mpr (ne_of_isDigit h rfl)⟩, ne_of_isDigit h rfl⟩

theorem Clock.Written.isUnsigned {text : List Char} (h : clock.Written colons text) :
    ∀ c ∈ text, IsUnsigned c := by
  have hunit : ∀ n, ∀ c ∈ lastDigits 2 n, IsUnsigned c :=
    fun n c hc => isUnsigned_of_isDigit (isDigit_lastDigits 2 n c hc)
  have hcolon : ∀ c ∈ between colons, IsUnsigned c := by
    cases colons
    · exact nofun
    · exact List.forall_mem_singleton.mpr ⟨rfl, by decide⟩
  cases h with
  | hours => exact hunit _
  | minutes =>
    simp only [List.forall_mem_append]
    exact ⟨hunit _, hcolon, hunit _⟩
  | seconds =>
    simp only [List.forall_mem_append]
    exact ⟨hunit _, hcolon, hunit _, hcolon, hunit _⟩
  | fraction _ _ _ hmark hdigits =>
    simp only [List.forall_mem_append, List.forall_mem_cons]
    refine ⟨hunit _, hcolon, hunit _, hcolon, hunit _, ?_,
      fun c hc => isUnsigned_of_isDigit (hdigits.isDigit c hc)⟩
    rcases hmark with rfl | rfl <;> exact ⟨rfl, by decide⟩

theorem Clock.Written.microsecond_lt {text : List Char} (h : clock.Written colons text) :
    clock.microsecond < 1000000 := by
  cases h with
  | @fraction _ _ _ microsecond _ digits _ _ _ _ hdigits =>
    have hlt : readDigits 10 digits < 10 ^ digits.length :=
      Literal.readDigits_lt fun c hc => hexDigitValue_lt_of_isDigit (hdigits.isDigit c hc)
    refine Nat.lt_of_mul_lt_mul_right (a := 10 ^ digits.length) ?_
    rw [← hdigits.value, Nat.mul_comm]
    exact Nat.mul_lt_mul_of_pos_left hlt (by decide)
  | _ => exact Nat.zero_lt_succ _

/-! ## Offsets -/

/-- An offset from universal time as a sign and a clock, or as the letter Z. -/
inductive OffsetWritten : Int → List Char → Prop where
  | zulu : OffsetWritten 0 ['Z']
  | ahead {colons : Bool} {clock : Clock} {text : List Char} (h : clock.Written colons text) :
    OffsetWritten clock.microseconds ('+' :: text)
  | behind {colons : Bool} {clock : Clock} {text : List Char} (h : clock.Written colons text) :
    OffsetWritten (-clock.microseconds) ('-' :: text)

/-- The offset that is read where one is written: less than a second counts as none. -/
def keptOffset (offset : Int) : Int := if offset.natAbs < 1000000 then 0 else offset

/-- Offsets smaller than a day can be written. -/
theorem exists_offsetWritten {offset : Int} (h : offset.natAbs < dayLength) :
    ∃ text, OffsetWritten offset text := by
  generalize hsize : offset.natAbs = size at h
  let clock : Clock :=
    ⟨size / 3600000000, size / 60000000 % 60, size / 1000000 % 60, size % 1000000⟩
  have hmicroseconds : clock.microseconds = size := by
    simp only [clock, Clock.microseconds, Clock.seconds]
    omega
  obtain ⟨text, hclock⟩ := @exists_written_clock clock
    (Nat.div_lt_of_lt_mul (Nat.lt_trans h (by decide)))
    (Nat.lt_trans (Nat.mod_lt _ (by decide)) (by decide))
    (Nat.lt_trans (Nat.mod_lt _ (by decide)) (by decide)) (Nat.mod_lt _ (by decide))
  rcases Int.natAbs_eq offset with hsign | hsign
  · rw [hsign, hsize, ← hmicroseconds]
    exact ⟨_, .ahead hclock⟩
  · rw [hsign, hsize, ← hmicroseconds]
    exact ⟨_, .behind hclock⟩

theorem spellZulu_append (text more : List Char) :
    spellZulu (text ++ more) = spellZulu text ++ spellZulu more := List.flatMap_append

theorem spellZulu_of_plain {text : List Char} (h : ∀ c ∈ text, c ≠ 'Z') : spellZulu text = text := by
  induction text with
  | nil => rfl
  | cons c text ih =>
    obtain ⟨hc, hmore⟩ := List.forall_mem_cons.mp h
    rw [spellZulu, List.flatMap_cons, if_neg hc]
    exact congrArg (c :: ·) (ih hmore)

/-- A clock that is the size of an offset is read as the offset, unless it shows less than a
second. -/
theorem Clock.Written.readOffset? {text : List Char} (h : clock.Written colons text)
    (hlt : clock.microseconds < dayLength) {negative : Bool} {offset : Int}
    (hoffset : offset = if negative then -(clock.microseconds : Int) else clock.microseconds) :
    readOffset? negative text = some (keptOffset offset) := by
  have hmicrosecond := h.microsecond_lt
  have hseconds : clock.seconds = 0 ↔ clock.microseconds < 1000000 := by
    simp only [Clock.microseconds]
    omega
  have habs : offset.natAbs = clock.microseconds := by
    subst hoffset
    cases negative <;> simp
  simp only [Release.readOffset?, h.readClock?, Option.bind_eq_bind, Option.bind_some,
    Bool.not_true, Bool.false_eq_true, if_false, beq_iff_eq, hseconds, keptOffset, habs,
    if_neg (Nat.not_le_of_lt hlt), ← hoffset]
  split <;> rfl

/-- An offset is read behind its sign, once its letter is spelled out. -/
theorem OffsetWritten.read {offset : Int} {text : List Char} (h : OffsetWritten offset text)
    (hlt : offset.natAbs < dayLength) :
    ∃ sign rest, spellZulu text = sign :: rest ∧ isSign sign = true ∧
      readOffset? (sign == '-') rest = some (keptOffset offset) := by
  cases h with
  | zulu =>
    have hclock := @Clock.Written.minutes true 0 0 (by decide) (by decide)
    exact ⟨'+', "00:00".toList, rfl, rfl, hclock.readOffset? (by decide) rfl⟩
  | @ahead _ clock text hclock =>
    have hspelled := spellZulu_of_plain (List.forall_mem_cons.mpr
      ⟨show '+' ≠ 'Z' by decide, fun c hc => (hclock.isUnsigned c hc).2⟩)
    exact ⟨'+', text, hspelled, rfl, hclock.readOffset? (by simpa using hlt) (if_neg nofun).symm⟩
  | @behind _ clock text hclock =>
    have hspelled := spellZulu_of_plain (List.forall_mem_cons.mpr
      ⟨show '-' ≠ 'Z' by decide, fun c hc => (hclock.isUnsigned c hc).2⟩)
    exact ⟨'-', text, hspelled, rfl, hclock.readOffset? (by simpa using hlt) (if_pos rfl).symm⟩

/-! ## Dates -/

/-- What stands between two numbers of a date. -/
def joined (hyphens : Bool) : List Char := if hyphens then ['-'] else []

/-- A date with four digits for the year and two for the month and for the day, with hyphens between
them or none. -/
def Date.spelled (hyphens : Bool) (date : Date) : List Char :=
  lastDigits 4 date.year ++ (joined hyphens ++ (lastDigits 2 date.month ++
    (joined hyphens ++ lastDigits 2 date.day)))

theorem length_spelled (hyphens : Bool) (date : Date) :
    (date.spelled hyphens).length = if hyphens then 10 else 8 := by
  cases hyphens <;> simp [Date.spelled, joined, length_lastDigits]

variable {date : Date}

/-- The date of a timestamp is as long as it was written. -/
theorem dateLength?_spelled (hyphens : Bool) (date : Date) (separator : Char) (rest : List Char) :
    dateLength? (date.spelled hyphens ++ separator :: rest) = some (date.spelled hyphens).length := by
  obtain ⟨c, d, hmonth, hc, -⟩ := exists_lastDigits_two date.month
  have hyear : ∃ y₁ y₂ y₃ y₄, lastDigits 4 date.year = [y₁, y₂, y₃, y₄] := ⟨_, _, _, _, rfl⟩
  have hday : ∃ d₁ d₂, lastDigits 2 date.day = [d₁, d₂] := ⟨_, _, rfl⟩
  obtain ⟨y₁, y₂, y₃, y₄, hyear⟩ := hyear
  obtain ⟨d₁, d₂, hday⟩ := hday
  have hhyphen : c ≠ '-' := ne_of_isDigit hc rfl
  have hweek : c ≠ 'W' := ne_of_isDigit hc rfl
  cases hyphens <;>
    simp [dateLength?, Date.spelled, joined, hyear, hmonth, hday, hhyphen, hweek]

/-- A date is read as it was written. -/
theorem readDate?_spelled (hdate : date.InCalendar) (hyphens : Bool) (rest : List Char) :
    readDate? (date.spelled hyphens).length (date.spelled hyphens ++ rest) = some date := by
  obtain ⟨hyear, hmonth, hday⟩ := hdate.widths
  obtain ⟨c, d, hm, hc, -⟩ := exists_lastDigits_two date.month
  have hhyphen : c ≠ '-' := ne_of_isDigit hc rfl
  have hweek : c ≠ 'W' := ne_of_isDigit hc rfl
  have hreadMonth : ∀ more, takeNumber? 2 (c :: d :: more) = some (date.month, more) :=
    fun more => by rw [← takeNumber?_lastDigits hmonth more, hm]; rfl
  have hvalid : date? date.year date.month date.day = some date :=
    date?_eq_some_iff.mpr ⟨rfl, hdate⟩
  have hlength := length_spelled hyphens date
  rw [readDate?, hlength]
  cases hyphens <;>
    simp [Date.spelled, joined, hm, hhyphen, hweek, hreadMonth, takeNumber?_lastDigits hyear,
      takeNumber?_lastDigits hday, skipHyphen?, length_lastDigits, hvalid] <;>
    omega

theorem ne_zulu_of_mem_spelled (hyphens : Bool) (date : Date) :
    ∀ c ∈ date.spelled hyphens, c ≠ 'Z' := by
  have hnumber : ∀ width n, ∀ c ∈ lastDigits width n, c ≠ 'Z' :=
    fun width n c hc => ne_of_isDigit (isDigit_lastDigits width n c hc) rfl
  have hhyphen : ∀ c ∈ joined hyphens, c ≠ 'Z' := by
    cases hyphens
    · exact nofun
    · exact List.forall_mem_singleton.mpr (by decide)
  simp only [Date.spelled, List.forall_mem_append]
  exact ⟨hnumber _ _, hhyphen, hnumber _ _, hhyphen, hnumber _ _⟩

/-! ## Timestamps -/

/-- A date and a time of day with an offset, as ISO 8601 writes them: the date, a character, the clock
and the offset. -/
inductive Timestamp.Written (timestamp : Timestamp) : List Char → Prop where
  | mk (hyphens : Bool) {colons : Bool} {separator : Char} {offset : Int}
    {clockText offsetText : List Char} (hseparator : separator ≠ 'Z')
    (hclock : timestamp.clock.Written colons clockText)
    (hoffset : timestamp.offset = some offset) (hwritten : OffsetWritten offset offsetText) :
    Written timestamp (timestamp.date.spelled hyphens ++ separator :: (clockText ++ offsetText))

/-- A date of the calendar with a time of day and an offset smaller than a day. -/
structure Timestamp.Zoned (timestamp : Timestamp) (offset : Int) : Prop where
  date : timestamp.date.InCalendar
  time : timestamp.clock.isTimeOfDay = true
  microsecond : timestamp.clock.microsecond < 1000000
  offset_eq : timestamp.offset = some offset
  offset_lt : offset.natAbs < dayLength

variable {timestamp : Timestamp} {offset : Int} {text : List Char}

theorem Timestamp.Written.toList (h : timestamp.Written text) {shown : String}
    (heq : shown = String.ofList text) : timestamp.Written shown.toList := by
  rw [heq, String.toList_ofList]
  exact h

theorem Timestamp.Zoned.exists_written (h : timestamp.Zoned offset) :
    ∃ text : String, timestamp.Written text.toList := by
  have htime := h.time
  simp only [Clock.isTimeOfDay, Bool.and_eq_true, decide_eq_true_eq] at htime
  obtain ⟨clockText, hclock⟩ := @exists_written_clock timestamp.clock (by omega) (by omega) (by omega)
    h.microsecond
  obtain ⟨offsetText, hoffset⟩ := exists_offsetWritten h.offset_lt
  have hwritten := Timestamp.Written.mk true (show 'T' ≠ 'Z' by decide) hclock h.offset_eq hoffset
  exact ⟨_, hwritten.toList rfl⟩

/-- A timestamp is read as it was written, but for an offset of less than a second. -/
theorem Timestamp.Zoned.read?_written (hzoned : timestamp.Zoned offset)
    (h : timestamp.Written text) :
    Timestamp.read? (spellZulu text) =
      some ⟨timestamp.date, timestamp.clock, some (keptOffset offset)⟩ := by
  obtain ⟨hyphens, hseparator, hclock, hoffset, hwritten⟩ := h
  obtain rfl := Option.some.inj (hzoned.offset_eq.symm.trans hoffset)
  obtain ⟨sign, rest, hspelled, hsign, hread⟩ := hwritten.read hzoned.offset_lt
  rename_i separator clockText offsetText
  have hplain : spellZulu (timestamp.date.spelled hyphens ++
      separator :: (clockText ++ offsetText)) =
        timestamp.date.spelled hyphens ++ separator :: (clockText ++ sign :: rest) := by
    rw [spellZulu_append, spellZulu_of_plain (ne_zulu_of_mem_spelled hyphens timestamp.date),
      ← List.singleton_append, spellZulu_append, spellZulu_append, hspelled,
      spellZulu_of_plain (List.forall_mem_singleton.mpr hseparator),
      spellZulu_of_plain fun c hc => (hclock.isUnsigned c hc).2, List.singleton_append]
  have hrest : (timestamp.date.spelled hyphens ++ separator :: (clockText ++ sign :: rest)).drop
      (timestamp.date.spelled hyphens).length = separator :: (clockText ++ sign :: rest) :=
    List.drop_left
  have hnone : ∀ c ∈ clockText, (!isSign c) = true := fun c hc => by
    rw [(hclock.isUnsigned c hc).1]
    rfl
  have hstop : ∀ c ∈ (sign :: rest).head?, (!isSign c) = false := fun c hc => by
    obtain rfl := Option.some.inj hc
    rw [hsign]
    rfl
  rw [hplain, Timestamp.read?, dateLength?_spelled]
  simp only [Option.bind_eq_bind, Option.bind_some, readDate?_spelled hzoned.date, hrest, readTime?,
    Number.takeWhile_of_stop hnone hstop, Number.dropWhile_of_stop hnone hstop, hclock.readClock?,
    hzoned.time, Bool.not_true, Bool.false_eq_true, if_false, hread]
  rfl

end ReleasePrompts.Release
