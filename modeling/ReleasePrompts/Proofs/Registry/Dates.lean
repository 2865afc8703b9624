import Mathlib
import ReleasePrompts.Proofs.Registry.Releases
import ReleasePrompts.Proofs.Release.Timestamp

/-!
# Dates that stop a list

The date of a release is the one in universal time that holds the instant of its timestamp. A
timestamp that an offset takes out of the calendar is an error, and one such timestamp is enough for
no version to be listed (`releases_listed_iff`).
-/

namespace ReleasePrompts.Registry

open Document Release

/-- A list is read item by item, or ends with the error of one of its items. -/
theorem mapM_cases {α β ε : Type} (f : α → Except ε β) (xs : List α) :
    (∃ ys, xs.mapM f = .ok ys ∧ (∀ x ∈ xs, ∃ y ∈ ys, f x = .ok y) ∧
      ∀ y ∈ ys, ∃ x ∈ xs, f x = .ok y) ∨
      ∃ x ∈ xs, ∃ e, f x = .error e ∧ xs.mapM f = .error e := by
  induction xs with
  | nil => exact .inl ⟨[], rfl, nofun, nofun⟩
  | cons x xs ih =>
    rw [List.mapM_cons]
    cases hx : f x with
    | error e => exact .inr ⟨x, List.mem_cons_self, e, hx, rfl⟩
    | ok y =>
      obtain ⟨ys, hys, hread, hfrom⟩ | ⟨x', hm, e, he, hxs⟩ := ih
      · refine .inl ⟨y :: ys, by rw [hys]; rfl,
          List.forall_mem_cons.mpr ⟨⟨y, List.mem_cons_self, hx⟩, fun x' hm => ?_⟩,
          List.forall_mem_cons.mpr ⟨⟨x, List.mem_cons_self, hx⟩, fun y' hm => ?_⟩⟩
        · obtain ⟨y', hm', hy⟩ := hread x' hm
          exact ⟨y', List.mem_cons_of_mem _ hm', hy⟩
        · obtain ⟨x', hm', hy⟩ := hfrom y' hm
          exact ⟨x', List.mem_cons_of_mem _ hm', hy⟩
      · exact .inr ⟨x', List.mem_cons_of_mem _ hm, e, he, by rw [hxs]; rfl⟩

variable {metadata : Metadata} {version : String}

/-- A version whose timestamp leaves the calendar. -/
def Metadata.IsUndatable (metadata : Metadata) (version : String) : Prop :=
  ∃ time, Pairs.get? metadata.times version = some time ∧ publishDate time = .error {}

theorem listing_of_undatable (h : metadata.IsUndatable version) :
    metadata.listing version = .error .outOfCalendar := by
  obtain ⟨time, htime, hdate⟩ := h
  simp only [Metadata.listing, htime, hdate]

theorem exists_listing_of_not_undatable (h : ¬metadata.IsUndatable version) :
    ∃ listing, metadata.listing version = .ok listing := by
  cases htime : Pairs.get? metadata.times version with
  | none => exact ⟨⟨version, none⟩, by simp only [Metadata.listing, htime]⟩
  | some time =>
    cases hdate : publishDate time with
    | ok date => exact ⟨⟨version, date⟩, by simp only [Metadata.listing, htime, hdate]⟩
    | error fault => exact absurd ⟨time, htime, hdate⟩ h

/-- The versions are listed, unless one of them cannot be dated. -/
theorem releases_cases (hread : ∀ v ∈ Pairs.keys metadata.tarballs, IsReadable v) :
    ((∃ listings, metadata.releases = .ok listings) ∧
      ∀ v ∈ Pairs.keys metadata.tarballs, ¬metadata.IsUndatable v) ∨
    metadata.releases = .error .outOfCalendar ∧
      ∃ v ∈ Pairs.keys metadata.tarballs, metadata.IsUndatable v := by
  by_cases h : ∃ v ∈ Pairs.keys metadata.tarballs, metadata.IsUndatable v
  · refine .inr ⟨?_, h⟩
    obtain ⟨listings, -, hall, -⟩ | ⟨v, -, fault, hfault, hm⟩ :=
      mapM_cases metadata.listing (Pairs.keys metadata.tarballs)
    · -- the version that cannot be dated would have been listed
      obtain ⟨v, hv, hundatable⟩ := h
      obtain ⟨listing, -, hlisting⟩ := hall v hv
      rw [listing_of_undatable hundatable] at hlisting
      cases hlisting
    · by_cases hundatable : metadata.IsUndatable v
      · rw [listing_of_undatable hundatable] at hfault
        cases hfault
        rw [Metadata.releases, hm]
        rfl
      · obtain ⟨listing, hlisting⟩ := exists_listing_of_not_undatable hundatable
        rw [hlisting] at hfault
        cases hfault
  · have hnone : ∀ v ∈ Pairs.keys metadata.tarballs, ¬metadata.IsUndatable v :=
      fun v hv hundatable => h ⟨v, hv, hundatable⟩
    obtain ⟨listings, hl, -⟩ := releases_chain hread fun v hv =>
      exists_listing_of_not_undatable (hnone v hv)
    exact .inl ⟨⟨listings, hl⟩, hnone⟩

/-- A text that is a timestamp has the date of the calendar that holds its instant, written with four
digits for the year and two for the month and for the day, unless the timestamp leaves the calendar.
Versions whose numbers are read are listed just if the timestamp of none of them leaves it. -/
theorem releases_listed_iff (text : String) (metadata : Metadata) :
    ((publishDate text = .ok none ↔ Timestamp.read? (spellZulu text.toList) = none) ∧
      (∀ shown, publishDate text = .ok (some shown) ↔
        ∃ timestamp, Timestamp.read? (spellZulu text.toList) = some timestamp ∧
          ∃ date : Date, date.InCalendar ∧ date.Holds timestamp.instant ∧
            shown = String.ofList (lastDigits 4 date.year ++ '-' :: lastDigits 2 date.month ++
              '-' :: lastDigits 2 date.day)) ∧
      (publishDate text = .error {} ↔
        ∃ timestamp, Timestamp.read? (spellZulu text.toList) = some timestamp ∧
          timestamp.LeavesCalendar)) ∧
    (∀ v, Pairs.get? metadata.times v = none → metadata.listing v = .ok ⟨v, none⟩) ∧
    ((∀ v ∈ Pairs.keys metadata.tarballs, IsReadable v) →
      ((∃ listings, metadata.releases = .ok listings) ↔
        ∀ v ∈ Pairs.keys metadata.tarballs, ∀ time, Pairs.get? metadata.times v = some time →
          publishDate time ≠ .error {}) ∧
      (metadata.releases = .error .outOfCalendar ↔
        ∃ v ∈ Pairs.keys metadata.tarballs, ∃ time, Pairs.get? metadata.times v = some time ∧
          publishDate time = .error {})) := by
  refine ⟨⟨publishDate_eq_none_iff, fun shown => ?_, publishDate_eq_error_iff⟩,
    fun v hv => by simp only [Metadata.listing, hv], fun hread => ?_⟩
  · rw [publishDate_eq_some_iff]
    refine exists_congr fun timestamp => and_congr_right fun _ => exists_congr fun date =>
      and_congr_right fun hdate => ?_
    rw [hdate.text_eq]
  · obtain ⟨⟨listings, hl⟩, hnone⟩ | ⟨herror, v, hv, time, htime, hdate⟩ := releases_cases hread
    · refine ⟨⟨fun _ v hv time htime hdate => hnone v hv ⟨time, htime, hdate⟩, fun _ => ⟨listings, hl⟩⟩,
        fun herror => ?_, ?_⟩
      · rw [hl] at herror
        cases herror
      · rintro ⟨v, hv, hundatable⟩
        exact absurd hundatable (hnone v hv)
    · refine ⟨⟨?_, fun hall => absurd hdate (hall v hv time htime)⟩,
        fun _ => ⟨v, hv, time, htime, hdate⟩, fun _ => herror⟩
      rintro ⟨listings, hl⟩
      rw [herror] at hl
      cases hl

/-- Metadata of versions with the times at which they were published. -/
def timed (times : List (String × String)) : Metadata where
  name := .null
  tarballs := times.map fun (version, _) => (version, .string version)
  times := times

/-- An hour before midnight five hours west of universal time is the next day there. -/
theorem releases_listed_iff_before_midnight :
    publishDate "2025-02-28T23:30:00-05:00" = .ok (some "2025-03-01") ∧
    (∀ v ∈ ["1.0.0", "1.0.1"], IsReadable v) ∧
    ∃ listings, (timed [("1.0.0", "2025-02-28T23:30:00-05:00"), ("1.0.1", "yesterday")]).releases =
      .ok listings := by
  let metadata := timed [("1.0.0", "2025-02-28T23:30:00-05:00"), ("1.0.1", "yesterday")]
  obtain ⟨⟨-, hdated, -⟩, -⟩ := releases_listed_iff "2025-02-28T23:30:00-05:00" metadata
  obtain ⟨⟨hundated, -⟩, -, hlist⟩ := releases_listed_iff "yesterday" metadata
  have hread : ∀ v ∈ ["1.0.0", "1.0.1"], IsReadable v := by decide +kernel
  have hfirst : publishDate "2025-02-28T23:30:00-05:00" = .ok (some "2025-03-01") :=
    (hdated _).mpr ⟨⟨⟨2025, 2, 28⟩, ⟨23, 30, 0, 0⟩, some (-18000000000)⟩, by decide +kernel,
      ⟨2025, 3, 1⟩, ((@date?_eq_some_iff 2025 3 1 _).mp rfl).2, by decide +kernel, by decide +kernel⟩
  have hsecond : publishDate "yesterday" = .ok none := hundated.mpr (by decide +kernel)
  refine ⟨hfirst, hread, (hlist hread).1.mpr fun v hv time htime hdate => ?_⟩
  rcases List.mem_cons.mp hv with rfl | hv
  · cases htime
    rw [hfirst] at hdate
    cases hdate
  · obtain rfl := List.mem_singleton.mp hv
    cases htime
    rw [hsecond] at hdate
    cases hdate

/-- The first midnight of the calendar an hour east of universal time is before the calendar there:
the text has no date, and the version is not listed. -/
theorem publishDate_before_calendar :
    publishDate "0001-01-01T00:00:00+01:00" = .error {} ∧
    (∀ v ∈ ["1.0.0"], IsReadable v) ∧
    ∃ metadata, Metadata.ofDocument? (.object [
        ("versions", .object [("1.0.0", .object [("dist", .object [("tarball", .string "t")])])]),
        ("time", .object [("1.0.0", .string "0001-01-01T00:00:00+01:00")])]) "p" = some metadata ∧
      Pairs.keys metadata.tarballs = ["1.0.0"] ∧ metadata.releases = .error .outOfCalendar :=
  ⟨by decide +kernel, by decide +kernel, _, rfl, rfl, by decide +kernel⟩

end ReleasePrompts.Registry
