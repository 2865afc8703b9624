import Mathlib
import ReleasePrompts.Proofs.Registry.Dates
import ReleasePrompts.Proofs.Release.Stability
import ReleasePrompts.Proofs.Release.Triple
import ReleasePrompts.Service.Request

/-!
# The latest of plain versions

Metadata whose versions are plain lists them in the order of their numbers, and those of the same
numbers in the order of the document. The last two are those that a service compares when it is not
told which, so no listed version has greater numbers than the second of them
(`releases_numeric`).
-/

namespace ReleasePrompts.Registry

open Document Release

variable {metadata : Metadata} {numbers : String → Numbers}

theorem answers_comesBefore_of_spells (numbers : String → Numbers) :
    Answers comesBefore (fun a b => decide (numbers a.version < numbers b.version))
      fun listing => Spells listing.version (numbers listing.version) where
  answer a b ha hb := by
    rw [comesBefore, compareVersions_eq_order ha.isReadable hb.isReadable]
    have horder := order_eq_lt_iff ha hb
    cases h : order a.version b.version <;> simp_all
  asymm a b h := by
    have hlt : numbers a.version < numbers b.version := of_decide_eq_true h
    exact decide_eq_false hlt.asymm

theorem date_of_listing {version : String} {listing : Listing}
    (h : metadata.listing version = .ok listing) :
    match Pairs.get? metadata.times version with
    | none => listing.date = none
    | some time => publishDate time = .ok listing.date := by
  cases htime : Pairs.get? metadata.times version with
  | none =>
    simp only [Metadata.listing, htime] at h
    cases h
    rfl
  | some time =>
    cases hdate : publishDate time with
    | ok date =>
      simp only [Metadata.listing, htime, hdate] at h
      cases h
      exact hdate
    | error fault =>
      simp only [Metadata.listing, htime, hdate] at h
      cases h

/-- Versions that can be dated are listed in the order in which they are given, each with its own
date. -/
theorem exists_mapM_listing {versions : List String}
    (h : ∀ v ∈ versions, ¬metadata.IsUndatable v) :
    ∃ listings, versions.mapM metadata.listing = .ok listings ∧
      listings.map Listing.version = versions ∧
      ∀ listing ∈ listings, metadata.listing listing.version = .ok listing := by
  obtain ⟨listings, hm, hversions⟩ :=
    mapM_listing fun v hv => exists_listing_of_not_undatable (h v hv)
  refine ⟨listings, hm, hversions, fun listing hl => ?_⟩
  obtain ⟨others, hothers, -, hfrom⟩ | ⟨v, -, fault, -, hfault⟩ :=
    mapM_cases metadata.listing versions
  · obtain rfl : listings = others := Except.ok.inj (hm.symm.trans hothers)
    obtain ⟨v, -, hv⟩ := hfrom listing hl
    rwa [version_of_listing hv]
  · rw [hm] at hfault
    cases hfault

/-- Plain versions that can be dated are listed in the order of their numbers. -/
theorem releases_of_spells (hplain : ∀ v ∈ Pairs.keys metadata.tarballs, Spells v (numbers v))
    (hdates : ∀ v ∈ Pairs.keys metadata.tarballs, ¬metadata.IsUndatable v) :
    ∃ listings, metadata.releases = .ok listings ∧
      (listings.map Listing.version).Perm (Pairs.keys metadata.tarballs) ∧
      (∀ listing ∈ listings, metadata.listing listing.version = .ok listing) ∧
      ((listings.map Listing.version).Pairwise fun a b => numbers a ≤ numbers b) ∧
      SameByKey numbers (listings.map Listing.version) (Pairs.keys metadata.tarballs) := by
  obtain ⟨listings, hm, hversions, hlisting⟩ := exists_mapM_listing hdates
  obtain ⟨result, hr, hperm, hpairwise, hsame⟩ := sortBy_stable
    (answers_comesBefore_of_spells numbers) fun listing hl =>
      hplain _ (hversions ▸ List.mem_map_of_mem (f := Listing.version) hl)
  refine ⟨result, ?_, hversions ▸ hperm.map Listing.version,
    fun listing hl => hlisting listing (hperm.mem_iff.mp hl),
    List.pairwise_map.mpr hpairwise, fun n => ?_⟩
  · rw [Metadata.releases, hm]
    exact hr
  · rw [← hversions, List.filter_map, List.filter_map]
    exact congrArg (List.map Listing.version) (hsame n)

theorem lastTwo?_append (earlier : List Listing) (second latest : Listing) :
    lastTwo? (earlier ++ [second, latest]) = some (second.version, latest.version) := by
  simp [lastTwo?]

theorem exists_append_pair {α : Type} {xs : List α} (h : 2 ≤ xs.length) :
    ∃ earlier second latest, xs = earlier ++ [second, latest] := by
  rcases hr : xs.reverse with _ | ⟨latest, _ | ⟨second, earlier⟩⟩
  · simp [List.reverse_eq_nil_iff.mp hr] at h
  · have := congrArg List.length hr
    simp at this
    omega
  · exact ⟨earlier.reverse, second, latest, by simpa using congrArg List.reverse hr⟩

end ReleasePrompts.Registry

namespace ReleasePrompts.Service

open Registry Release

/-- The last two listed versions are the ones to compare. -/
theorem serveOne_defaultPair {config : Config} {world : World} {state : State} {metadata : Metadata}
    {earlier : List Listing} {second latest : Listing}
    (hm : (state.getMetadata config world false).1 = .ok metadata)
    (hl : metadata.releases = .ok (earlier ++ [second, latest])) :
    (serveOne config world state .defaultPair).1 = .ok (.pair second.version latest.version) := by
  simp only [serveOne, begin, State.latestPair, State.listings, hm, hl, Except.mapError,
    lastTwo?_append, joinBoth, answer, Except.map]

/-- Metadata of plain versions whose timestamps have dates, or none, lists each version once, with
the date of its own timestamp, in the order of their numbers, and versions of the same numbers in the
order of the document. Where there are two or more, the last two are the ones that a service compares
when it is not told which, and no version has greater numbers than the last. -/
theorem releases_numeric {metadata : Metadata} {numbers : String → Numbers}
    (hplain : ∀ v ∈ Pairs.keys metadata.tarballs, Spells v (numbers v))
    (hdates : ∀ v ∈ Pairs.keys metadata.tarballs, ∀ time,
      Pairs.get? metadata.times v = some time → publishDate time ≠ .error {}) :
    ∃ listings, metadata.releases = .ok listings ∧
      (listings.map Listing.version).Perm (Pairs.keys metadata.tarballs) ∧
      (∀ listing ∈ listings,
        match Pairs.get? metadata.times listing.version with
        | none => listing.date = none
        | some time => publishDate time = .ok listing.date) ∧
      ((listings.map Listing.version).Pairwise fun a b => numbers a ≤ numbers b) ∧
      (∀ n, (listings.map Listing.version).filter (numbers · = n) =
        (Pairs.keys metadata.tarballs).filter (numbers · = n)) ∧
      (2 ≤ (Pairs.keys metadata.tarballs).length → ∃ earlier second latest,
        listings = earlier ++ [second, latest] ∧
        (∀ listing ∈ listings, numbers listing.version ≤ numbers latest.version) ∧
        ∀ config world state, (state.getMetadata config world false).1 = .ok metadata →
          (serveOne config world state .defaultPair).1 =
            .ok (.pair second.version latest.version)) := by
  obtain ⟨listings, hl, hperm, hlisting, hpairwise, hsame⟩ := releases_of_spells hplain
    fun v hv ⟨time, htime, hdate⟩ => hdates v hv time htime hdate
  refine ⟨listings, hl, hperm, fun listing hmem => date_of_listing (hlisting listing hmem),
    hpairwise, hsame, fun hlength => ?_⟩
  have hlength : 2 ≤ listings.length := by
    rw [← List.length_map (f := Listing.version), hperm.length_eq]
    exact hlength
  obtain ⟨earlier, second, latest, rfl⟩ := exists_append_pair hlength
  refine ⟨earlier, second, latest, rfl, ?_, fun config world state hm => serveOne_defaultPair hm hl⟩
  have hlast : earlier ++ [second, latest] = (earlier ++ [second]) ++ [latest] := by simp
  rw [hlast, List.map_append, List.pairwise_append] at hpairwise
  rw [hlast]
  intro listing hmem
  rcases List.mem_append.mp hmem with hmem | hmem
  · exact hpairwise.2.2 _ (List.mem_map_of_mem hmem) _ (by simp)
  · rw [List.mem_singleton.mp hmem]

/-- The numbers of `1.0.10`, and of `1.0.2` and `1.00.2`. -/
def tenOrTwo (version : String) : Numbers :=
  if version = "1.0.10" then ⟨1, 0, 10⟩ else ⟨1, 0, 2⟩

/-- Ten is listed behind two, and of two versions of the same numbers the one that the document names
first. -/
theorem releases_numeric_ten_and_two :
    let metadata := timed
      [("1.0.10", "2025-02-28T23:30:00-05:00"), ("1.0.2", "yesterday"), ("1.00.2", "2025-02-01")]
    let state : State := { metadata := some metadata, results := .unbounded [] }
    (∀ v ∈ ["1.0.10", "1.0.2", "1.00.2"], Spells v (tenOrTwo v)) ∧
    ∃ listings, metadata.releases = .ok listings ∧
      ((listings.map Listing.version).Pairwise fun a b => tenOrTwo a ≤ tenOrTwo b) ∧
      (listings.map Listing.version).filter (tenOrTwo · = ⟨1, 0, 2⟩) = ["1.0.2", "1.00.2"] ∧
      ∃ earlier second latest, listings = earlier ++ [second, latest] ∧ ∀ world,
        (serveOne { client := ⟨"p", none⟩, programFiles := [] } world state .defaultPair).1 =
          .ok (.pair second.version latest.version) := by
  intro metadata state
  have hplain : ∀ v ∈ ["1.0.10", "1.0.2", "1.00.2"], Spells v (tenOrTwo v) := by
    simp only [List.forall_mem_cons, List.not_mem_nil, false_imp_iff, implies_true, and_true]
    exact ⟨⟨['1'], ['0'], ['1', '0'], [], by decide +kernel⟩,
      ⟨['1'], ['0'], ['2'], [], by decide +kernel⟩,
      ⟨['1'], ['0', '0'], ['2'], [], by decide +kernel⟩⟩
  have hdates : ∀ v ∈ Pairs.keys metadata.tarballs, ∀ time,
      Pairs.get? metadata.times v = some time → publishDate time ≠ .error {} := by
    simp only [metadata, timed, Pairs.keys, List.map_cons, List.map_nil, List.forall_mem_cons,
      List.not_mem_nil, false_imp_iff, implies_true, and_true]
    refine ⟨?_, ?_, ?_⟩ <;> rintro _ ⟨⟩ <;> decide +kernel
  obtain ⟨listings, hl, -, -, hpairwise, hsame, hpair⟩ :=
    @releases_numeric metadata tenOrTwo hplain hdates
  obtain ⟨earlier, second, latest, hlast, -, hserve⟩ := hpair (by decide)
  refine ⟨hplain, listings, hl, hpairwise, ?_, earlier, second, latest, hlast,
    fun world => hserve _ world state rfl⟩
  rw [hsame]
  decide +kernel

end ReleasePrompts.Service
