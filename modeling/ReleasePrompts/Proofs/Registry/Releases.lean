import Mathlib
import ReleasePrompts.Proofs.Release.Order
import ReleasePrompts.Proofs.Release.Sorting
import ReleasePrompts.Registry.Metadata

/-!
# The list of releases is in order

`Metadata.releases` returns every version once, and none of them compares less than the one before
it. Whether none compares less than any earlier one depends on the versions: the comparison is
transitive on them just if they are consistent (`releases_inOrder`).
-/

namespace ReleasePrompts.Registry

open Document Release

/-- Whether a release comes before another, where all numbers are read. -/
def precedes (a b : Listing) : Bool := order a.version b.version == .lt

theorem answers_comesBefore :
    Answers comesBefore precedes fun listing => IsReadable listing.version where
  answer a b ha hb := by rw [comesBefore, compareVersions_eq_order ha hb, precedes]
  asymm a b h := by
    rw [precedes, beq_iff_eq] at h
    rw [precedes, order_swap, h]
    rfl

theorem atMost_of_not_precedes {a b : Listing} (ha : IsReadable a.version)
    (hb : IsReadable b.version) (h : precedes b a = false) : AtMost a.version b.version := by
  rw [atMost_iff ha hb, order_swap]
  rw [precedes, beq_eq_false_iff_ne] at h
  cases hab : order b.version a.version <;> simp_all

theorem version_of_listing {metadata : Metadata} {version : String} {listing : Listing}
    (h : metadata.listing version = .ok listing) : listing.version = version := by
  rw [Metadata.listing] at h
  split at h
  · cases h
    rfl
  · split at h
    · cases h
      rfl
    · cases h

theorem mapM_listing {metadata : Metadata} {versions : List String}
    (h : ∀ v ∈ versions, ∃ listing, metadata.listing v = .ok listing) :
    ∃ listings, versions.mapM metadata.listing = .ok listings ∧
      listings.map Listing.version = versions := by
  induction versions with
  | nil => exact ⟨[], rfl, rfl⟩
  | cons v versions ih =>
    obtain ⟨⟨listing, hl⟩, hv⟩ := List.forall_mem_cons.mp h
    obtain ⟨listings, hls, hmap⟩ := ih hv
    refine ⟨listing :: listings, ?_, ?_⟩
    · rw [List.mapM_cons, hl, hls]
      rfl
    · rw [List.map_cons, hmap, version_of_listing hl]

/-- The releases are the versions of the metadata, each at most the next one. -/
theorem releases_chain {metadata : Metadata}
    (hread : ∀ v ∈ Pairs.keys metadata.tarballs, IsReadable v)
    (hdates : ∀ v ∈ Pairs.keys metadata.tarballs, ∃ listing, metadata.listing v = .ok listing) :
    ∃ listings, metadata.releases = .ok listings ∧
      (listings.map Listing.version).Perm (Pairs.keys metadata.tarballs) ∧
      (listings.map Listing.version).IsChain AtMost := by
  obtain ⟨listings, hm, hversions⟩ := mapM_listing hdates
  have hall : ∀ listing ∈ listings, IsReadable listing.version := fun listing hl =>
    hread _ (hversions ▸ List.mem_map_of_mem hl)
  obtain ⟨result, hr, hperm, hchain⟩ := sortBy_chain answers_comesBefore hall
  refine ⟨result, ?_, hversions ▸ hperm.map Listing.version, ?_⟩
  · rw [Metadata.releases, hm]
    exact hr
  · rw [List.isChain_map]
    refine hchain.imp_of_mem_imp fun a b ha hb hab => ?_
    exact atMost_of_not_precedes (hall a (hperm.mem_iff.mp ha)) (hall b (hperm.mem_iff.mp hb)) hab

/-! ## Versions that are not consistent -/

/-- Metadata of versions without dates. -/
def undated (versions : List String) : Metadata where
  name := .null
  tarballs := versions.map fun version => (version, .string version)
  times := []

theorem keys_undated (versions : List String) :
    Pairs.keys (undated versions).tarballs = versions := by
  simp [undated, Pairs.keys, Function.comp_def]

theorem listing_undated (versions : List String) (v : String) :
    (undated versions).listing v = .ok ⟨v, none⟩ := rfl

theorem releases_undated (versions : List String) :
    (undated versions).releases = sortBy comesBefore (versions.map (⟨·, none⟩)) := by
  have hm : versions.mapM (undated versions).listing = .ok (versions.map (⟨·, none⟩)) := by
    simp only [funext (listing_undated versions)]
    exact List.mapM_pure
  rw [Metadata.releases, keys_undated, hm]
  rfl

theorem precedes_eq_false {a b : Listing} (ha : IsReadable a.version) (hb : IsReadable b.version)
    (h : AtMost b.version a.version) : precedes a b = false := by
  rw [atMost_iff hb ha] at h
  rw [precedes, order_swap b.version]
  cases horder : order b.version a.version <;> simp_all

/-- Versions of which three go round are listed out of order, if these come first. -/
theorem not_pairwise_of_cycle {p q r : String} {versions : List String}
    (hread : ∀ v ∈ q :: p :: r :: versions, IsReadable v) (hqp : AtMost q p) (hpr : AtMost p r)
    (hqr : ¬AtMost q r) {listings : List Listing}
    (h : (undated (q :: p :: r :: versions)).releases = .ok listings) :
    ¬(listings.map Listing.version).Pairwise AtMost := by
  intro hpairwise
  have hq := hread q (by simp)
  have hp := hread p (by simp)
  have hr := hread r (by simp)
  rw [releases_undated, List.map_cons, List.map_cons, List.map_cons] at h
  have hall : ∀ listing ∈ (⟨q, none⟩ : Listing) :: ⟨p, none⟩ :: ⟨r, none⟩ :: versions.map (⟨·, none⟩),
      IsReadable listing.version := by simpa using hread
  have hsub := sublist_sortBy answers_comesBefore hall
    (@precedes_eq_false ⟨p, none⟩ ⟨q, none⟩ hp hq hqp)
    (@precedes_eq_false ⟨r, none⟩ ⟨p, none⟩ hr hp hpr) h
  have hthree := hpairwise.sublist (hsub.map Listing.version)
  exact hqr ((List.pairwise_cons.mp hthree).1 r (by simp))

/-- Where every order of the versions is listed in order, they are consistent. -/
theorem consistent_of_pairwise {versions : List String} (hread : ∀ v ∈ versions, IsReadable v)
    (h : ∀ others : List String, others.Perm versions → ∀ listings,
      (undated others).releases = .ok listings → (listings.map Listing.version).Pairwise AtMost) :
    Consistent versions := by
  rw [← atMost_trans_iff hread]
  intro a ha b hb c hc hab hbc
  by_contra hac
  -- no two of the three are the same, since each is at most itself
  have refl : ∀ v ∈ versions, AtMost v v := fun v hv => by
    rw [atMost_iff (hread v hv) (hread v hv)]
    have := order_swap v v
    cases horder : order v v <;> simp_all
  have hne₁ : b ≠ a := fun e => hac (e ▸ hbc)
  have hne₂ : c ≠ b := fun e => hac (e ▸ hab)
  have hne₃ : c ≠ a := fun e => hac (e ▸ refl a ha)
  have hb' : b ∈ versions.erase a := (List.mem_erase_of_ne hne₁).mpr hb
  have hc' : c ∈ (versions.erase a).erase b :=
    (List.mem_erase_of_ne hne₂).mpr ((List.mem_erase_of_ne hne₃).mpr hc)
  have hperm : (a :: b :: c :: ((versions.erase a).erase b).erase c).Perm versions :=
    (((List.perm_cons_erase hc').symm.cons b).trans (List.perm_cons_erase hb').symm |>.cons a).trans
      (List.perm_cons_erase ha).symm
  have hread' := fun v hv => hread v (hperm.mem_iff.mp hv)
  obtain ⟨listings, hl, -⟩ := releases_chain (by rwa [keys_undated])
    fun v _ => ⟨_, listing_undated (a :: b :: c :: ((versions.erase a).erase b).erase c) v⟩
  exact not_pairwise_of_cycle hread' hab hbc hac hl (h _ hperm listings hl)

/-- The comparison of versions says the opposite the other way round, and it is transitive on some
versions just if they are consistent. Every version is listed once and is at most the next one; and
it is at most every later one, in whatever order the versions are given, just if they are
consistent. -/
theorem releases_inOrder {versions : List String} (hread : ∀ v ∈ versions, IsReadable v) :
    (∀ a ∈ versions, ∀ b ∈ versions,
      ∃ order, compareVersions a b = .ok order ∧ compareVersions b a = .ok order.swap) ∧
    ((∀ a ∈ versions, ∀ b ∈ versions, ∀ c ∈ versions, AtMost a b → AtMost b c → AtMost a c) ↔
      Consistent versions) ∧
    (∀ metadata : Metadata, (Pairs.keys metadata.tarballs).Perm versions →
      (∀ v ∈ versions, ∃ listing, metadata.listing v = .ok listing) →
      ∃ listings, metadata.releases = .ok listings ∧
        (listings.map Listing.version).Perm versions ∧
        (listings.map Listing.version).IsChain AtMost) ∧
    ((∀ metadata : Metadata, (Pairs.keys metadata.tarballs).Perm versions →
        (∀ v ∈ versions, ∃ listing, metadata.listing v = .ok listing) →
        ∃ listings, metadata.releases = .ok listings ∧
          (listings.map Listing.version).Pairwise AtMost) ↔
      Consistent versions) := by
  have hchain : ∀ metadata : Metadata, (Pairs.keys metadata.tarballs).Perm versions →
      (∀ v ∈ versions, ∃ listing, metadata.listing v = .ok listing) →
      ∃ listings, metadata.releases = .ok listings ∧
        (listings.map Listing.version).Perm versions ∧
        (listings.map Listing.version).IsChain AtMost := by
    intro metadata hperm hdates
    obtain ⟨listings, hl, hlisted, hnext⟩ := releases_chain
      (fun v hv => hread v (hperm.mem_iff.mp hv)) fun v hv => hdates v (hperm.mem_iff.mp hv)
    exact ⟨listings, hl, hlisted.trans hperm, hnext⟩
  refine ⟨fun a ha b hb => compareVersions_swap (hread a ha) (hread b hb), atMost_trans_iff hread,
    hchain, fun h => ?_, fun hconsistent metadata hperm hdates => ?_⟩
  · refine consistent_of_pairwise hread fun others hperm listings hl => ?_
    obtain ⟨result, hr, hpairwise⟩ := h (undated others) (by rwa [keys_undated])
      fun v _ => ⟨_, listing_undated others v⟩
    exact Except.ok.inj (hr.symm.trans hl) ▸ hpairwise
  · obtain ⟨listings, hl, hlisted, hnext⟩ := hchain metadata hperm hdates
    refine ⟨listings, hl, pairwise_of_chain (fun a ha b hb c hc => ?_) hnext⟩
    exact (atMost_trans_iff hread).mpr hconsistent a (hlisted.mem_iff.mp ha) b
      (hlisted.mem_iff.mp hb) c (hlisted.mem_iff.mp hc)

/-- A version that is not plain between two whose numbers are in the order of their texts. -/
theorem releases_inOrder_around_beta :
    (∀ v ∈ ["1.9.0", "1.3.0-beta", "1.2.0"], IsReadable v) ∧
      Consistent ["1.9.0", "1.3.0-beta", "1.2.0"] ∧
      (∃ order, compareVersions "1.9.0" "1.2.0" = .ok order ∧
        compareVersions "1.2.0" "1.9.0" = .ok order.swap) ∧
      AtMost "1.2.0" "1.9.0" ∧
      (∃ listings, (undated ["1.9.0", "1.3.0-beta", "1.2.0"]).releases = .ok listings ∧
        (listings.map Listing.version).Perm ["1.9.0", "1.3.0-beta", "1.2.0"] ∧
        (listings.map Listing.version).IsChain AtMost) ∧
      ∃ listings, (undated ["1.9.0", "1.3.0-beta", "1.2.0"]).releases = .ok listings ∧
        (listings.map Listing.version).Pairwise AtMost := by
  have hread : ∀ v ∈ ["1.9.0", "1.3.0-beta", "1.2.0"], IsReadable v := by decide +kernel
  have hconsistent : Consistent ["1.9.0", "1.3.0-beta", "1.2.0"] := by decide +kernel
  obtain ⟨hswap, htrans, hchain, hpairwise⟩ := releases_inOrder hread
  refine ⟨hread, hconsistent, hswap "1.9.0" (by simp) "1.2.0" (by simp), ?_,
    hchain (undated _) .rfl fun v _ => ⟨_, listing_undated _ v⟩,
    hpairwise.mpr hconsistent (undated _) .rfl fun v _ => ⟨_, listing_undated _ v⟩⟩
  refine htrans.mpr hconsistent "1.2.0" (by simp) "1.3.0-beta" (by simp) "1.9.0" (by simp)
    ⟨.lt, ?_, rfl⟩ ⟨.lt, ?_, rfl⟩
  · decide +kernel
  · decide +kernel

/-- Two plain versions of which the greater one is less as text, and one that is not plain between
their texts: each of the three is at most the next one, and the last is at most the first. They are
listed as they are given, the oldest one last. -/
theorem releases_go_round :
    (∀ v ∈ ["1.0.10", "1.0.10-beta", "1.0.9"], IsReadable v) ∧
      AtMost "1.0.10" "1.0.10-beta" ∧ AtMost "1.0.10-beta" "1.0.9" ∧ ¬AtMost "1.0.10" "1.0.9" ∧
      AtMost "1.0.9" "1.0.10" ∧
      (undated ["1.0.10", "1.0.10-beta", "1.0.9"]).releases =
        .ok [⟨"1.0.10", none⟩, ⟨"1.0.10-beta", none⟩, ⟨"1.0.9", none⟩] := by
  refine ⟨by decide +kernel, ⟨.lt, by decide +kernel, rfl⟩, ⟨.lt, by decide +kernel, rfl⟩, ?_,
    ⟨.lt, by decide +kernel, rfl⟩, by decide +kernel⟩
  rintro ⟨order, horder, hle⟩
  have hgreater : compareVersions "1.0.10" "1.0.9" = .ok .gt := by decide +kernel
  obtain rfl : Ordering.gt = order := Except.ok.inj (hgreater.symm.trans horder)
  exact absurd hle (by decide)

end ReleasePrompts.Registry
