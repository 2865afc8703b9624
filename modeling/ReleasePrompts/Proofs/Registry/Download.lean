import Mathlib.Data.List.Induction
import ReleasePrompts.Registry.Client

/-!
# A download does not depend on its chunks

A body is the same in whatever chunks it arrives (`joined`). Chunks fit a limit if none of them
takes what has arrived beyond it (`Fits`), and that is a matter of the whole body (`fits_iff`). As
long as they fit, `collect` has counted as many bytes as it keeps (`collect_append`), so it gives
the body if its chunks fit (`collect_of_fits`), and else stops at the first chunk that goes beyond
the limit, whatever comes behind it (`collect_of_beyond`). So a tarball is downloaded or refused by
its size alone (`tarballFrom_limit`), but for a negative limit, beyond which even nothing is, once
it arrives.
-/

namespace ReleasePrompts.Registry

@[simp] theorem joined_nil : joined [] = #[] := rfl

theorem foldl_append (body : Bytes) (chunks : List Bytes) :
    chunks.foldl (· ++ ·) body = body ++ joined chunks := by
  induction chunks generalizing body with
  | nil => simp
  | cons chunk chunks ih => rw [joined, List.foldl_cons, List.foldl_cons, ih, ih (#[] ++ chunk)]; simp

@[simp] theorem joined_append (chunks others : List Bytes) :
    joined (chunks ++ others) = joined chunks ++ joined others := by
  rw [joined, List.foldl_append, foldl_append, ← joined]

@[simp] theorem joined_singleton (chunk : Bytes) : joined [chunk] = chunk := by
  simp [joined]

theorem joined_chunksOf (body : Bytes) : joined (Client.chunksOf body) = body := by
  rw [Client.chunksOf]
  split
  · next hempty => exact (Array.isEmpty_iff.mp hempty).symm
  · exact joined_singleton body

/-- No chunk takes the bytes that have arrived beyond a limit. -/
def Fits (limit : Option Int) (chunks : List Bytes) : Prop :=
  ∀ arrived, arrived <+: chunks → arrived ≠ [] → isBeyond limit (joined arrived).size = false

variable {limit : Option Int} {chunks : List Bytes}

theorem isBeyond_eq_false_iff {received : Nat} :
    isBeyond limit received = false ↔ ∀ most ∈ limit, (received : Int) ≤ most := by
  cases limit <;> simp [isBeyond]

theorem lt_of_isBeyond {most : Int} (hmost : most ∈ limit) {received : Nat}
    (h : isBeyond limit received = true) : most < received := by
  obtain rfl : limit = some most := hmost
  simpa [isBeyond] using h

theorem fits_nil (limit : Option Int) : Fits limit [] :=
  fun _ hbegin hne => absurd (List.prefix_nil.mp hbegin) hne

theorem fits_concat {chunk : Bytes} :
    Fits limit (chunks ++ [chunk]) ↔
      Fits limit chunks ∧ isBeyond limit (joined (chunks ++ [chunk])).size = false := by
  constructor
  · intro h
    exact ⟨fun arrived hbegin => h arrived (hbegin.trans (List.prefix_append _ _)),
      h _ List.prefix_rfl (by simp)⟩
  · rintro ⟨hfits, hlast⟩ arrived hbegin hne
    rcases List.prefix_concat_iff.mp hbegin with rfl | hbegin
    · exact hlast
    · exact hfits arrived hbegin hne

/-- Whether chunks fit is a matter of the whole body, if there is a chunk at all. -/
theorem fits_iff :
    Fits limit chunks ↔ chunks = [] ∨ ∀ most ∈ limit, ((joined chunks).size : Int) ≤ most := by
  constructor
  · intro h
    refine (eq_or_ne chunks []).imp_right fun hne => ?_
    exact isBeyond_eq_false_iff.mp (h chunks List.prefix_rfl hne)
  · rintro (rfl | h)
    · exact fits_nil limit
    · rintro arrived ⟨others, rfl⟩ -
      refine isBeyond_eq_false_iff.mpr fun most hmost => ?_
      have hall := h most hmost
      rw [joined_append, Array.size_append] at hall
      omega

theorem not_fits_iff :
    ¬Fits limit chunks ↔ chunks ≠ [] ∧ ∃ most ∈ limit, most < ((joined chunks).size : Int) := by
  rw [fits_iff, not_or]
  refine and_congr_right fun _ => ?_
  simp only [not_forall, Int.not_le, exists_prop]

/-- Chunks that do not fit have a first one that goes beyond the limit. -/
theorem exists_first_beyond (h : ¬Fits limit chunks) :
    ∃ before chunk later, chunks = before ++ chunk :: later ∧ Fits limit before ∧
      isBeyond limit (joined (before ++ [chunk])).size = true := by
  induction chunks using List.reverseRecOn with
  | nil => exact absurd (fits_nil limit) h
  | append_singleton chunks last ih =>
    by_cases hfits : Fits limit chunks
    · have hlast : ¬isBeyond limit (joined (chunks ++ [last])).size = false := fun hlast =>
        h (fits_concat.mpr ⟨hfits, hlast⟩)
      exact ⟨chunks, last, [], rfl, hfits, eq_true_of_ne_false hlast⟩
    · obtain ⟨before, chunk, later, rfl, hbefore, hbeyond⟩ := ih hfits
      exact ⟨before, chunk, later ++ [last], by simp, hbefore, hbeyond⟩

/-- Chunks that fit are kept, and the count is the number of their bytes when the others come. -/
theorem collect_append (hfits : Fits limit chunks) (others : List Bytes) :
    collect limit (chunks ++ others) = collectFrom limit (joined chunks).size chunks others := by
  -- from the right, since the chunk that is tested next is the last of those that fit
  induction chunks using List.reverseRecOn generalizing others with
  | nil => rfl
  | append_singleton chunks chunk ih =>
    obtain ⟨hchunks, hchunk⟩ := fits_concat.mp hfits
    rw [joined_append, joined_singleton, Array.size_append] at hchunk
    rw [List.append_assoc, List.singleton_append, ih hchunks, collectFrom, joined_append,
      joined_singleton, Array.size_append]
    exact if_neg (Bool.eq_false_iff.mp hchunk)

theorem collect_of_fits (hfits : Fits limit chunks) :
    collect limit chunks = .whole (joined chunks) := by
  simpa [collectFrom] using collect_append hfits []

/-- The first chunk beyond the limit is not kept, and those behind it are not looked at. -/
theorem collect_of_beyond {before : List Bytes} {chunk : Bytes} (hfits : Fits limit before)
    (hbeyond : isBeyond limit (joined (before ++ [chunk])).size = true) (later : List Bytes) :
    collect limit (before ++ chunk :: later) = .stopped before later := by
  rw [joined_append, joined_singleton, Array.size_append] at hbeyond
  rw [collect_append hfits, collectFrom]
  exact if_pos hbeyond

/-! ## Tarballs -/

variable {client : Client} {status : Int}

theorem tarballFrom_of_fits (hstatus : isSuccess status = true)
    (hfits : Fits client.downloadLimit chunks) (version : String) :
    client.tarballFrom version status chunks = .ok (joined chunks) := by
  simp [Client.tarballFrom, hstatus, collect_of_fits hfits]

theorem tarballFrom_of_not_fits (hstatus : isSuccess status = true)
    (hfits : ¬Fits client.downloadLimit chunks) {most : Int} (hmost : most ∈ client.downloadLimit)
    (version : String) :
    client.tarballFrom version status chunks =
      .error (.archiveTooLarge s!"Tarball for {version} exceeds {most} bytes"
        [("version", .string version), ("limit", .int most)]) := by
  obtain ⟨before, chunk, later, rfl, hbefore, hbeyond⟩ := exists_first_beyond hfits
  have hlimit : client.downloadLimit.getD 0 = most := by rw [Option.mem_def.mp hmost, Option.getD_some]
  simp only [Client.tarballFrom, hstatus, Bool.not_true, Bool.false_eq_true, if_false,
    collect_of_beyond hbefore hbeyond, hlimit]

theorem tarballFrom_eq_ok_iff (hstatus : isSuccess status = true) {version : String} :
    client.tarballFrom version status chunks = .ok (joined chunks) ↔
      Fits client.downloadLimit chunks := by
  refine ⟨fun hok => ?_, fun hfits => tarballFrom_of_fits hstatus hfits version⟩
  by_contra hfits
  obtain ⟨-, most, hmost, -⟩ := not_fits_iff.mp hfits
  rw [tarballFrom_of_not_fits hstatus hfits hmost] at hok
  cases hok

/-- A body within the limit is downloaded. -/
theorem tarballOf_of_le (hstatus : isSuccess status = true) {body : Bytes}
    (hlimit : ∀ most ∈ client.downloadLimit, (body.size : Int) ≤ most) (version : String) :
    client.tarballOf version ⟨status, body⟩ = .ok body := by
  have hfits : Fits client.downloadLimit (Client.chunksOf body) :=
    fits_iff.mpr (.inr (by rwa [joined_chunksOf]))
  rw [Client.tarballOf, tarballFrom_of_fits hstatus hfits, joined_chunksOf]

/-- What is kept when a download stops is within the limit, or nothing. -/
theorem size_joined_le_of_fits {most : Int} (hmost : most ∈ limit) (hfits : Fits limit chunks) :
    ((joined chunks).size : Int) ≤ max most 0 := by
  rcases fits_iff.mp hfits with rfl | hall
  · exact Int.le_max_right most 0
  · exact Int.le_trans (hall most hmost) (Int.le_max_left most 0)

/-- The limit on a download does not depend on the chunks in which a body arrives. The body is given
if it is within the limit, or if nothing arrives at all, and otherwise it is refused as too large.
Then the download stops at the first chunk that takes what has arrived beyond the limit: what is kept
is within the limit, and of the chunks behind that one, whatever they are, none is read. Two ways to
cut a body into chunks come to the same, unless one of them has no chunk at all. -/
theorem tarballFrom_limit (client : Client) (version : String) {status : Int}
    (hstatus : isSuccess status = true) {body : Bytes} {chunks : List Bytes}
    (hbody : joined chunks = body) :
    (client.tarballFrom version status chunks = .ok body ↔
        chunks = [] ∨ ∀ most ∈ client.downloadLimit, (body.size : Int) ≤ most) ∧
      (∀ most ∈ client.downloadLimit, most < body.size → chunks ≠ [] →
        client.tarballFrom version status chunks =
            .error (.archiveTooLarge s!"Tarball for {version} exceeds {most} bytes"
              [("version", .string version), ("limit", .int most)]) ∧
          ∃ before chunk later, chunks = before ++ chunk :: later ∧
            Fits client.downloadLimit before ∧ most < (joined (before ++ [chunk])).size ∧
            ((joined before).size : Int) ≤ max most 0 ∧
            ∀ others, collect client.downloadLimit (before ++ chunk :: others) =
              .stopped before others) ∧
      ∀ others, joined others = body → (others = [] ↔ chunks = []) →
        client.tarballFrom version status others = client.tarballFrom version status chunks := by
  subst hbody
  refine ⟨(tarballFrom_eq_ok_iff hstatus).trans fits_iff, fun most hmost hlt hne => ?_, ?_⟩
  · have hfits := not_fits_iff.mpr ⟨hne, most, hmost, hlt⟩
    refine ⟨tarballFrom_of_not_fits hstatus hfits hmost version, ?_⟩
    obtain ⟨before, chunk, later, hchunks, hbefore, hbeyond⟩ := exists_first_beyond hfits
    exact ⟨before, chunk, later, hchunks, hbefore, lt_of_isBeyond hmost hbeyond,
      size_joined_le_of_fits hmost hbefore, collect_of_beyond hbefore hbeyond⟩
  · intro others hothers hempty
    have hsame : Fits client.downloadLimit others ↔ Fits client.downloadLimit chunks := by
      rw [fits_iff, fits_iff, hothers, hempty]
    by_cases hfits : Fits client.downloadLimit chunks
    · rw [tarballFrom_of_fits hstatus hfits, tarballFrom_of_fits hstatus (hsame.mpr hfits), hothers]
    · obtain ⟨-, most, hmost, -⟩ := not_fits_iff.mp hfits
      rw [tarballFrom_of_not_fits hstatus hfits hmost,
        tarballFrom_of_not_fits hstatus (mt hsame.mp hfits) hmost]

/-- Three bytes are within a limit of three, with an empty chunk among them; a fourth is not, and the
chunk behind it is never read. -/
theorem tarballFrom_limit_of_three :
    let client : Client := { package := "p", downloadLimit := some 3 }
    client.tarballFrom "1.0.0" 200 [#[1, 2], #[], #[3]] = .ok #[1, 2, 3] ∧
      client.tarballFrom "1.0.0" 200 [#[1, 2], #[], #[3, 4], #[5]] =
        .error (.archiveTooLarge "Tarball for 1.0.0 exceeds 3 bytes"
          [("version", .string "1.0.0"), ("limit", .int 3)]) := by
  intro client
  have hstatus : isSuccess 200 = true := by decide
  obtain ⟨hwithin, -⟩ := tarballFrom_limit client "1.0.0" hstatus
    (show joined [#[1, 2], #[], #[3]] = #[1, 2, 3] by decide)
  obtain ⟨-, hbeyond, -⟩ := tarballFrom_limit client "1.0.0" hstatus
    (show joined [#[1, 2], #[], #[3, 4], #[5]] = #[1, 2, 3, 4, 5] by decide)
  have hmessage : s!"Tarball for 1.0.0 exceeds {(3 : Int)} bytes" =
      "Tarball for 1.0.0 exceeds 3 bytes" := by decide +kernel
  refine ⟨hwithin.mpr (.inr (by decide)), ?_⟩
  rw [← hmessage]
  exact (hbeyond 3 rfl (by decide) (by decide)).1

/-- A negative limit refuses an empty body that arrives in an empty chunk, but not one that arrives
in none. -/
theorem tarballFrom_without_chunks :
    let client : Client := { package := "p", downloadLimit := some (-1) }
    joined [] = joined [#[]] ∧ ¬((joined []).size : Int) ≤ -1 ∧
      client.tarballFrom "1.0.0" 200 [] = .ok (joined []) ∧
      ∃ message, client.tarballFrom "1.0.0" 200 [#[]] =
        .error (.archiveTooLarge message [("version", .string "1.0.0"), ("limit", .int (-1))]) :=
  ⟨rfl, by decide, rfl, _, rfl⟩

end ReleasePrompts.Registry
