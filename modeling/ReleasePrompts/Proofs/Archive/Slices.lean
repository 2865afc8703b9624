import ReleasePrompts.Proofs.Archive.Members

/-!
# Files are slices of the data

Where no size is negative the places that the scan visits rise by whole blocks, each past the content
behind the header before it (`SizesNonneg.content_le`). So the scan ends within as many steps as the
data has blocks, and the files that it finds at these steps (`slices`, each with what `FoundAfter`
says of it) are what `unpack?` gives (`unpack?_eq_slices`). Their contents are parts of the data that
overlap neither each other nor any header, and only the last can be cut short (`unpack?_sliced`).
-/

namespace ReleasePrompts.Archive

/-- A file, with the place where its content starts. -/
structure Slice where
  start : Nat
  entry : Entry

/-- The place of the header before the content of a file. -/
def Slice.header (s : Slice) : Int := s.start - blockSize

/-- The place behind the content of a file. -/
def Slice.stop (s : Slice) : Nat := s.start + s.entry.content.size

/-- The block at a place is read by the scan. -/
def ReadsBlock (data : Bytes) (place : Int) : Prop :=
  (∃ steps, placeAfter data steps 0 = some place) ∧ place + blockSize ≤ data.size

/-- Files whose contents are slices of the data. -/
structure Sliced (data : Bytes) (slices : List Slice) : Prop where
  /-- There are no more files than blocks. -/
  length_le : slices.length ≤ data.size / blockSize
  /-- The contents start at whole blocks, one behind the other. -/
  increasing : slices.Pairwise fun s t => s.start < t.start
  aligned : ∀ s ∈ slices, blockSize ∣ s.start
  /-- A content is as long as its header states, or ends where the data does. -/
  content : ∀ s ∈ slices, s.start ≤ data.size ∧ s.entry.content =
    data.extract s.start (s.start + min s.entry.size.toNat (data.size - s.start))
  /-- The header that states the size stands directly before the content. -/
  header : ∀ s ∈ slices, ReadsBlock data s.header ∧ sizeAt data s.header = s.entry.size
  /-- No contents overlap. -/
  disjoint : slices.Pairwise fun s t => s.stop ≤ t.start
  /-- No content overlaps a block that is read. -/
  apart : ∀ s ∈ slices, ∀ place, ReadsBlock data place →
    (s.stop : Int) ≤ place ∨ place + blockSize ≤ s.start
  /-- Only the last content can be shorter than its header states. -/
  complete : ∀ s ∈ slices.dropLast, (s.entry.content.size : Int) = s.entry.size

/-! ## Sizes -/

/-- The scan visits no place at which the size is negative. -/
def SizesNonneg (data : Bytes) : Prop :=
  ∀ steps place found, placeAfter data steps 0 = some place → scanAt data place = some found →
    0 ≤ sizeAt data place

/-- A size is negative only by a minus sign in its field. -/
theorem minus_mem_of_sizeAt_neg {data : Bytes} {place : Int} (h : sizeAt data place < 0) :
    (45 : UInt8) ∈ (sizeField data place).toList := by
  rw [sizeAt] at h
  split at h
  · cases h
  · exact minus_mem_of_parseSize_neg h

theorem mem_of_mem_extract {data : Bytes} {start stop : Nat} {byte : UInt8}
    (h : byte ∈ (data.extract start stop).toList) : byte ∈ data.toList := by
  rw [Array.toList_extract, List.extract_eq_take_drop] at h
  exact List.mem_of_mem_drop (List.mem_of_mem_take h)

/-- Data without a minus sign states no negative size. -/
theorem sizesNonneg_of_not_mem {data : Bytes} (h : (45 : UInt8) ∉ data.toList) : SizesNonneg data := by
  intro steps place found _ _
  by_contra hneg
  exact h (mem_of_mem_extract (mem_of_mem_extract (minus_mem_of_sizeAt_neg (Int.not_le.1 hneg))))

/-! ## Places -/

theorem le_roundUp (size : Int) : size ≤ roundUp size := by
  have hpos : (0 : Int) ≤ (512 : Nat) := by decide
  simp only [roundUp, blockSize, Int.fdiv_eq_ediv_of_nonneg (-size) hpos]
  omega

namespace SizesNonneg

variable {data : Bytes}

theorem keepsAhead (h : SizesNonneg data) : KeepsAhead data := fun steps place found hp hf =>
  Int.lt_of_lt_of_le (by decide) (h steps place found hp hf)

/-- Every later place is past the content behind a header. -/
theorem content_le (h : SizesNonneg data) {i j : Nat} (hij : i < j) {place next : Int}
    (hi : placeAfter data i 0 = some place) (hj : placeAfter data j 0 = some next) :
    0 ≤ sizeAt data place ∧ place + blockSize + sizeAt data place ≤ next := by
  obtain ⟨k, rfl⟩ := Nat.exists_eq_add_of_lt hij
  rw [Nat.add_assoc, placeAfter_add, hi, Option.bind_some] at hj
  obtain ⟨found, hf, hk⟩ := Option.bind_eq_some_iff.1 hj
  have hround := le_roundUp (sizeAt data place)
  have hnext := (scanAt_eq_some hf).2.2
  refine ⟨h i place found hi hf, ?_⟩
  suffices found.next ≤ next by omega
  cases k with
  | zero => exact Int.le_of_eq (Option.some.inj hk)
  | succ k =>
    have hi' : placeAfter data (i + 1) 0 = some found.next := by
      rw [placeAfter_add, hi, Option.bind_some, placeAfter, hf, Option.bind_some, placeAfter]
    exact Int.le_of_lt (h.keepsAhead.lt hi' hk)

/-- Each step takes a block at least. -/
theorem mul_le_place (h : SizesNonneg data) {steps : Nat} {place : Int}
    (hp : placeAfter data steps 0 = some place) : (blockSize * steps : Int) ≤ place := by
  induction steps generalizing place with
  | zero => exact Int.le_of_eq (Option.some.inj hp)
  | succ steps ih =>
    have hlast := isSome_placeAfter_of_le (Nat.le_succ steps) (Option.isSome_of_mem hp)
    obtain ⟨last, hlast⟩ := Option.isSome_iff_exists.1 hlast
    obtain ⟨hnonneg, hbehind⟩ := h.content_le (Nat.lt_succ_self steps) hlast hp
    have hle := ih hlast
    rw [Int.natCast_succ, Int.mul_add, Int.mul_one]
    omega

end SizesNonneg

/-- The content of a header is where it says, as far as the data goes. -/
theorem entry_eq_of_scanAt {data : Bytes} {place : Int} {found : Found} {entry : Entry}
    (h : scanAt data place = some found) (he : found.entry = some entry) :
    entry.size = sizeAt data place ∧
      entry.content = part data (place + blockSize) (place + blockSize + entry.size) := by
  simp only [scanAt] at h
  split at h
  · cases h
  split at h
  · cases h
  split at h
  · rw [← Option.some.inj h] at he
    cases he
  rename_i hpath
  rw [← Option.some.inj h] at he
  simp only [] at he
  split at he
  case isFalse => cases he
  unfold sizeAt sizeField headerAt
  rw [if_neg hpath, ← Option.some.inj he]
  simp only [and_self]

/-- A part of the data ends where the data does. -/
theorem part_eq_extract {data : Bytes} {start size : Nat} (h : start ≤ data.size) :
    part data start (start + size) = data.extract start (start + min size (data.size - start)) := by
  have hstop : placeIn data.size ((start : Int) + size) = start + min size (data.size - start) := by
    rw [placeIn]
    split <;> omega
  rw [part, hstop, placeIn_of_le h]

/-! ## Slices -/

/-- The file that the scan finds at a place. -/
def sliceAt? (data : Bytes) (place : Int) : Option Slice :=
  (scanAt data place).bind fun found => found.entry.map fun entry =>
    ⟨(place + blockSize).toNat, entry⟩

/-- The file that the scan finds after a number of steps from a place. -/
def sliceAfter? (data : Bytes) (place : Int) (steps : Nat) : Option Slice :=
  (placeAfter data steps place).bind (sliceAt? data)

/-- The files found by a scan that takes no more steps than the data has blocks. -/
def slices (data : Bytes) : List Slice :=
  (List.range (data.size / blockSize)).filterMap (sliceAfter? data 0)

theorem sliceAfter?_zero (data : Bytes) (place : Int) :
    sliceAfter? data place 0 = sliceAt? data place := rfl

theorem sliceAfter?_succ (data : Bytes) (place : Int) (steps : Nat) :
    sliceAfter? data place (steps + 1) =
      (scanAt data place).bind fun found => sliceAfter? data found.next steps :=
  Option.bind_assoc _ _ _

/-- The files that a scan collects are those found at its steps. -/
theorem eq_of_unpackFrom? {data : Bytes} {steps : Nat} {place : Int} {found entries : List Entry}
    (h : unpackFrom? data steps place found = some entries) :
    entries = found.reverse ++
      ((List.range steps).filterMap (sliceAfter? data place)).map Slice.entry := by
  induction steps generalizing place found with
  | zero => cases h
  | succ steps ih =>
    have hshift : sliceAfter? data place ∘ Nat.succ = fun n => (scanAt data place).bind fun found =>
        sliceAfter? data found.next n := funext fun n => sliceAfter?_succ data place n
    rw [List.range_succ_eq_map, List.filterMap_cons, List.filterMap_map, hshift, sliceAfter?_zero,
      sliceAt?]
    cases hscan : scanAt data place with
    | none =>
      rw [unpackFrom?_of_none hscan] at h
      simp [Option.some.inj h]
    | some first =>
      rw [unpackFrom?_of_scanAt hscan] at h
      cases hentry : first.entry with
      | none => simp [ih h, hentry]
      | some entry => simp [ih h, hentry]

/-- What is known of a file that the scan finds after some steps. -/
structure FoundAfter (data : Bytes) (steps : Nat) (s : Slice) : Prop where
  header : placeAfter data steps 0 = some s.header
  states : sizeAt data s.header = s.entry.size
  nonneg : 0 ≤ s.entry.size
  start_le : s.start ≤ data.size
  content : s.entry.content =
    data.extract s.start (s.start + min s.entry.size.toNat (data.size - s.start))

variable {data : Bytes} {steps : Nat} {s : Slice}

theorem SizesNonneg.foundAfter (h : SizesNonneg data) (hs : sliceAfter? data 0 steps = some s) :
    FoundAfter data steps s := by
  obtain ⟨place, hplace, hs⟩ := Option.bind_eq_some_iff.1 hs
  obtain ⟨found, hfound, hs⟩ := Option.bind_eq_some_iff.1 hs
  obtain ⟨entry, hentry, rfl⟩ := Option.map_eq_some_iff.1 hs
  obtain ⟨hsize, hcontent⟩ := entry_eq_of_scanAt hfound hentry
  have hnonneg : 0 ≤ entry.size := hsize ▸ h steps place found hplace hfound
  have hle := h.mul_le_place hplace
  have hfits := (scanAt_eq_some hfound).1
  -- no place is below zero, so places and sizes are natural numbers
  obtain ⟨start, hstart⟩ : ∃ start : Nat, place + blockSize = start :=
    Int.eq_ofNat_of_zero_le (by unfold blockSize at hle ⊢; omega)
  obtain ⟨size, hn⟩ := Int.eq_ofNat_of_zero_le hnonneg
  rw [hstart] at hcontent hfits ⊢
  have hheader : Slice.header ⟨start, entry⟩ = place := by
    simp only [Slice.header, ← hstart]
    omega
  have hstart_le : start ≤ data.size := Int.ofNat_le.1 hfits
  refine ⟨hheader ▸ hplace, hheader ▸ hsize.symm, hnonneg, hstart_le, ?_⟩
  simp only [hcontent, hn, part_eq_extract hstart_le, Int.toNat_natCast]

namespace FoundAfter

theorem size_content (hs : FoundAfter data steps s) :
    s.entry.content.size = min s.entry.size.toNat (data.size - s.start) := by
  have hle := hs.start_le
  rw [hs.content, Array.size_extract]
  omega

theorem stop_le (hs : FoundAfter data steps s) : (s.stop : Int) ≤ s.start + s.entry.size := by
  have hnonneg := hs.nonneg
  rw [Slice.stop, hs.size_content]
  omega

theorem dvd_start (hs : FoundAfter data steps s) : blockSize ∣ s.start := by
  have hdvd := Int.dvd_add (dvd_placeAfter (Int.dvd_zero _) hs.header) (Int.dvd_refl _)
  rw [Slice.header, Int.sub_add_cancel] at hdvd
  exact Int.natCast_dvd_natCast.1 hdvd

theorem readsBlock (hs : FoundAfter data steps s) : ReadsBlock data s.header := by
  refine ⟨⟨steps, hs.header⟩, ?_⟩
  rw [Slice.header, Int.sub_add_cancel]
  exact Int.ofNat_le.2 hs.start_le

/-- Places that come later are past the content, as long as it should be. -/
theorem start_add_size_le (hs : FoundAfter data steps s) (h : SizesNonneg data) {later : Nat}
    (hlater : steps < later) {place : Int} (hp : placeAfter data later 0 = some place) :
    (s.start : Int) + s.entry.size ≤ place := by
  have hle := (h.content_le hlater hs.header hp).2
  rwa [hs.states, Slice.header, Int.sub_add_cancel] at hle

/-- No block that is read overlaps a content. -/
theorem apart (hs : FoundAfter data steps s) (h : SizesNonneg data) {place : Int}
    (hread : ReadsBlock data place) : (s.stop : Int) ≤ place ∨ place + blockSize ≤ s.start := by
  obtain ⟨⟨other, hother⟩, -⟩ := hread
  rcases Nat.lt_trichotomy steps other with hlt | rfl | hlt
  · exact .inl (hs.stop_le.trans (hs.start_add_size_le h hlt hother))
  · -- the block is the header of the slice
    have hplace := Option.some.inj (hs.header.symm.trans hother)
    rw [← hplace, Slice.header, Int.sub_add_cancel]
    exact .inr (Int.le_refl _)
  · obtain ⟨hnonneg, hle⟩ := h.content_le hlt hother hs.header
    rw [Slice.header] at hle
    omega

end FoundAfter

namespace SizesNonneg

theorem sliceAfter?_eq_none (h : SizesNonneg data) (hsteps : data.size / blockSize ≤ steps) :
    sliceAfter? data 0 steps = none := by
  refine Option.eq_none_iff_forall_ne_some.2 fun s hs => ?_
  have hfound := h.foundAfter hs
  have hstart := hfound.start_le
  have hle := h.mul_le_place hfound.header
  simp only [Slice.header, blockSize] at hle hsteps
  omega

/-- What is unpacked are the slices that are found. -/
theorem unpack?_eq_slices (h : SizesNonneg data) :
    unpack? data = some ((slices data).map Slice.entry) := by
  obtain ⟨entries, hentries⟩ := Option.ne_none_iff_exists'.1 h.keepsAhead.ends
  have hsteps : 2 * (data.size / blockSize) + 4 =
      data.size / blockSize + (data.size / blockSize + 4) := by omega
  have hbehind : ((List.range (data.size / blockSize + 4)).filterMap
      (sliceAfter? data 0 ∘ fun n => data.size / blockSize + n)) = [] :=
    List.filterMap_eq_nil_iff.2 fun n _ => h.sliceAfter?_eq_none (Nat.le_add_right _ n)
  rw [hentries, eq_of_unpackFrom? hentries, hsteps, List.range_add, List.filterMap_append,
    List.filterMap_map, hbehind, List.append_nil, List.reverse_nil, List.nil_append, slices]

theorem exists_foundAfter (h : SizesNonneg data) (hs : s ∈ slices data) :
    ∃ steps, FoundAfter data steps s :=
  let ⟨steps, _, hs⟩ := List.mem_filterMap.1 hs
  ⟨steps, h.foundAfter hs⟩

/-- Between two slices there is at least the header of the second. -/
theorem pairwise_slices (h : SizesNonneg data) :
    (slices data).Pairwise fun s t => (s.start : Int) + s.entry.size + blockSize ≤ t.start := by
  refine List.pairwise_filterMap.2 (List.pairwise_lt_range.imp fun hlt s hs t ht => ?_)
  have hle := (h.foundAfter hs).start_add_size_le h hlt (h.foundAfter ht).header
  rw [Slice.header] at hle
  omega

/-- The files of an archive are slices of it. -/
theorem sliced (h : SizesNonneg data) : Sliced data (slices data) where
  length_le := (List.length_filterMap_le _ _).trans (Nat.le_of_eq List.length_range)
  increasing := h.pairwise_slices.imp_of_mem fun hs _ hle => by
    obtain ⟨_, hfound⟩ := h.exists_foundAfter hs
    have hnonneg := hfound.nonneg
    unfold blockSize at hle
    omega
  aligned := fun s hs => (h.exists_foundAfter hs).elim fun _ hfound => hfound.dvd_start
  content := fun s hs => (h.exists_foundAfter hs).elim fun _ hfound =>
    ⟨hfound.start_le, hfound.content⟩
  header := fun s hs => (h.exists_foundAfter hs).elim fun _ hfound =>
    ⟨hfound.readsBlock, hfound.states⟩
  disjoint := h.pairwise_slices.imp_of_mem fun hs _ hle => by
    obtain ⟨_, hfound⟩ := h.exists_foundAfter hs
    have hstop := hfound.stop_le
    omega
  apart := fun s hs place hread => (h.exists_foundAfter hs).elim fun _ hfound =>
    hfound.apart h hread
  complete := fun s hs => by
    -- the last slice starts within the data, and every other one ends before it
    have hne : slices data ≠ [] := fun he => by simp [he] at hs
    have hpairs := h.pairwise_slices
    rw [← List.dropLast_append_getLast hne] at hpairs
    have hle := (List.pairwise_append.1 hpairs).2.2 s hs _ (List.mem_singleton_self _)
    obtain ⟨_, hlast⟩ := h.exists_foundAfter (List.getLast_mem hne)
    obtain ⟨_, hfound⟩ := h.exists_foundAfter (List.mem_of_mem_dropLast hs)
    have hstart := hlast.start_le
    have hnonneg := hfound.nonneg
    rw [hfound.size_content]
    omega

end SizesNonneg

/-- Where no size is negative, unpacking gives slices of the data. -/
theorem unpack?_sliced (h : SizesNonneg data) :
    ∃ slices : List Slice, unpack? data = some (slices.map Slice.entry) ∧ Sliced data slices :=
  ⟨slices data, h.unpack?_eq_slices, h.sliced⟩

/-- A file of two bytes, and one whose header states 512 but of which three bytes are left. -/
def cutShort : Bytes :=
  (headerStating [50] ++ [104, 105] ++ List.replicate 510 0 ++ headerStating [49, 48, 48, 48] ++
    [98, 121, 101]).toArray

theorem unpack?_sliced_cutShort :
    SizesNonneg cutShort ∧
      ∃ slices : List Slice, unpack? cutShort = some (slices.map Slice.entry) ∧
        Sliced cutShort slices := by
  have h : SizesNonneg cutShort := sizesNonneg_of_not_mem (by decide +kernel)
  exact ⟨h, unpack?_sliced h⟩

end ReleasePrompts.Archive
