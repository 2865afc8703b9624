import ReleasePrompts.Archive.Tar
import ReleasePrompts.Proofs.Number.Numeral

/-!
# Where the scan of an archive goes

The scan reads a header at each place that it comes to (`placeAfter`) and goes on behind the content
that the header states. It moves ahead exactly where the stated size is above `-blockSize`
(`lt_next_iff`), and only a minus sign makes a size negative (`minus_mem_of_parseSize_neg`). A scan
that does not end comes to one of its places again, since those that hold a header are few
(`exists_repeat_of_isSome`); so the bound on the blocks that `unpack?` visits cuts off no scan that
would end (`unpack?_eq_none_iff`), and an archive has an end exactly if no place is visited twice
(`scan_ahead_iff`).
-/

namespace ReleasePrompts.Archive

open Text Number

/-- The block at a place. -/
def headerAt (data : Bytes) (place : Int) : Bytes := part data place (place + blockSize)

/-- The bytes that state the size of the content behind a header. -/
def sizeField (data : Bytes) (place : Int) : Bytes := (headerAt data place).extract 124 136

/-- The size that the scan goes on by at a place: the one stated there, or none where no path is
named. -/
def sizeAt (data : Bytes) (place : Int) : Int :=
  if (parsePath ((headerAt data place).extract 0 100)).isEmpty then 0
  else parseSize (sizeField data place)

/-! ## One step -/

theorem roundUp_zero : roundUp 0 = 0 := rfl

theorem dvd_roundUp (size : Int) : (blockSize : Int) ∣ roundUp size := Int.dvd_mul_left _ _

/-- Whole blocks lead back by one block exactly if the size does. -/
theorem neg_blockSize_lt_roundUp_iff (size : Int) :
    -(blockSize : Int) < roundUp size ↔ -(blockSize : Int) < size := by
  have hpos : (0 : Int) ≤ (512 : Nat) := by decide
  simp only [roundUp, blockSize, Int.fdiv_eq_ediv_of_nonneg (-size) hpos]
  omega

theorem scanAt_eq_some {data : Bytes} {place : Int} {found : Found}
    (h : scanAt data place = some found) :
    place + blockSize ≤ data.size ∧ (headerAt data place).all (· == 0) = false ∧
      found.next = place + blockSize + roundUp (sizeAt data place) := by
  simp only [scanAt] at h
  split at h
  · cases h
  rename_i hfits
  simp only [Bool.or_eq_true, decide_eq_true_eq, not_or, Int.not_le, Int.not_lt] at hfits
  split at h
  · cases h
  rename_i hzero
  refine ⟨hfits.2, eq_false_of_ne_true hzero, ?_⟩
  unfold sizeAt headerAt
  split at h
  · rename_i hpath
    rw [if_pos hpath, roundUp_zero, Int.add_zero, ← Option.some.inj h]
  · rename_i hpath
    rw [if_neg hpath, ← Option.some.inj h]
    rfl

/-- What is found at a header that names a path. -/
theorem scanAt_of_headerAt {data header : Bytes} {place : Int}
    (hfits : place + blockSize ≤ data.size) (h : headerAt data place = header)
    (hzero : header.all (· == 0) = false)
    (hpath : (parsePath (header.extract 0 100)).isEmpty = false) :
    scanAt data place = some
      ⟨if isRegularFlag (header.extract 156 157) then
          some ⟨String.ofList (parsePath (header.extract 0 100)),
            part data (place + blockSize) (place + blockSize + parseSize (header.extract 124 136)),
            parseSize (header.extract 124 136)⟩
        else none,
        place + blockSize + roundUp (parseSize (header.extract 124 136))⟩ := by
  subst h
  unfold headerAt at hzero hpath ⊢
  have hlt : ¬(data.size : Int) ≤ place := by
    unfold blockSize at hfits
    omega
  simp [scanAt, hzero, hpath, hlt, Int.not_lt.2 hfits]

/-- A step moves ahead exactly if the size that it goes on by is above `-blockSize`. -/
theorem lt_next_iff {data : Bytes} {place : Int} {found : Found}
    (h : scanAt data place = some found) :
    place < found.next ↔ -(blockSize : Int) < sizeAt data place := by
  rw [(scanAt_eq_some h).2.2, ← neg_blockSize_lt_roundUp_iff]
  omega

/-- A whole number of blocks from the start, the places at which there is a header are within the
data or, counted from its end, before it by less than a block. -/
theorem block_bounds {data : Bytes} {block : Int} {found : Found}
    (h : scanAt data (blockSize * block) = some found) :
    -(data.size / blockSize : Int) - 1 ≤ block ∧ block ≤ data.size / blockSize - 1 := by
  obtain ⟨hfits, hzero, -⟩ := scanAt_eq_some h
  have hne : (headerAt data (blockSize * block)).size ≠ 0 := fun e => by
    simp [Array.size_eq_zero_iff.1 e] at hzero
  simp only [headerAt, part, placeIn, Array.size_extract] at hne
  have hb : (blockSize : Int) = 512 := rfl
  rw [hb] at hfits hne ⊢
  by_cases hneg : 512 * block < 0
  · rw [if_pos hneg] at hne
    by_cases hlast : 512 * block + 512 < 0
    · rw [if_pos hlast] at hne
      omega
    · rw [if_neg hlast] at hne
      omega
  · omega

/-! ## Signs -/

/-- Only a minus sign makes the size that a field states negative. -/
theorem minus_mem_of_parseSize_neg {field : Bytes} (h : parseSize field < 0) :
    (45 : UInt8) ∈ field.toList := by
  simp only [parseSize] at h
  split at h
  · cases h
  rename_i hascii
  split at h
  · rename_i size hsize
    obtain ⟨byte, hbyte, hc⟩ := List.mem_map.1 (minus_mem_of_readInteger hsize h)
    have hlt : byte.toNat < 128 := by
      simp only [List.any_eq_true, not_exists, not_and, decide_eq_true_eq] at hascii
      exact Nat.lt_of_not_le fun hle => hascii byte hbyte (UInt8.le_iff_toNat_le.2 hle)
    have h45 : byte.toNat = 45 := by
      have := congrArg Char.toNat hc
      rwa [Char.toNat_ofNat, if_pos (.inl (by omega))] at this
    have hmem := (List.takeWhile_sublist _).subset (List.mem_filter.1 hbyte).1
    rwa [show byte = 45 from UInt8.toNat_inj.1 h45] at hmem
  · cases h

/-! ## Runs -/

/-- The place that the scan comes to from another in a number of steps. -/
def placeAfter (data : Bytes) : (steps : Nat) → (place : Int) → Option Int
  | 0, place => some place
  | steps + 1, place => (scanAt data place).bind fun found => placeAfter data steps found.next

theorem placeAfter_add (data : Bytes) (m n : Nat) (place : Int) :
    placeAfter data (m + n) place = (placeAfter data m place).bind (placeAfter data n) := by
  induction m generalizing place with
  | zero => rw [Nat.zero_add, placeAfter, Option.bind_some]
  | succ m ih =>
    rw [Nat.succ_add, placeAfter, placeAfter, Option.bind_assoc]
    simp only [ih]

theorem isSome_placeAfter_of_le {data : Bytes} {m n : Nat} {place : Int} (hmn : m ≤ n)
    (h : (placeAfter data n place).isSome) : (placeAfter data m place).isSome := by
  rw [← Nat.add_sub_cancel' hmn, placeAfter_add] at h
  exact Option.isSome_of_isSome_bind h

theorem unpackFrom?_of_entry {data : Bytes} {place next : Int} {entry : Entry}
    (h : scanAt data place = some ⟨some entry, next⟩) (steps : Nat) (found : List Entry) :
    unpackFrom? data (steps + 1) place found = unpackFrom? data steps next (entry :: found) := by
  rw [unpackFrom?, h]

theorem unpackFrom?_of_none {data : Bytes} {place : Int} (h : scanAt data place = none)
    (steps : Nat) (found : List Entry) :
    unpackFrom? data (steps + 1) place found = some found.reverse := by
  rw [unpackFrom?, h]

/-- A scan is cut off exactly if it finds something at every place that it visits. -/
theorem unpackFrom?_eq_none_iff (data : Bytes) (steps : Nat) (place : Int) (found : List Entry) :
    unpackFrom? data steps place found = none ↔ (placeAfter data steps place).isSome := by
  induction steps generalizing place found with
  | zero => simp [unpackFrom?, placeAfter]
  | succ steps ih =>
    rw [unpackFrom?, placeAfter]
    split
    · rename_i h
      simp [h]
    · rename_i h
      rw [ih, h, Option.bind_some]
    · rename_i h
      rw [ih, h, Option.bind_some]

/-- All places of a scan are whole blocks from its start. -/
theorem dvd_placeAfter {data : Bytes} {steps : Nat} {place next : Int}
    (hd : (blockSize : Int) ∣ place) (h : placeAfter data steps place = some next) :
    (blockSize : Int) ∣ next := by
  induction steps generalizing place with
  | zero => exact Option.some.inj h ▸ hd
  | succ steps ih =>
    obtain ⟨found, hf, h⟩ := Option.bind_eq_some_iff.1 h
    refine ih ?_ h
    rw [(scanAt_eq_some hf).2.2]
    exact Int.dvd_add (Int.dvd_add hd (Int.dvd_refl _)) (dvd_roundUp _)

/-- A scan that comes to a place again comes to it for ever. -/
theorem isSome_placeAfter_of_repeat {data : Bytes} {period : Nat} {place : Int} (hpos : 0 < period)
    (h : placeAfter data period place = some place) (steps : Nat) :
    (placeAfter data steps place).isSome := by
  have hround : ∀ rounds, placeAfter data (rounds * period) place = some place := by
    intro rounds
    induction rounds with
    | zero => rw [Nat.zero_mul, placeAfter]
    | succ rounds ih => rw [Nat.succ_mul, placeAfter_add, ih, Option.bind_some, h]
  exact isSome_placeAfter_of_le (Nat.le_mul_of_pos_right steps hpos) (by rw [hround]; rfl)

/-- A scan that takes more steps than there are places with a header comes to one of them again. -/
theorem exists_repeat_of_isSome {data : Bytes} {steps : Nat}
    (hs : 2 * (data.size / blockSize) + 2 ≤ steps) (h : (placeAfter data steps 0).isSome) :
    ∃ i j place, i < j ∧ placeAfter data i 0 = some place ∧ placeAfter data j 0 = some place := by
  have hplace : ∀ i ∈ Finset.range steps, ∃ block : Int,
      placeAfter data i 0 = some (blockSize * block) ∧
        block ∈ Finset.Icc (-(data.size / blockSize : Int) - 1) (data.size / blockSize - 1) := by
    intro i hi
    obtain ⟨next, hnext⟩ := Option.isSome_iff_exists.1
      (isSome_placeAfter_of_le (Nat.succ_le_of_lt (Finset.mem_range.1 hi)) h)
    rw [Nat.succ_eq_add_one] at hnext
    rw [placeAfter_add] at hnext
    obtain ⟨place, hp, hnext⟩ := Option.bind_eq_some_iff.1 hnext
    obtain ⟨found, hf, -⟩ := Option.bind_eq_some_iff.1 hnext
    obtain ⟨block, rfl⟩ := dvd_placeAfter (Int.dvd_zero _) hp
    exact ⟨block, hp, Finset.mem_Icc.2 (block_bounds hf)⟩
  choose! block hblock hmem using hplace
  -- the places of the first steps are more than there are blocks with a header
  have hcard : (Finset.Icc (-(data.size / blockSize : Int) - 1) (data.size / blockSize - 1)).card <
      (Finset.range steps).card := by
    rw [Int.card_Icc, Finset.card_range]
    omega
  obtain ⟨i, hi, j, hj, hne, he⟩ := Finset.exists_ne_map_eq_of_card_lt_of_maps_to hcard hmem
  rcases Nat.lt_or_gt_of_ne hne with hlt | hlt
  · exact ⟨i, j, _, hlt, hblock i hi, he ▸ hblock j hj⟩
  · exact ⟨j, i, _, hlt, hblock j hj, he ▸ hblock i hi⟩

/-- A scan that comes to one of its places again has no end. -/
theorem isSome_of_exists_repeat {data : Bytes}
    (h : ∃ i j place, i < j ∧ placeAfter data i 0 = some place ∧ placeAfter data j 0 = some place)
    (steps : Nat) : (placeAfter data steps 0).isSome := by
  obtain ⟨i, j, place, hlt, hi, hj⟩ := h
  rw [← Nat.add_sub_cancel' (Nat.le_of_lt hlt), placeAfter_add, hi, Option.bind_some] at hj
  have hever := isSome_placeAfter_of_repeat (Nat.sub_pos_of_lt hlt) hj steps
  refine isSome_placeAfter_of_le (Nat.le_add_left steps i) ?_
  rwa [placeAfter_add, hi, Option.bind_some]

/-- The bound on the blocks visited is never what ends a scan: it is reached only if there is always
something found. -/
theorem unpack?_eq_none_iff (data : Bytes) :
    unpack? data = none ↔ ∀ steps, (placeAfter data steps 0).isSome := by
  rw [unpack?, unpackFrom?_eq_none_iff]
  exact ⟨fun h => isSome_of_exists_repeat (exists_repeat_of_isSome (by omega) h), fun h => h _⟩

theorem unpack?_eq_none_iff_repeat (data : Bytes) :
    unpack? data = none ↔
      ∃ i j place, i < j ∧ placeAfter data i 0 = some place ∧ placeAfter data j 0 = some place := by
  rw [unpack?_eq_none_iff]
  exact ⟨fun h => exists_repeat_of_isSome (Nat.le_refl _) (h _), isSome_of_exists_repeat⟩

/-- The scan visits no place at which the size leads back by a block or more. -/
def KeepsAhead (data : Bytes) : Prop :=
  ∀ steps place found, placeAfter data steps 0 = some place → scanAt data place = some found →
    -(blockSize : Int) < sizeAt data place

theorem KeepsAhead.lt {data : Bytes} (h : KeepsAhead data) {i k : Nat} {place next : Int}
    (hi : placeAfter data i 0 = some place) (hk : placeAfter data (k + 1) place = some next) :
    place < next := by
  induction k generalizing i place with
  | zero =>
    obtain ⟨found, hf, hk⟩ := Option.bind_eq_some_iff.1 hk
    rw [← Option.some.inj hk]
    exact (lt_next_iff hf).2 (h i place found hi hf)
  | succ k ih =>
    obtain ⟨found, hf, hk⟩ := Option.bind_eq_some_iff.1 hk
    have hi' : placeAfter data (i + 1) 0 = some found.next := by
      rw [placeAfter_add, hi, Option.bind_some, placeAfter, hf, Option.bind_some, placeAfter]
    exact Int.lt_trans ((lt_next_iff hf).2 (h i place found hi hf)) (ih hi' hk)

/-- An archive ends where the scan keeps ahead. -/
theorem KeepsAhead.ends {data : Bytes} (h : KeepsAhead data) : unpack? data ≠ none := by
  rw [Ne, unpack?_eq_none_iff_repeat]
  rintro ⟨i, j, place, hlt, hi, hj⟩
  obtain ⟨k, rfl⟩ := Nat.exists_eq_add_of_lt hlt
  rw [Nat.add_assoc, placeAfter_add, hi, Option.bind_some] at hj
  exact Int.lt_irrefl _ (h.lt hi hj)

/-- When the scan of an archive moves ahead and when it ends. It ends with every step moving ahead
exactly if it visits no place where the stated size is `-blockSize` or less, and a single step moves
ahead exactly if the size at its place is above that. Only a minus sign in the size field makes a
size negative. In general a scan ends exactly if it visits no place twice, and `unpack?` gives up no
scan that would end. -/
theorem scan_ahead_iff (data : Bytes) :
    (((∃ entries, unpack? data = some entries) ∧ ∀ steps place found,
        placeAfter data steps 0 = some place → scanAt data place = some found → place < found.next) ↔
      KeepsAhead data) ∧
    (∀ place found, scanAt data place = some found →
      (place < found.next ↔ -(blockSize : Int) < sizeAt data place)) ∧
    (∀ place, sizeAt data place < 0 → (45 : UInt8) ∈ (sizeField data place).toList) ∧
    ((∃ entries, unpack? data = some entries) ↔
      ¬∃ i j place, i < j ∧ placeAfter data i 0 = some place ∧ placeAfter data j 0 = some place) ∧
    (unpack? data = none ↔ ∀ steps, unpackFrom? data steps 0 [] = none) := by
  refine ⟨⟨fun ⟨_, h⟩ steps place found hp hf => (lt_next_iff hf).1 (h steps place found hp hf),
    fun h => ⟨Option.ne_none_iff_exists'.1 h.ends,
      fun steps place found hp hf => (lt_next_iff hf).2 (h steps place found hp hf)⟩⟩,
    fun place found => lt_next_iff, fun place hneg => ?_, ?_, ?_⟩
  · unfold sizeAt at hneg
    split at hneg
    · cases hneg
    · exact minus_mem_of_parseSize_neg hneg
  · rw [← unpack?_eq_none_iff_repeat, ← Ne, Option.ne_none_iff_exists']
  · simp only [unpackFrom?_eq_none_iff, unpack?_eq_none_iff]

/-! ## Sizes that lead back -/

/-- The header of a file `a` whose size field holds the given bytes. -/
def headerStating (size : List UInt8) : List UInt8 :=
  97 :: List.replicate 123 0 ++ size ++ List.replicate (388 - size.length) 0

/-- A header that states `-3000` in octal, and a block of zeros. -/
def doublingArchive : Bytes :=
  (headerStating [45, 51, 48, 48, 48] ++ List.replicate blockSize 0).toArray

/-- A header that states `-1000` in octal. -/
def endlessArchive : Bytes := (headerStating [45, 49, 48, 48, 48]).toArray

/-- What is found at the header of `a` where its size field holds the given bytes. -/
theorem scanAt_headerStating {data : Bytes} {place next size : Int} {digits : List UInt8}
    (hfits : place + blockSize ≤ data.size)
    (h : headerAt data place = (headerStating digits).toArray)
    (hpath : parsePath ((headerStating digits).toArray.extract 0 100) = ['a'])
    (hsize : parseSize ((headerStating digits).toArray.extract 124 136) = size)
    (hflag : isRegularFlag ((headerStating digits).toArray.extract 156 157) = true)
    (hcontent : part data (place + blockSize) (place + blockSize + size) = #[])
    (hnext : place + blockSize + roundUp size = next) :
    scanAt data place = some ⟨some ⟨"a", #[], size⟩, next⟩ := by
  have hzero : (headerStating digits).toArray.all (· == 0) = false := by simp [headerStating]
  rw [scanAt_of_headerAt hfits h hzero (by rw [hpath]; rfl), hpath, hsize, if_pos hflag, hcontent,
    hnext]

theorem extract_doublingArchive :
    doublingArchive.extract 0 512 = (headerStating [45, 51, 48, 48, 48]).toArray := by
  have hlength : (headerStating [45, 51, 48, 48, 48]).length = 512 - 0 := by decide +kernel
  rw [doublingArchive, List.extract_toArray, List.extract_eq_take_drop, List.drop_zero, ← hlength,
    List.take_left]

theorem size_doublingArchive : doublingArchive.size = 1024 := by decide +kernel

/-- Where the header of `doublingArchive` stands, its file is found and the scan goes back by two
blocks. -/
theorem scanAt_doublingArchive {place next : Int} (hfits : place + blockSize ≤ 1024)
    (h : headerAt doublingArchive place = (headerStating [45, 51, 48, 48, 48]).toArray)
    (hcontent : part doublingArchive (place + blockSize) (place + blockSize + -1536) = #[])
    (hnext : place + blockSize + roundUp (-1536) = next) :
    scanAt doublingArchive place = some ⟨some ⟨"a", #[], -1536⟩, next⟩ := by
  have hstated : parseSize ((headerStating [45, 51, 48, 48, 48]).toArray.extract 124 136) = -1536 := by
    decide +kernel
  refine scanAt_headerStating ?_ h (by decide +kernel) hstated (by decide +kernel) hcontent hnext
  rw [size_doublingArchive]
  exact hfits

theorem scanAt_endlessArchive : scanAt endlessArchive 0 = some ⟨some ⟨"a", #[], -512⟩, 0⟩ := by
  have hsize : endlessArchive.size = 512 := by decide +kernel
  have hheader : headerAt endlessArchive 0 = endlessArchive := by
    rw [headerAt, part, hsize]
    exact Array.extract_eq_self_of_le (Nat.le_of_eq hsize)
  have hpath : parsePath (endlessArchive.extract 0 100) = ['a'] := by decide +kernel
  have hstated : parseSize (endlessArchive.extract 124 136) = -512 := by decide +kernel
  refine scanAt_headerStating ?_ hheader hpath hstated (by decide +kernel) (by decide +kernel)
    (by decide)
  rw [hsize]
  decide

/-- A size that leads back makes the scan find a file twice, or never end. -/
theorem scan_leads_back :
    placeAfter doublingArchive 1 0 = some (-1024) ∧
      unpack? doublingArchive = some [⟨"a", #[], -1536⟩, ⟨"a", #[], -1536⟩] ∧
      unpack? endlessArchive = none := by
  have hfirst : scanAt doublingArchive 0 = some ⟨some ⟨"a", #[], -1536⟩, -1024⟩ := by
    refine scanAt_doublingArchive (by decide) ?_ (by decide +kernel) (by decide)
    rw [headerAt, part, size_doublingArchive]
    exact extract_doublingArchive
  have hsecond : scanAt doublingArchive (-1024) = some ⟨some ⟨"a", #[], -1536⟩, -2048⟩ := by
    refine scanAt_doublingArchive (by decide) ?_ (by decide +kernel) (by decide)
    rw [headerAt, part, size_doublingArchive]
    exact extract_doublingArchive
  have hlast : scanAt doublingArchive (-2048) = none := by decide +kernel
  have hsteps : 2 * (doublingArchive.size / blockSize) + 4 = 8 := by rw [size_doublingArchive]; rfl
  refine ⟨?_, ?_, ?_⟩
  · simp only [placeAfter, hfirst, Option.bind_some]
  · rw [unpack?, hsteps, unpackFrom?_of_entry hfirst, unpackFrom?_of_entry hsecond,
      unpackFrom?_of_none hlast]
    rfl
  · -- the header leads back to itself
    rw [unpack?_eq_none_iff_repeat]
    refine ⟨0, 1, 0, Nat.zero_lt_one, by rw [placeAfter], ?_⟩
    simp only [placeAfter, scanAt_endlessArchive, Option.bind_some]

end ReleasePrompts.Archive
