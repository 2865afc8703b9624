import ReleasePrompts.Proofs.Archive.Decompression
import ReleasePrompts.Proofs.Archive.Members

/-!
# Bytes that are stored

A gzip member may hold bytes as they are, which is how `store` wraps them. Readers that take whole
bytes are followed through it byte by byte (`Bits.between`): the numbers in it are read as they were
written (`number_lowBytes`), and so each part of the member leads to the next. `decompress` gives back
bytes that one block holds (`decompress_store`).
-/

namespace ReleasePrompts.Archive

open Inflater

variable {bits : Bits} {taken behind : List UInt8} {byte : UInt8}

/-! ## Whole bytes -/

theorem bitAt_of_bytes {bit : Nat} (hbytes : bits.bytes = (taken ++ byte :: behind).toArray)
    (hbit : bit < 8) : bits.bitAt (8 * taken.length + bit) = byte.toNat / 2 ^ bit % 2 := by
  have hplace : (8 * taken.length + bit) / 8 = taken.length := by omega
  have hrest : (8 * taken.length + bit) % 8 = bit := by omega
  simp [Bits.bitAt, hplace, hrest, hbytes, Nat.shiftRight_eq_div_pow, Array.getD_eq_getD_getElem?]

/-- Bits of one byte spell the number that they spell in that byte. -/
theorem numberAt_within {count bit : Nat} (hbytes : bits.bytes = (taken ++ byte :: behind).toArray)
    (hcount : bit + count ≤ 8) :
    bits.numberAt count (8 * taken.length + bit) = byte.toNat / 2 ^ bit % 2 ^ count := by
  induction count generalizing bit with
  | zero => exact (Nat.mod_one _).symm
  | succ count ih =>
    have hrest := ih (show bit + 1 + count ≤ 8 by omega)
    rw [Bits.numberAt, bitAt_of_bytes hbytes (by omega), Nat.add_assoc, hrest, Nat.pow_succ,
      ← Nat.div_div_eq_div_mul, Nat.pow_succ', Nat.mod_mul]

theorem numberAt_add (m n place : Nat) :
    bits.numberAt (m + n) place = bits.numberAt m place + 2 ^ m * bits.numberAt n (place + m) := by
  induction m generalizing place with
  | zero => simp [Bits.numberAt]
  | succ m ih =>
    rw [Nat.succ_add, Bits.numberAt, ih, Bits.numberAt, Nat.pow_succ', Nat.mul_add, Nat.mul_assoc,
      Nat.add_assoc, Nat.add_assoc, Nat.add_comm 1 m]

/-- Eight bits from the beginning of a byte on are the bits of that byte. -/
theorem numberAt_of_bytes (hbytes : bits.bytes = (taken ++ byte :: behind).toArray) (count : Nat) :
    bits.numberAt (count + 8) (8 * taken.length) =
      byte.toNat + 256 * bits.numberAt count (8 * taken.length + 8) := by
  have hbyte : bits.numberAt 8 (8 * taken.length) = byte.toNat := by
    have h := @numberAt_within bits taken behind byte 8 0 hbytes (by decide)
    rw [Nat.pow_zero, Nat.div_one, Nat.mod_eq_of_lt byte.toNat_lt] at h
    exact h
  rw [Nat.add_comm, numberAt_add, hbyte]
  rfl

theorem length_lowBytes (width n : Nat) : (lowBytes width n).length = width := by
  induction width generalizing n with
  | zero => rfl
  | succ width ih => rw [lowBytes, List.length_cons, ih]

theorem numberAt_lowBytes (width n : Nat)
    (hbytes : bits.bytes = (taken ++ lowBytes width n ++ behind).toArray) :
    bits.numberAt (8 * width) (8 * taken.length) = n % 256 ^ width := by
  induction width generalizing taken n with
  | zero => exact (Nat.mod_one n).symm
  | succ width ih =>
    have hbyte : (UInt8.ofNat (n % 256)).toNat = n % 256 := by simp
    have hrest := @ih (taken ++ [UInt8.ofNat (n % 256)]) (n / 256) (by simp [hbytes, lowBytes])
    rw [List.length_append, List.length_singleton, Nat.mul_succ] at hrest
    rw [lowBytes, List.append_assoc, List.cons_append] at hbytes
    rw [Nat.mul_succ, numberAt_of_bytes hbytes, hbyte, hrest, Nat.pow_succ', Nat.mod_mul]

/-- Bytes of which some have been taken, all their bits and no others. -/
def Bits.between (taken behind : List UInt8) : Bits := ⟨(taken ++ behind).toArray, 8 * taken.length⟩

theorem left_between : (Bits.between taken behind).left = 8 * behind.length := by
  simp only [Bits.between, Bits.left, List.size_toArray, List.length_append]
  omega

theorem bytesTouched_between : (Bits.between taken behind).bytesTouched = taken.length := by
  simp only [Bits.between, Bits.bytesTouched]
  omega

theorem number_eq {count : Nat} (h : bits.taken + count ≤ 8 * bits.bytes.size) :
    BitReader.number count bits =
      .ok (bits.numberAt count bits.taken, { bits with taken := bits.taken + count }) := by
  have hleft : ¬bits.left < count := by
    rw [Bits.left]
    omega
  rw [BitReader.number, if_neg hleft]

/-- A number is read as it was written. -/
theorem number_lowBytes (width n : Nat) :
    BitReader.number (8 * width) (.between taken (lowBytes width n ++ behind)) =
      .ok (n % 256 ^ width, .between (taken ++ lowBytes width n) behind) := by
  have hlength := length_lowBytes width n
  have hfits : (Bits.between taken (lowBytes width n ++ behind)).taken + 8 * width ≤
      8 * (Bits.between taken (lowBytes width n ++ behind)).bytes.size := by
    simp only [Bits.between, List.size_toArray, List.length_append]
    omega
  have hnumber : (Bits.between taken (lowBytes width n ++ behind)).numberAt (8 * width)
      (8 * taken.length) = n % 256 ^ width :=
    numberAt_lowBytes width n (by rw [Bits.between, List.append_assoc])
  have hafter : Bits.between (taken ++ lowBytes width n) behind =
      ⟨(taken ++ (lowBytes width n ++ behind)).toArray, 8 * taken.length + 8 * width⟩ := by
    rw [Bits.between, List.append_assoc, List.length_append, hlength, Nat.mul_add]
  rw [number_eq hfits, hafter]
  exact congrArg (fun value => Except.ok (value, _)) hnumber

theorem skip_between (bytes : List UInt8) :
    BitReader.skip (8 * bytes.length) (.between taken (bytes ++ behind)) =
      .ok ((), .between (taken ++ bytes) behind) := by
  have hleft : ¬(Bits.between taken (bytes ++ behind)).left < 8 * bytes.length := by
    rw [left_between, List.length_append]
    omega
  rw [BitReader.skip, if_neg hleft]
  simp [Bits.between, Nat.mul_add]

theorem skipToByte_between :
    BitReader.skipToByte (.between taken behind) = .ok ((), .between taken behind) := by
  rw [BitReader.skipToByte, bytesTouched_between]
  rfl

/-! ## The parts of a member -/

/-- What a member begins with that has no fields beyond those it must have. -/
def plainHeader : List UInt8 := [0x1f, 0x8b, 8, 0, 0, 0, 0, 0, 0, 255]

theorem readHeader_plainHeader :
    readHeader (.between [] (plainHeader ++ behind)) = .ok ((), .between plainHeader behind) := by
  unfold readHeader
  refine Takes.bind_eq_ok.mpr ⟨_, _, rfl, ?_⟩
  refine Takes.bind_eq_ok.mpr ⟨_, _, number_lowBytes 2 0x8B1F, ?_⟩
  refine Takes.bind_eq_ok.mpr ⟨_, _, number_lowBytes 2 8, ?_⟩
  exact Takes.bind_eq_ok.mpr ⟨_, _, skip_between [0, 0, 0, 0, 0, 255], rfl⟩

/-- What stands before stored bytes that are the last of a member. -/
def lastBlockHeader (size : Nat) : List UInt8 :=
  1 :: (lowBytes 2 size ++ lowBytes 2 (storedSize - size))

/-- The first bits of that byte say that there is no other block, and that the bytes of this one are
stored; its other bits say nothing. -/
theorem number_lastStored (taken behind : List UInt8) :
    let bytes := (taken ++ 1 :: behind).toArray
    BitReader.number 1 (.between taken (1 :: behind)) = .ok (1, ⟨bytes, 8 * taken.length + 1⟩) ∧
      BitReader.number 2 ⟨bytes, 8 * taken.length + 1⟩ = .ok (0, ⟨bytes, 8 * taken.length + 3⟩) ∧
      BitReader.skipToByte ⟨bytes, 8 * taken.length + 3⟩ = .ok ((), .between (taken ++ [1]) behind) := by
  intro bytes
  have hsize : 8 * taken.length + 8 ≤ 8 * bytes.size := by
    simp [bytes]
    omega
  have hlast : (⟨bytes, 8 * taken.length⟩ : Bits).numberAt 1 (8 * taken.length) = 1 :=
    @numberAt_within _ taken behind 1 1 0 rfl (by decide)
  have hkind : (⟨bytes, 8 * taken.length + 1⟩ : Bits).numberAt 2 (8 * taken.length + 1) = 0 :=
    @numberAt_within _ taken behind 1 2 1 rfl (by decide)
  refine ⟨?_, ?_, ?_⟩
  · refine (number_eq (show 8 * taken.length + 1 ≤ 8 * bytes.size by omega)).trans ?_
    exact congrArg (fun value => Except.ok (value, _)) hlast
  · refine (number_eq (show 8 * taken.length + 1 + 2 ≤ 8 * bytes.size by omega)).trans ?_
    exact congrArg (fun value => Except.ok (value, _)) hkind
  · have hplace : (8 * taken.length + 3 + 7) / 8 = taken.length + 1 := by omega
    simp [BitReader.skipToByte, Bits.bytesTouched, hplace, Bits.between, bytes]

theorem readBlockHeader_lastBlockHeader {size : Nat} (h : size ≤ storedSize) :
    readBlockHeader (.between taken (lastBlockHeader size ++ behind)) =
      .ok (.stored size true, .between (taken ++ lastBlockHeader size) behind) := by
  have hsize : size % 256 ^ 2 = size := Nat.mod_eq_of_lt (Nat.lt_succ_of_le h)
  have hother : (storedSize - size) % 256 ^ 2 = storedSize - size :=
    Nat.mod_eq_of_lt (Nat.lt_succ_of_le (Nat.sub_le _ _))
  have hcomplement : size + (storedSize - size) = 0xFFFF := Nat.add_sub_cancel' h
  have htaken : taken ++ lastBlockHeader size =
      taken ++ [1] ++ lowBytes 2 size ++ lowBytes 2 (storedSize - size) := by
    simp [lastBlockHeader]
  obtain ⟨hlast, hkind, hskip⟩ :=
    number_lastStored taken (lowBytes 2 size ++ (lowBytes 2 (storedSize - size) ++ behind))
  rw [htaken, lastBlockHeader, List.cons_append, List.append_assoc]
  unfold readBlockHeader
  refine Takes.bind_eq_ok.mpr ⟨_, _, hlast, ?_⟩
  refine Takes.bind_eq_ok.mpr ⟨_, _, hkind, ?_⟩
  refine Takes.bind_eq_ok.mpr ⟨_, _, hskip, ?_⟩
  refine Takes.bind_eq_ok.mpr ⟨_, _, number_lowBytes 2 size, ?_⟩
  refine Takes.bind_eq_ok.mpr ⟨_, _, number_lowBytes 2 (storedSize - size), ?_⟩
  rw [hsize, hother, if_neg (not_not_intro hcomplement)]
  rfl

theorem readTrailer_lowBytes (output : Bytes) :
    readTrailer output (.between taken
        (lowBytes 4 (checksum output) ++ (lowBytes 4 output.size ++ behind))) =
      .ok ((), .between (taken ++ lowBytes 4 (checksum output) ++ lowBytes 4 output.size) behind) := by
  have hchecksum : checksum output % 256 ^ 4 = checksum output :=
    Nat.mod_eq_of_lt (UInt32.toNat_lt _)
  unfold readTrailer
  refine Takes.bind_eq_ok.mpr ⟨_, _, skipToByte_between, ?_⟩
  refine Takes.bind_eq_ok.mpr ⟨_, _, number_lowBytes 4 (checksum output), ?_⟩
  rw [hchecksum, if_neg (not_not_intro rfl)]
  refine Takes.bind_eq_ok.mpr ⟨_, _, number_lowBytes 4 output.size, ?_⟩
  have hsize : ¬output.size % 256 ^ 4 ≠ output.size % 0x100000000 := not_not_intro rfl
  rw [if_neg hsize]
  rfl

/-! ## Members of one block -/

section

variable {limit steps : Nat} {inflater next : Inflater} {output : Bytes}

theorem runSteps_of_step (h : inflater.step limit = (next, none)) :
    inflater.runSteps limit (steps + 1) = next.runSteps limit steps := by
  rw [runSteps, h]

theorem advance_of_ok {reader : BitReader Stage} {stage : Stage} {after : Bits}
    (h : reader inflater.bits = .ok (stage, after)) :
    inflater.advance reader = ({ inflater with bits := after, stage }, none) := by
  simp only [advance, h]

theorem step_header : step limit ⟨.between [] (plainHeader ++ behind), output, .header⟩ =
    (⟨.between plainHeader behind, output, .blockHeader⟩, none) := by
  have hread : (do readHeader; return Stage.blockHeader : BitReader Stage)
      (.between [] (plainHeader ++ behind)) = .ok (.blockHeader, .between plainHeader behind) :=
    Takes.bind_eq_ok.mpr ⟨_, _, readHeader_plainHeader, rfl⟩
  rw [step]
  exact advance_of_ok hread

theorem step_blockHeader {size : Nat} (h : size ≤ storedSize) :
    step limit ⟨.between taken (lastBlockHeader size ++ behind), output, .blockHeader⟩ =
      (⟨.between (taken ++ lastBlockHeader size) behind, output, .stored size true⟩, none) :=
  advance_of_ok (readBlockHeader_lastBlockHeader h)

theorem step_trailer :
    step limit ⟨.between taken (lowBytes 4 (checksum output) ++ (lowBytes 4 output.size ++ behind)),
        output, .trailer⟩ =
      (⟨.between (taken ++ lowBytes 4 (checksum output) ++ lowBytes 4 output.size) behind, output,
        .finished⟩, none) := by
  have hread : (do readTrailer output; return Stage.finished : BitReader Stage)
      (.between taken (lowBytes 4 (checksum output) ++ (lowBytes 4 output.size ++ behind))) =
        .ok (.finished,
          .between (taken ++ lowBytes 4 (checksum output) ++ lowBytes 4 output.size) behind) :=
    Takes.bind_eq_ok.mpr ⟨_, _, readTrailer_lowBytes output, rfl⟩
  rw [step]
  exact advance_of_ok hread

/-- Stored bytes are written at once where there is room for them. -/
theorem step_stored_between (hroom : output.size < limit) (hpos : 0 < output.size) :
    step limit ⟨.between taken (output.toList ++ behind), #[], .stored output.size true⟩ =
      (⟨.between (taken ++ output.toList) behind, output, .stored 0 true⟩, none) := by
  have hsize : (Bits.between taken (output.toList ++ behind)).bytes.size =
      taken.length + output.size + behind.length := by
    simp [Bits.between, Nat.add_assoc]
  have hamount : output.size = min (min output.size (limit - (#[] : Bytes).size))
      ((Bits.between taken (output.toList ++ behind)).bytes.size -
        (Bits.between taken (output.toList ++ behind)).bytesTouched) := by
    rw [hsize, bytesTouched_between]
    simp
    omega
  have hbytes : (Bits.between taken (output.toList ++ behind)).bytes.extract taken.length
      (taken.length + output.size) = output := by
    rw [Bits.between, ← List.append_assoc]
    exact extract_append rfl rfl
  rw [step_stored (Nat.lt_of_le_of_lt (Nat.zero_le _) hroom) hpos hamount, bytesTouched_between,
    hbytes, Array.empty_append, Nat.sub_self]
  simp [Bits.between, Nat.mul_add]

/-- Behind the headers a stream is written and ends in four steps more. -/
theorem runSteps_stored (hroom : output.size < limit) : ∃ bits, runSteps limit (steps + 4)
    ⟨.between taken (output.toList ++ (lowBytes 4 (checksum output) ++ (lowBytes 4 output.size ++
      behind))), #[], .stored output.size true⟩ = (⟨bits, output, .finished⟩, .finished) := by
  have hend (steps : Nat) (taken : List UInt8) : ∃ bits, runSteps limit (steps + 3)
      ⟨.between taken (lowBytes 4 (checksum output) ++ (lowBytes 4 output.size ++ behind)), output,
        .stored 0 true⟩ = (⟨bits, output, .finished⟩, .finished) := by
    have hended {bits : Bits} : runSteps limit (steps + 1) ⟨bits, output, .finished⟩ =
        (⟨bits, output, .finished⟩, .finished) := by
      rw [runSteps, step_finished rfl]
    exact ⟨_, (runSteps_of_step rfl).trans ((runSteps_of_step step_trailer).trans hended)⟩
  obtain hempty | hpos := Nat.eq_zero_or_pos output.size
  · obtain rfl := Array.size_eq_zero_iff.mp hempty
    exact hend (steps + 1) taken
  · rw [runSteps_of_step (step_stored_between hroom hpos)]
    exact hend steps _

end

theorem store_eq {bytes : Bytes} (h : bytes.size ≤ storedSize) : store bytes =
    (plainHeader ++ (lastBlockHeader bytes.size ++ (bytes.toList ++
      (lowBytes 4 (checksum bytes) ++ (lowBytes 4 bytes.size ++ []))))).toArray := by
  have hblocks : max 1 ((bytes.size + storedSize - 1) / storedSize) = 1 := by
    rw [storedSize] at h ⊢
    omega
  have hpart : bytes.extract 0 (0 + storedSize) = bytes := by
    rw [Nat.zero_add]
    exact Array.extract_eq_self_of_le h
  rw [store, hblocks, storedBlocks, hpart, storedBlocks]
  simp [plainHeader, lastBlockHeader]

/-- Bytes that one block holds are given back as they were. -/
theorem decompress_store {bytes : Bytes} (h : bytes.size ≤ storedSize) :
    decompress (store bytes) none = .ok bytes := by
  have hroom : bytes.size < (ofBytes (store bytes)).output.size + pieceSize :=
    Nat.lt_of_lt_of_le (Nat.lt_of_le_of_lt h (by decide)) (Nat.le_add_left _ _)
  have hstream : ofBytes (store bytes) = ⟨.between [] (plainHeader ++ (lastBlockHeader bytes.size ++
      (bytes.toList ++ (lowBytes 4 (checksum bytes) ++ (lowBytes 4 bytes.size ++ []))))), #[],
      .header⟩ := by
    rw [store_eq h]
    rfl
  have hrun : ∃ bits, (ofBytes (store bytes)).run ((ofBytes (store bytes)).output.size + pieceSize) =
      (⟨bits, bytes, .finished⟩, .finished) := by
    have hsteps : (ofBytes (store bytes)).stepBound =
        4 * (ofBytes (store bytes)).bits.left + 2 + 4 + 1 + 1 := rfl
    generalize (ofBytes (store bytes)).output.size + pieceSize = limit at hroom
    rw [run, hsteps, hstream, runSteps_of_step step_header, runSteps_of_step (step_blockHeader h)]
    exact runSteps_stored hroom
  obtain ⟨bits, hrun⟩ := hrun
  have hbusy : (ofBytes (store bytes)).bits.bytesTouched < (ofBytes (store bytes)).bits.bytes.size := by
    rw [hstream, bytesTouched_between]
    simp [Bits.between, plainHeader]
  have hpiece := @inflatePieces_piece none _ (8 * (store bytes).size + 1) _ _ hbusy hrun
    fun _ => Rest.noConfusion
  exact decompress_eq_ok_iff.mpr ⟨_, hpiece, rfl, rfl, rfl⟩

end ReleasePrompts.Archive
