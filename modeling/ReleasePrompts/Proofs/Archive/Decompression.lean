import ReleasePrompts.Archive.Pack
import ReleasePrompts.Proofs.Archive.Inflating
import ReleasePrompts.Service.Load

/-!
# What decompression accepts

The input of a gzip stream is taken in piece after piece (`TakenIn`), and what is flushed behind it
never ends a stream, since the trailer takes more bits than can be left then
(`flush_of_inflatePieces`). So decompression succeeds exactly if the stream has ended when its input
is taken in (`decompress_eq_ok_iff`). From this follow that a limit is exact (`decompress_limit`) and
that nothing but the whole of a stream is accepted, whatever stands behind it (`decompress_prefix`).
The bounds on room and pieces in the definitions stop no stream (`flush_ne_full`,
`inflatePieces_enough`).
-/

namespace ReleasePrompts.Archive

open Inflater

variable {limit : Option Int} {inflater after : Inflater} {pieces : Nat}

/-! ## Pieces -/

theorem inflatePieces_idle (h : inflater.bits.bytes.size ≤ inflater.bits.bytesTouched) :
    inflatePieces limit (pieces + 1) inflater = .ok inflater := by
  rw [inflatePieces, if_pos h]

theorem inflatePieces_failed {next : Inflater} {fault : StreamFault}
    (h : inflater.bits.bytesTouched < inflater.bits.bytes.size)
    (hrun : inflater.run (inflater.output.size + pieceSize) = (next, .failed fault)) :
    inflatePieces limit (pieces + 1) inflater = .error (.invalid fault) := by
  rw [inflatePieces, if_neg (Nat.not_le_of_lt h), hrun]

/-- What a piece leads to where no fault ends it. -/
theorem inflatePieces_piece {next : Inflater} {rest : Rest}
    (h : inflater.bits.bytesTouched < inflater.bits.bytes.size)
    (hrun : inflater.run (inflater.output.size + pieceSize) = (next, rest))
    (hrest : ∀ fault, rest ≠ .failed fault) :
    inflatePieces limit (pieces + 1) inflater =
      if exceeds limit next.output.size then .error (.tooLarge (limit.getD 0))
      else if rest = .full then inflatePieces limit pieces next
      else .ok next := by
  rw [inflatePieces, if_neg (Nat.not_le_of_lt h), hrun]
  cases rest with
  | failed fault => exact absurd rfl (hrest fault)
  | _ => rfl

/-- The ways in which the input is taken in: there is none, or a piece is written, and then the input
is taken in or the next piece is written. -/
inductive TakenIn (limit : Option Int) (pieces : Nat) (inflater after : Inflater) : Prop
  | idle (h : inflater.bits.bytes.size ≤ inflater.bits.bytesTouched) (heq : after = inflater)
  | piece {next : Inflater} {rest : Rest}
      (h : inflater.bits.bytesTouched < inflater.bits.bytes.size)
      (hrun : inflater.run (inflater.output.size + pieceSize) = (next, rest))
      (hruns : RunsTo (inflater.output.size + pieceSize) inflater next rest)
      (hrest : ∀ fault, rest ≠ .failed fault) (hsize : exceeds limit next.output.size = false)
      (hnext : (if rest = .full then inflatePieces limit pieces next else .ok next) = .ok after)

theorem takenIn_of_inflatePieces (hsound : inflater.Sound)
    (h : inflatePieces limit (pieces + 1) inflater = .ok after) :
    TakenIn limit pieces inflater after := by
  by_cases hidle : inflater.bits.bytes.size ≤ inflater.bits.bytesTouched
  · rw [inflatePieces_idle hidle] at h
    exact .idle hidle (Except.ok.inj h).symm
  have hbusy := Nat.lt_of_not_le hidle
  cases hrun : inflater.run (inflater.output.size + pieceSize) with
  | mk next rest =>
    by_cases hfault : ∃ fault, rest = .failed fault
    · obtain ⟨fault, rfl⟩ := hfault
      rw [inflatePieces_failed hbusy hrun] at h
      cases h
    have hrest (fault : StreamFault) : rest ≠ .failed fault := fun heq => hfault ⟨fault, heq⟩
    rw [inflatePieces_piece hbusy hrun hrest] at h
    split at h
    · cases h
    · rename_i hsize
      exact .piece hbusy hrun (runsTo_of_run hsound hrun) hrest (eq_false_of_ne_true hsize) h

theorem output_le_inflatePieces (hsound : inflater.Sound)
    (h : inflatePieces limit pieces inflater = .ok after) :
    inflater.output.size ≤ after.output.size := by
  induction pieces generalizing inflater with
  | zero => cases h
  | succ pieces ih =>
    cases takenIn_of_inflatePieces hsound h with
    | idle _ heq => exact Nat.le_of_eq (congrArg (·.output.size) heq.symm)
    | piece _ _ hruns _ _ hnext =>
      split at hnext
      · exact Nat.le_trans hruns.output_le (ih hruns.sound hnext)
      · cases hnext
        exact hruns.output_le

theorem inflatePieces_finished (hstage : inflater.stage = .finished)
    (hsize : exceeds limit inflater.output.size = false) :
    inflatePieces limit (pieces + 1) inflater = .ok inflater := by
  by_cases hidle : inflater.bits.bytes.size ≤ inflater.bits.bytesTouched
  · exact inflatePieces_idle hidle
  · rw [inflatePieces_piece (Nat.lt_of_not_le hidle) (run_of_step (step_finished hstage))
      fun _ => Rest.noConfusion, hsize]
    rfl

/-! ## Streams that end -/

/-- Flushing ends no stream that had not ended when its input was taken in. -/
theorem flush_of_inflatePieces {taken ended : Inflater} (hsound : inflater.Sound)
    (h : inflatePieces limit pieces inflater = .ok taken) (hflush : taken.flush = (ended, .finished)) :
    taken.stage = .finished := by
  induction pieces generalizing inflater with
  | zero => cases h
  | succ pieces ih =>
    cases takenIn_of_inflatePieces hsound h with
    | idle hidle heq =>
      subst heq
      -- less than a byte is left, and the trailer takes eight
      have hleft : taken.bits.left < 64 := by
        simp only [Bits.left, Bits.bytesTouched] at hidle ⊢
        omega
      exact Decidable.byContradiction fun hstage => run_unfinished hsound hstage hleft hflush
    | piece _ _ hruns hrest _ hnext =>
      split at hnext
      · exact ih hruns.sound hnext
      · rename_i hfull
        cases hnext
        cases hruns.rests with
        | finished hstage => exact hstage
        | full _ _ => exact absurd rfl hfull
        | starved hstarved =>
          have hroom : taken.output.size <
              taken.output.size + maxCopy * (taken.bits.left + 1) + 1 := by omega
          rw [flush, run_of_step (hstarved _ hroom)] at hflush
          cases hflush
        | failed fault => exact absurd rfl (hrest fault)

/-- Decompression succeeds where the stream has ended when its input is taken in. -/
theorem decompress_eq_ok_iff {data out : Bytes} : decompress data limit = .ok out ↔
    ∃ taken, inflatePieces limit (8 * data.size + 2) (.ofBytes data) = .ok taken ∧
      taken.stage = .finished ∧ exceeds limit out.size = false ∧ taken.output = out := by
  constructor
  · intro h
    unfold decompress at h
    split at h
    · cases h
    rename_i taken hpieces
    split at h
    · rename_i ended hflush
      have hstage := flush_of_inflatePieces (sound_ofBytes data) hpieces hflush
      rw [flush, run_of_step (step_finished hstage)] at hflush
      cases hflush
      split at h
      · cases h
      · rename_i hsize
        cases h
        exact ⟨taken, hpieces, hstage, eq_false_of_ne_true hsize, rfl⟩
    · cases h
  · rintro ⟨taken, hpieces, hstage, hsize, rfl⟩
    have hflush : taken.flush = (taken, .finished) := run_of_step (step_finished hstage)
    simp only [decompress, hpieces, hflush, hsize]
    rfl

/-- The bytes `hi`, held by a stream as they are. -/
theorem decompress_hi : decompress (store #[104, 105]) none = .ok #[104, 105] := by
  have hchecked : (decompress (store #[104, 105]) none).toOption = some #[104, 105] := by
    decide +kernel
  cases h : decompress (store #[104, 105]) none with
  | error fault =>
    rw [h] at hchecked
    cases hchecked
  | ok out =>
    rw [h] at hchecked
    exact congrArg Except.ok (Option.some.inj hchecked)

/-! ## Limits -/

theorem exceeds_natCast (m size : Nat) : exceeds (some (m : Int)) size = decide (m < size) := by
  simp [exceeds]

/-- What is taken in within a limit is taken in without one. -/
theorem inflatePieces_unlimited (hsound : inflater.Sound)
    (h : inflatePieces limit pieces inflater = .ok after) :
    inflatePieces none pieces inflater = .ok after := by
  induction pieces generalizing inflater with
  | zero => cases h
  | succ pieces ih =>
    cases takenIn_of_inflatePieces hsound h with
    | idle hidle heq => rw [inflatePieces_idle hidle, heq]
    | piece hbusy hrun hruns hrest _ hnext =>
      rw [inflatePieces_piece hbusy hrun hrest]
      split at hnext
      · rename_i hfull
        exact (if_pos hfull).trans (ih hruns.sound hnext)
      · rename_i hfull
        exact (if_neg hfull).trans hnext

/-- What is taken in without a limit is taken in within one if the output then written is. -/
theorem inflatePieces_limited {m : Nat} (hsound : inflater.Sound) (hm : inflater.output.size ≤ m)
    (h : inflatePieces none pieces inflater = .ok after) :
    inflatePieces (some (m : Int)) pieces inflater =
      if after.output.size ≤ m then .ok after else .error (.tooLarge m) := by
  induction pieces generalizing inflater with
  | zero => cases h
  | succ pieces ih =>
    cases takenIn_of_inflatePieces hsound h with
    | idle hidle heq =>
      subst heq
      rw [inflatePieces_idle hidle, if_pos hm]
    | @piece next rest hbusy hrun hruns hrest _ hnext =>
      rw [inflatePieces_piece hbusy hrun hrest, exceeds_natCast]
      have hgrown : next.output.size ≤ after.output.size := by
        split at hnext
        · exact output_le_inflatePieces hruns.sound hnext
        · cases hnext
          exact Nat.le_refl _
      by_cases hover : m < next.output.size
      · rw [decide_eq_true hover, if_pos rfl, if_neg (by omega)]
        rfl
      rw [decide_eq_false hover, if_neg Bool.false_ne_true]
      split at hnext
      · rename_i hfull
        rw [if_pos hfull]
        exact ih hruns.sound (Nat.le_of_not_lt hover) hnext
      · rename_i hfull
        cases hnext
        rw [if_neg hfull, if_pos (Nat.le_of_not_lt hover)]

/-- The limit on the output is exact: within it decompression does what it does without one, and
beyond it the stream is refused as too large, with the limit. -/
theorem decompress_limit (data : Bytes) (m : Nat) :
    (∀ out, decompress data (some m) = .ok out ↔ decompress data none = .ok out ∧ out.size ≤ m) ∧
      ∀ out, decompress data none = .ok out → m < out.size →
        decompress data (some m) = .error (.tooLarge m) ∧
          Service.gzipFailure (.tooLarge m) = .archiveTooLarge
            s!"Decompressed archive exceeds {(m : Int)} bytes" [("limit", .int m)] := by
  have hlimited {taken : Inflater}
      (h : inflatePieces none (8 * data.size + 2) (.ofBytes data) = .ok taken) :=
    inflatePieces_limited (sound_ofBytes data) (Nat.zero_le m) h
  refine ⟨fun out => ⟨fun h => ?_, fun ⟨h, hle⟩ => ?_⟩, fun out h hlt => ⟨?_, rfl⟩⟩
  · obtain ⟨taken, hpieces, hstage, hsize, hout⟩ := decompress_eq_ok_iff.mp h
    rw [exceeds_natCast, decide_eq_false_iff_not, Nat.not_lt] at hsize
    refine ⟨decompress_eq_ok_iff.mpr ⟨taken, ?_, hstage, rfl, hout⟩, hsize⟩
    exact inflatePieces_unlimited (sound_ofBytes data) hpieces
  · obtain ⟨taken, hpieces, hstage, -, rfl⟩ := decompress_eq_ok_iff.mp h
    refine decompress_eq_ok_iff.mpr ⟨taken, ?_, hstage, ?_, rfl⟩
    · rw [hlimited hpieces, if_pos hle]
    · rw [exceeds_natCast, decide_eq_false (Nat.not_lt_of_le hle)]
  · obtain ⟨taken, hpieces, -, -, rfl⟩ := decompress_eq_ok_iff.mp h
    have herror := hlimited hpieces
    rw [if_neg (Nat.not_le_of_lt hlt)] at herror
    simp only [decompress, herror]

/-- Two bytes are within a limit of two and beyond one of one. -/
theorem decompress_limit_hi :
    decompress (store #[104, 105]) (some (2 : Nat)) = .ok #[104, 105] ∧
      decompress (store #[104, 105]) (some (1 : Nat)) = .error (.tooLarge (1 : Nat)) := by
  obtain ⟨hwithin, -⟩ := decompress_limit (store #[104, 105]) 2
  obtain ⟨-, hbeyond⟩ := decompress_limit (store #[104, 105]) 1
  exact ⟨(hwithin _).mpr ⟨decompress_hi, by decide⟩, (hbeyond _ decompress_hi (by decide)).1⟩

/-! ## What stands behind a stream -/

/-- An input that is taken in up to the end of the stream is taken in as far with more bytes behind
it. -/
theorem inflatePieces_extend {enough : Nat} (hle : pieces ≤ enough) (hsound : inflater.Sound)
    (h : inflatePieces limit pieces inflater = .ok after) (hstage : after.stage = .finished)
    (hsize : exceeds limit after.output.size = false) (more : Bytes) :
    inflatePieces limit enough (inflater.extend more) = .ok (after.extend more) := by
  induction pieces generalizing inflater enough with
  | zero => cases h
  | succ pieces ih =>
    obtain ⟨enough, rfl⟩ := Nat.exists_eq_succ_of_ne_zero (Nat.ne_zero_of_lt hle)
    cases takenIn_of_inflatePieces hsound h with
    | idle _ heq =>
      subst heq
      exact inflatePieces_finished hstage hsize
    | @piece next rest hbusy hrun hruns hrest hnextsize hnext =>
      have hmore : (inflater.extend more).bits.bytesTouched <
          (inflater.extend more).bits.bytes.size := by
        show inflater.bits.bytesTouched < (inflater.bits.bytes ++ more).size
        rw [Array.size_append]
        omega
      have hnextmore : exceeds limit (next.extend more).output.size = false := hnextsize
      split at hnext
      · rename_i hfull
        rw [inflatePieces_piece hmore (run_extend (.inr hfull) hsound hrun more) hrest, hnextmore,
          if_neg Bool.false_ne_true, if_pos hfull]
        exact ih (Nat.le_of_succ_le_succ hle) hruns.sound hnext
      · rename_i hfull
        cases hnext
        have hfinished : rest = .finished := by
          cases hruns.rests with
          | finished _ => rfl
          | full _ _ => exact absurd rfl hfull
          | starved hstarved =>
            have hstep := hstarved _ (Nat.lt_succ_self _)
            rw [step_finished hstage] at hstep
            cases hstep
          | failed fault => exact absurd rfl (hrest fault)
        rw [inflatePieces_piece hmore (run_extend (.inl hfinished) hsound hrun more) hrest, hnextmore,
          if_neg Bool.false_ne_true, if_neg hfull]

/-- Bytes behind a stream do not matter. -/
theorem decompress_append {data out : Bytes} (h : decompress data limit = .ok out) (more : Bytes) :
    decompress (data ++ more) limit = .ok out := by
  obtain ⟨taken, hpieces, hstage, hsize, rfl⟩ := decompress_eq_ok_iff.mp h
  refine decompress_eq_ok_iff.mpr ⟨taken.extend more, ?_, hstage, hsize, rfl⟩
  have hle : 8 * data.size + 2 ≤ 8 * (data ++ more).size + 2 := by
    rw [Array.size_append]
    omega
  exact inflatePieces_extend hle (sound_ofBytes data) hpieces hstage hsize more

/-- Without a limit nothing is too large. -/
theorem inflatePieces_ne_tooLarge (m : Int) :
    inflatePieces none pieces inflater ≠ .error (.tooLarge m) := by
  induction pieces generalizing inflater with
  | zero => exact fun h => (nomatch h)
  | succ pieces ih =>
    intro h
    rw [inflatePieces] at h
    split at h
    · cases h
    split at h
    · cases h
    · rw [exceeds, if_neg Bool.false_ne_true] at h
      split at h
      · exact ih h
      · cases h

theorem decompress_ne_tooLarge (data : Bytes) (m : Int) :
    decompress data none ≠ .error (.tooLarge m) := by
  intro h
  unfold decompress at h
  split at h
  · rename_i fault hpieces
    cases h
    exact inflatePieces_ne_tooLarge m hpieces
  · split at h
    · rw [exceeds, if_neg Bool.false_ne_true] at h
      cases h
    · cases h

/-- Only what is too large is not refused as invalid. -/
theorem gzipFailure_eq {fault : GzipFault} (h : ∀ m, fault ≠ .tooLarge m) :
    Service.gzipFailure fault = .archiveInvalid fault.message [] := by
  cases fault with
  | tooLarge m => exact absurd rfl (h m)
  | _ => rfl

/-- A stream that is decompressed is so whatever stands behind it. Where its end is cut off, it is
refused as invalid, unless nothing of the stream itself is missing. -/
theorem decompress_prefix {data out : Bytes} (h : decompress data none = .ok out) :
    (∀ more, decompress (data ++ more) none = .ok out) ∧
      ∀ front behind, front ++ behind = data →
        decompress front none = .ok out ∨
          ∃ fault, decompress front none = .error fault ∧
            Service.gzipFailure fault = .archiveInvalid fault.message [] := by
  refine ⟨decompress_append h, fun front behind heq => ?_⟩
  cases hfront : decompress front none with
  | ok out' =>
    have hsame := decompress_append hfront behind
    rw [heq, h] at hsame
    exact .inl hsame.symm
  | error fault =>
    refine .inr ⟨fault, rfl, gzipFailure_eq fun m hm => ?_⟩
    exact decompress_ne_tooLarge front m (hm ▸ hfront)

/-- The bytes `hi` in a stream with bytes behind it, and in one that is cut off in its trailer. -/
theorem decompress_prefix_hi :
    decompress (store #[104, 105]) none = .ok #[104, 105] ∧
      decompress (store #[104, 105] ++ #[1, 2, 3]) none = .ok #[104, 105] ∧
      ∃ fault, decompress ((store #[104, 105]).extract 0 20) none = .error fault ∧
        Service.gzipFailure fault = .archiveInvalid fault.message [] := by
  have hcut : (decompress ((store #[104, 105]).extract 0 20) none).toOption = none := by
    decide +kernel
  have hparts : (store #[104, 105]).extract 0 20 ++ (store #[104, 105]).extract 20 25 =
      store #[104, 105] := by decide +kernel
  obtain ⟨hmore, hfront⟩ := decompress_prefix decompress_hi
  refine ⟨decompress_hi, hmore _, ?_⟩
  rcases hfront _ _ hparts with hok | hfault
  · rw [hok] at hcut
    cases hcut
  · exact hfault

/-! ## Bounds that are not reached -/

/-- When a stream is flushed there is more room than it can fill. -/
theorem flush_ne_full (hsound : inflater.Sound) : inflater.flush ≠ (after, .full) := by
  intro h
  unfold flush at h
  generalize hroom : inflater.output.size + maxCopy * (inflater.bits.left + 1) + 1 = room at h
  have hruns := runsTo_of_run hsound h
  have hreach := hruns.reach_le
  have hpending := pending_le hsound.modest
  cases hruns.rests with
  | full _ hfull =>
    simp only [Inflater.reach] at hreach
    rw [Nat.mul_succ] at hroom
    omega

/-- As long as a stream can still fill pieces there are pieces left. -/
theorem inflatePieces_eq_of_reach {enough : Nat} (hle : pieces ≤ enough) (hsound : inflater.Sound)
    (hreach : inflater.reach < inflater.output.size + pieceSize * pieces) :
    inflatePieces limit (enough + 1) inflater = inflatePieces limit (pieces + 1) inflater := by
  induction pieces generalizing inflater enough with
  | zero =>
    simp only [Inflater.reach] at hreach
    omega
  | succ pieces ih =>
    obtain ⟨enough, rfl⟩ := Nat.exists_eq_succ_of_ne_zero (Nat.ne_zero_of_lt hle)
    by_cases hidle : inflater.bits.bytes.size ≤ inflater.bits.bytesTouched
    · rw [inflatePieces_idle hidle, inflatePieces_idle hidle]
    have hbusy := Nat.lt_of_not_le hidle
    cases hrun : inflater.run (inflater.output.size + pieceSize) with
    | mk next rest =>
      have hruns := runsTo_of_run hsound hrun
      cases hruns.rests with
      | failed fault => rw [inflatePieces_failed hbusy hrun, inflatePieces_failed hbusy hrun]
      | finished _ =>
        rw [inflatePieces_piece hbusy hrun fun _ => Rest.noConfusion,
          inflatePieces_piece hbusy hrun fun _ => Rest.noConfusion]
        rfl
      | starved _ =>
        rw [inflatePieces_piece hbusy hrun fun _ => Rest.noConfusion,
          inflatePieces_piece hbusy hrun fun _ => Rest.noConfusion]
        rfl
      | full _ hfull =>
        -- a full piece brings the output nearer to what it can be at most
        have hle' := hruns.reach_le
        have hrest : next.reach < next.output.size + pieceSize * pieces := by
          rw [Nat.mul_succ] at hreach
          omega
        rw [inflatePieces_piece hbusy hrun fun _ => Rest.noConfusion,
          inflatePieces_piece hbusy hrun fun _ => Rest.noConfusion,
          ih (Nat.le_of_succ_le_succ hle) hruns.sound hrest]

/-- The pieces that are allowed for are enough for any stream. -/
theorem inflatePieces_enough (data : Bytes) {enough : Nat} (hle : 8 * data.size + 2 ≤ enough) :
    inflatePieces limit enough (.ofBytes data) =
      inflatePieces limit (8 * data.size + 2) (.ofBytes data) := by
  obtain ⟨enough, rfl⟩ := Nat.exists_eq_succ_of_ne_zero (Nat.ne_zero_of_lt hle)
  refine inflatePieces_eq_of_reach (Nat.le_of_succ_le_succ hle) (sound_ofBytes data) ?_
  have hreach : (ofBytes data).reach = maxCopy * (8 * data.size) := Nat.zero_add _
  have hsize : (ofBytes data).output.size = 0 := rfl
  rw [hreach, hsize, maxCopy, pieceSize]
  omega

end ReleasePrompts.Archive
