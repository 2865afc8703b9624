import ReleasePrompts.Proofs.Archive.Reading

/-!
# Steps and runs of the inflater

`outcome_step` says all that a step can do: it makes a move (`Moves`), or rests and changes nothing
(`Rests`). Everything else is read off the moves: they add to the output, every one uses up some of
the `potential` of the stream, and what has been written and could still be is never more than its
`reach`. So a run always comes to rest (`runsTo_of_run`), and one that comes to the end, or to where
there is no more room, does so whatever stands behind the input (`run_extend`).
-/

namespace ReleasePrompts.Archive

namespace Inflater

/-- The same stream with more bytes behind its input. -/
def extend (inflater : Inflater) (more : Bytes) : Inflater :=
  { inflater with bits := inflater.bits.extend more }

/-- No more bits have been taken than there are, and no more bytes are to be copied than a symbol
stands for. -/
structure Sound (inflater : Inflater) : Prop where
  fits : inflater.bits.Fits
  modest : inflater.stage.Modest

theorem sound_ofBytes (bytes : Bytes) : (ofBytes bytes).Sound := ⟨Nat.zero_le _, trivial⟩

end Inflater

open Inflater

theorem size_copyBack (distance count : Nat) (output : Bytes) :
    (copyBack distance count output).size = output.size + count := by
  induction count generalizing output with
  | zero => rfl
  | succ count ih =>
    rw [copyBack, ih, Array.size_push]
    omega

variable {limit : Nat} {inflater after : Inflater}

/-! ## Equations of a step -/

theorem step_finished (h : inflater.stage = .finished) :
    inflater.step limit = (inflater, some .finished) := by
  rw [step, h]

/-- A stage in which there is something to write. -/
def Stage.Writes : Stage → Prop
  | .stored count _ => 0 < count
  | .literal _ _ _ => True
  | .copy _ _ _ _ => True
  | _ => False

theorem step_of_writes (h : inflater.stage.Writes) : inflater.step limit =
    if limit ≤ inflater.output.size then (inflater, some .full)
    else inflater.write (limit - inflater.output.size) := by
  obtain ⟨bits, output, stage⟩ := inflater
  cases stage with
  | stored count last =>
    cases count with
    | zero => exact absurd h (Nat.lt_irrefl 0)
    | succ count => rfl
  | literal byte codes last => rfl
  | copy count distance codes last => rfl
  | _ => exact h.elim

theorem step_full (h : inflater.stage.Writes) (hfull : limit ≤ inflater.output.size) :
    inflater.step limit = (inflater, some .full) := by
  rw [step_of_writes h, if_pos hfull]

theorem step_write (h : inflater.stage.Writes) (hroom : inflater.output.size < limit) :
    inflater.step limit = inflater.write (limit - inflater.output.size) := by
  rw [step_of_writes h, if_neg (Nat.not_le_of_lt hroom)]

section

variable {bits : Bits} {output : Bytes} {count amount distance : Nat} {byte : UInt8}
  {codes : BlockCodes} {last : Bool} (hroom : output.size < limit)
include hroom

/-- Stored bytes are written as far as there is room for them and input. -/
theorem step_stored (hpos : 0 < amount) (hamount : amount =
      min (min count (limit - output.size)) (bits.bytes.size - bits.bytesTouched)) :
    step limit ⟨bits, output, .stored count last⟩ =
      (⟨{ bits with taken := 8 * (bits.bytesTouched + amount) },
        output ++ bits.bytes.extract bits.bytesTouched (bits.bytesTouched + amount),
        .stored (count - amount) last⟩, none) := by
  have hwrites : (Stage.stored count last).Writes := show 0 < count by omega
  rw [step_write hwrites hroom]
  simp only [write, ← hamount]
  exact if_neg (Nat.ne_of_gt hpos)

theorem step_stored_starved (hpos : 0 < count) (hnone : bits.bytes.size ≤ bits.bytesTouched) :
    step limit ⟨bits, output, .stored count last⟩ =
      (⟨bits, output, .stored count last⟩, some .starved) := by
  have hwrites : (Stage.stored count last).Writes := hpos
  have hamount : min (min count (limit - output.size)) (bits.bytes.size - bits.bytesTouched) = 0 := by
    omega
  rw [step_write hwrites hroom]
  exact if_pos hamount

theorem step_literal : step limit ⟨bits, output, .literal byte codes last⟩ =
    (⟨bits, output.push byte, .coded codes last⟩, none) := by
  have hwrites : (Stage.literal byte codes last).Writes := trivial
  rw [step_write hwrites hroom]
  rfl

theorem step_copy_failed (hfar : output.size < distance) :
    step limit ⟨bits, output, .copy count distance codes last⟩ =
      (⟨bits, output, .copy count distance codes last⟩, some (.failed .distanceTooFar)) := by
  have hwrites : (Stage.copy count distance codes last).Writes := trivial
  rw [step_write hwrites hroom]
  exact if_pos hfar

theorem step_copy (hback : distance ≤ output.size) :
    step limit ⟨bits, output, .copy count distance codes last⟩ =
      if count ≤ limit - output.size then
        (⟨bits, copyBack distance count output, .coded codes last⟩, none)
      else (⟨bits, copyBack distance (limit - output.size) output,
        .copy (count - (limit - output.size)) distance codes last⟩, none) := by
  have hwrites : (Stage.copy count distance codes last).Writes := trivial
  rw [step_write hwrites hroom]
  exact if_neg (Nat.not_lt_of_le hback)

end

/-! ## What a step can do -/

/-- What a step that does not rest can do: read the next stage, leave a block of stored bytes, or
write some bytes. -/
inductive Moves (limit : Nat) : Inflater → Inflater → Prop
  | reads {bits after : Bits} {output : Bytes} {stage next : Stage} {least : Nat}
      (hpos : 0 < least) (hahead : bits.Ahead least after) (hmodest : next.Modest)
      (hfinal : next = .finished → 64 ≤ least)
      (hmore : ∀ more, step limit ⟨bits.extend more, output, stage⟩ =
        (⟨after.extend more, output, next⟩, none)) :
      Moves limit ⟨bits, output, stage⟩ ⟨after, output, next⟩
  | ends {bits : Bits} {output : Bytes} {last : Bool} :
      Moves limit ⟨bits, output, .stored 0 last⟩ ⟨bits, output, afterBlock last⟩
  | stores {bits : Bits} {output : Bytes} {count amount : Nat} {last : Bool}
      (hroom : output.size < limit) (hpos : 0 < amount)
      (hamount : amount =
        min (min count (limit - output.size)) (bits.bytes.size - bits.bytesTouched)) :
      Moves limit ⟨bits, output, .stored count last⟩
        ⟨{ bits with taken := 8 * (bits.bytesTouched + amount) },
          output ++ bits.bytes.extract bits.bytesTouched (bits.bytesTouched + amount),
          .stored (count - amount) last⟩
  | writes {bits : Bits} {output : Bytes} {byte : UInt8} {codes : BlockCodes} {last : Bool}
      (hroom : output.size < limit) :
      Moves limit ⟨bits, output, .literal byte codes last⟩
        ⟨bits, output.push byte, .coded codes last⟩
  | copies {bits : Bits} {output : Bytes} {count distance : Nat} {codes : BlockCodes} {last : Bool}
      (hroom : output.size < limit) (hback : distance ≤ output.size)
      (hcount : count ≤ limit - output.size) :
      Moves limit ⟨bits, output, .copy count distance codes last⟩
        ⟨bits, copyBack distance count output, .coded codes last⟩
  | copiesPart {bits : Bits} {output : Bytes} {count distance : Nat} {codes : BlockCodes}
      {last : Bool} (hroom : output.size < limit) (hback : distance ≤ output.size)
      (hcount : limit - output.size < count) :
      Moves limit ⟨bits, output, .copy count distance codes last⟩
        ⟨bits, copyBack distance (limit - output.size) output,
          .copy (count - (limit - output.size)) distance codes last⟩

/-- The ways in which a step rests. A stream that has no bits to go on with has none at any other
limit that it has not reached. -/
inductive Rests (limit : Nat) (inflater : Inflater) : Rest → Prop
  | finished (h : inflater.stage = .finished) : Rests limit inflater .finished
  | full (hwrites : inflater.stage.Writes) (hfull : limit ≤ inflater.output.size) :
      Rests limit inflater .full
  | starved (h : ∀ other, inflater.output.size < other →
      inflater.step other = (inflater, some .starved)) : Rests limit inflater .starved
  | failed (fault : StreamFault) : Rests limit inflater (.failed fault)

/-- A step makes a move, or rests and changes nothing. -/
inductive Outcome (limit : Nat) (inflater : Inflater) : Inflater × Option Rest → Prop
  | moves {after : Inflater} (h : Moves limit inflater after) : Outcome limit inflater (after, none)
  | rests {rest : Rest} (h : Rests limit inflater rest) : Outcome limit inflater (inflater, some rest)

/-- A stage that is read, by a reader that takes a bit. -/
theorem outcome_of_reader {bits : Bits} {output : Bytes} {stage : Stage} {reader : BitReader Stage}
    {least : Nat} (hread : ∀ limit bits, step limit ⟨bits, output, stage⟩ =
      advance ⟨bits, output, stage⟩ reader) (hpos : 0 < least)
    (htakes : Takes least (fun next => next.Modest ∧ (next = .finished → 64 ≤ least)) reader)
    (hfits : bits.Fits) :
    Outcome limit ⟨bits, output, stage⟩ (step limit ⟨bits, output, stage⟩) := by
  cases hok : reader bits with
  | ok result =>
    obtain ⟨next, after⟩ := result
    obtain ⟨hahead, ⟨hmodest, hfinal⟩, hmore⟩ := htakes hfits hok
    have hstep : step limit ⟨bits, output, stage⟩ = (⟨after, output, next⟩, none) := by
      simp only [hread, advance, hok]
    rw [hstep]
    refine .moves (.reads hpos hahead hmodest hfinal fun more => ?_)
    simp only [hread, advance, hmore more]
  | error halt =>
    cases halt with
    | starved =>
      have hstep (limit : Nat) : step limit ⟨bits, output, stage⟩ =
          (⟨bits, output, stage⟩, some .starved) := by
        simp only [hread, advance, hok]
      rw [hstep]
      exact .rests (.starved fun other _ => hstep other)
    | failed fault =>
      have hstep : step limit ⟨bits, output, stage⟩ =
          (⟨bits, output, stage⟩, some (.failed fault)) := by
        simp only [hread, advance, hok]
      rw [hstep]
      exact .rests (.failed fault)

/-- A stage in which there is something to write. -/
theorem outcome_of_writes (h : inflater.stage.Writes) :
    Outcome limit inflater (inflater.step limit) := by
  by_cases hfull : limit ≤ inflater.output.size
  · rw [step_full h hfull]
    exact .rests (.full h hfull)
  obtain ⟨bits, output, stage⟩ := inflater
  have hroom : output.size < limit := Nat.lt_of_not_le hfull
  cases stage with
  | stored count last =>
    have hcount : 0 < count := h
    by_cases hnone : bits.bytes.size ≤ bits.bytesTouched
    · rw [step_stored_starved hroom hcount hnone]
      exact .rests (.starved fun other hother => step_stored_starved hother hcount hnone)
    · have hpos : 0 < min (min count (limit - output.size))
          (bits.bytes.size - bits.bytesTouched) := by omega
      rw [step_stored hroom hpos rfl]
      exact .moves (.stores hroom hpos rfl)
  | literal byte codes last =>
    rw [step_literal hroom]
    exact .moves (.writes hroom)
  | copy count distance codes last =>
    by_cases hback : distance ≤ output.size
    · rw [step_copy hroom hback]
      split
      · rename_i hcount
        exact .moves (.copies hroom hback hcount)
      · rename_i hcount
        exact .moves (.copiesPart hroom hback (Nat.lt_of_not_le hcount))
    · rw [step_copy_failed hroom (Nat.lt_of_not_le hback)]
      exact .rests (.failed .distanceTooFar)
  | _ => exact h.elim

theorem outcome_step (limit : Nat) (hsound : inflater.Sound) :
    Outcome limit inflater (inflater.step limit) := by
  obtain ⟨bits, output, stage⟩ := inflater
  have hfits := hsound.fits
  have hunfinished : ∀ next : Stage, next.Modest ∧ next ≠ .finished →
      next.Modest ∧ (next = .finished → 64 ≤ 1) :=
    fun next hnext => ⟨hnext.1, fun heq => absurd heq hnext.2⟩
  cases stage with
  | header =>
    refine outcome_of_reader (fun _ _ => rfl) Nat.one_pos ?_ hfits
    exact takes_readHeader.bind_left fun _ _ => Takes.pure ⟨trivial, fun heq => (nomatch heq)⟩
  | blockHeader =>
    exact outcome_of_reader (fun _ _ => rfl) Nat.one_pos
      (takes_readBlockHeader.mono (Nat.le_refl _) hunfinished) hfits
  | coded codes last =>
    exact outcome_of_reader (fun _ _ => rfl) Nat.one_pos
      ((takes_readSymbol codes last).mono (Nat.le_refl _) hunfinished) hfits
  | trailer =>
    have hread (limit : Nat) (bits : Bits) : step limit ⟨bits, output, .trailer⟩ =
        advance ⟨bits, output, .trailer⟩ (do readTrailer output; return .finished) := rfl
    refine outcome_of_reader hread (by decide : 0 < 64) ?_ hfits
    exact (takes_readTrailer output).bind_left fun _ _ =>
      Takes.pure ⟨trivial, fun _ => Nat.le_refl _⟩
  | finished => exact .rests (.finished rfl)
  | stored count last =>
    cases count with
    | zero => exact .moves .ends
    | succ count => exact outcome_of_writes (Nat.succ_pos count)
  | literal byte codes last => exact outcome_of_writes trivial
  | copy count distance codes last => exact outcome_of_writes trivial

/-! ## What a move keeps -/

namespace Moves

variable (h : Moves limit inflater after)
include h

theorem sound (hsound : inflater.Sound) : after.Sound := by
  obtain ⟨hfits, hmodest⟩ := hsound
  cases h with
  | reads _ hahead hnext _ _ => exact ⟨hahead.fits, hnext⟩
  | @ends bits output last => exact ⟨hfits, modest_afterBlock last⟩
  | @stores bits output count amount last _ hpos hamount =>
    refine ⟨?_, trivial⟩
    show 8 * (bits.bytesTouched + amount) ≤ 8 * bits.bytes.size
    omega
  | writes _ => exact ⟨hfits, trivial⟩
  | copies _ _ _ => exact ⟨hfits, trivial⟩
  | copiesPart _ _ _ => exact ⟨hfits, Nat.le_trans (Nat.sub_le _ _) hmodest⟩

theorem output_le : inflater.output.size ≤ after.output.size := by
  cases h with
  | reads _ _ _ _ _ => exact Nat.le_refl _
  | ends => exact Nat.le_refl _
  | stores _ _ _ =>
    rw [Array.size_append]
    exact Nat.le_add_right _ _
  | writes _ =>
    rw [Array.size_push]
    exact Nat.le_succ _
  | copies _ _ _ =>
    rw [size_copyBack]
    exact Nat.le_add_right _ _
  | copiesPart _ _ _ =>
    rw [size_copyBack]
    exact Nat.le_add_right _ _

/-- A stream that has not ended needs the bits of its trailer. -/
theorem unfinished (hleft : inflater.stage ≠ .finished ∧ inflater.bits.left < 64) :
    after.stage ≠ .finished ∧ after.bits.left < 64 := by
  obtain ⟨-, hleft⟩ := hleft
  cases h with
  | @reads bits behind output stage next least _ hahead _ hfinal _ =>
    have hle : behind.left + least ≤ bits.left := hahead.left_le
    have hleft : bits.left < 64 := hleft
    refine ⟨fun heq => ?_, Nat.lt_of_le_of_lt (Nat.le_of_add_right_le hle) hleft⟩
    have := hfinal heq
    omega
  | @ends bits output last => exact ⟨afterBlock_ne_finished last, hleft⟩
  | @stores bits output count amount last _ _ hamount =>
    refine ⟨Stage.noConfusion, ?_⟩
    simp only [Bits.left, Bits.bytesTouched] at hleft hamount ⊢
    omega
  | writes _ => exact ⟨Stage.noConfusion, hleft⟩
  | copies _ _ _ => exact ⟨Stage.noConfusion, hleft⟩
  | copiesPart _ _ _ => exact ⟨Stage.noConfusion, hleft⟩

end Moves

/-- How many moves a stage may be followed by before the next bit is taken. -/
def Stage.pace : Stage → Nat
  | .stored _ _ => 1
  | .literal _ _ _ => 1
  | .copy _ _ _ _ => 1
  | _ => 0

theorem pace_le (stage : Stage) : stage.pace ≤ 1 := by
  cases stage <;> simp [Stage.pace]

theorem pace_afterBlock (last : Bool) : (afterBlock last).pace = 0 := by
  cases last <;> rfl

/-- More than the moves that a stream can make with at most `limit` bytes written: a bit is worth
four of them. -/
def Inflater.potential (limit : Nat) (inflater : Inflater) : Nat :=
  4 * inflater.bits.left + inflater.stage.pace + (if inflater.output.size < limit then 1 else 0)

/-- How many bytes a stage has to write for which all bits have been taken. -/
def Stage.pending : Stage → Nat
  | .literal _ _ _ => 1
  | .copy count _ _ _ => count
  | _ => 0

theorem pending_le {stage : Stage} (h : stage.Modest) : stage.pending ≤ maxCopy := by
  cases stage with
  | literal byte codes last => exact (by decide : 1 ≤ maxCopy)
  | copy count distance codes last => exact h
  | _ => exact Nat.zero_le _

/-- No stream writes more bytes than this in all: those that it has written, those that are pending,
and those that the bits that are left may stand for. -/
def Inflater.reach (inflater : Inflater) : Nat :=
  inflater.output.size + maxCopy * inflater.bits.left + inflater.stage.pending

namespace Moves

variable (h : Moves limit inflater after)
include h

theorem potential_lt : after.potential limit < inflater.potential limit := by
  cases h with
  | @reads bits behind output stage next least hpos hahead _ _ _ =>
    have hle := hahead.left_le
    have hpace := pace_le next
    simp only [Inflater.potential]
    omega
  | @ends bits output last =>
    have hpace : (Stage.stored 0 last).pace = 1 := rfl
    simp only [Inflater.potential, pace_afterBlock, hpace]
    omega
  | @stores bits output count amount last hroom hpos hamount =>
    have hleft : Bits.left { bits with taken := 8 * (bits.bytesTouched + amount) } < bits.left := by
      simp only [Bits.left, Bits.bytesTouched] at hamount ⊢
      omega
    simp only [Inflater.potential, Stage.pace, if_pos hroom]
    split <;> omega
  | @writes bits output byte codes last hroom =>
    simp only [Inflater.potential, Stage.pace, if_pos hroom]
    split <;> omega
  | @copies bits output count distance codes last hroom _ _ =>
    simp only [Inflater.potential, Stage.pace, if_pos hroom]
    split <;> omega
  | @copiesPart bits output count distance codes last hroom _ _ =>
    -- the room is used up, which is what the step takes
    have hfull : ¬(copyBack distance (limit - output.size) output).size < limit := by
      rw [size_copyBack]
      omega
    simp only [Inflater.potential, Stage.pace, if_pos hroom, if_neg hfull]
    omega

/-- A bit that is taken makes the stream write no more bytes than a symbol stands for. -/
theorem reach_le : after.reach ≤ inflater.reach := by
  cases h with
  | @reads bits behind output stage next least hpos hahead hmodest _ _ =>
    have hle := hahead.left_le
    have hpending := pending_le hmodest
    have hmul : maxCopy * behind.left + maxCopy ≤ maxCopy * bits.left := by
      rw [← Nat.mul_succ]
      exact Nat.mul_le_mul_left _ (by omega)
    simp only [Inflater.reach]
    omega
  | @ends bits output last =>
    cases last <;> exact Nat.le_refl _
  | @stores bits output count amount last hroom hpos hamount =>
    have hleft : Bits.left { bits with taken := 8 * (bits.bytesTouched + amount) } + amount ≤
        bits.left := by
      simp only [Bits.left, Bits.bytesTouched] at hamount ⊢
      omega
    have hsize : (bits.bytes.extract bits.bytesTouched (bits.bytesTouched + amount)).size ≤ amount := by
      rw [Array.size_extract]
      omega
    simp only [Inflater.reach, Stage.pending, Array.size_append, maxCopy]
    omega
  | @writes bits output byte codes last hroom =>
    simp only [Inflater.reach, Stage.pending, Array.size_push]
    omega
  | @copies bits output count distance codes last hroom _ _ =>
    simp only [Inflater.reach, Stage.pending, size_copyBack]
    omega
  | @copiesPart bits output count distance codes last hroom _ hcount =>
    simp only [Inflater.reach, Stage.pending, size_copyBack]
    omega

/-- A move of a stream is one whatever stands behind its input, unless it writes stored bytes up to
the end of the input, where the next step finds none. -/
theorem extend : (∀ more, (inflater.extend more).step limit = (after.extend more, none)) ∨
    after.step limit = (after, some .starved) := by
  cases h with
  | reads _ _ _ _ hmore => exact .inl hmore
  | ends => exact .inl fun _ => rfl
  | @stores bits output count amount last hroom hpos hamount =>
    by_cases hshort : amount = min count (limit - output.size)
    · refine .inl fun more => ?_
      have htouched : (bits.extend more).bytesTouched = bits.bytesTouched := rfl
      have hmore : amount = min (min count (limit - output.size))
          ((bits.extend more).bytes.size - (bits.extend more).bytesTouched) := by
        rw [htouched, Bits.extend, Array.size_append]
        omega
      refine (step_stored hroom hpos hmore).trans ?_
      rw [htouched, Bits.extract_extend (by omega)]
      rfl
    · -- what was there of the bytes has been written
      refine .inr (step_stored_starved ?_ (by omega) ?_)
      · rw [Array.size_append, Array.size_extract]
        omega
      · show bits.bytes.size ≤ (8 * (bits.bytesTouched + amount) + 7) / 8
        omega
  | @writes bits output byte codes last hroom =>
    exact .inl fun more => step_literal hroom
  | @copies bits output count distance codes last hroom hback hcount =>
    exact .inl fun more => (step_copy hroom hback).trans (if_pos hcount)
  | @copiesPart bits output count distance codes last hroom hback hcount =>
    exact .inl fun more => (step_copy hroom hback).trans (if_neg (Nat.not_le_of_lt hcount))

end Moves

/-! ## Runs -/

/-- What every move keeps a run keeps. -/
theorem runSteps_keeps {P : Inflater → Prop}
    (hmove : ∀ i j, i.Sound → Moves limit i j → P i → P j) {steps : Nat}
    (hsound : inflater.Sound) (hP : P inflater) :
    (inflater.runSteps limit steps).1.Sound ∧ P (inflater.runSteps limit steps).1 := by
  induction steps generalizing inflater with
  | zero => exact ⟨hsound, hP⟩
  | succ steps ih =>
    have houtcome := outcome_step limit hsound
    rw [runSteps]
    generalize inflater.step limit = result at houtcome
    cases houtcome with
    | moves hmoves => exact ih (hmoves.sound hsound) (hmove _ _ hsound hmoves hP)
    | rests _ => exact ⟨hsound, hP⟩

/-- With more steps than its potential a run comes to rest. -/
theorem rests_runSteps {steps : Nat} (hsound : inflater.Sound)
    (hsteps : inflater.potential limit < steps) :
    Rests limit (inflater.runSteps limit steps).1 (inflater.runSteps limit steps).2 := by
  induction steps generalizing inflater with
  | zero => exact absurd hsteps (Nat.not_lt_zero _)
  | succ steps ih =>
    have houtcome := outcome_step limit hsound
    rw [runSteps]
    generalize inflater.step limit = result at houtcome
    cases houtcome with
    | moves hmoves =>
      exact ih (hmoves.sound hsound)
        (Nat.lt_of_lt_of_le hmoves.potential_lt (Nat.le_of_lt_succ hsteps))
    | rests hrests => exact hrests

/-- That a stream has ended, or has to write where there is no room, has nothing to do with its
input. -/
theorem Rests.extend {rest : Rest} (h : Rests limit inflater rest)
    (hrest : rest = .finished ∨ rest = .full) (more : Bytes) :
    (inflater.extend more).step limit = (inflater.extend more, some rest) := by
  cases h with
  | finished hstage => exact step_finished hstage
  | full hwrites hfull => exact step_full hwrites hfull
  | starved _ => rcases hrest with heq | heq <;> cases heq
  | failed fault => rcases hrest with heq | heq <;> cases heq

/-- A run that ends the stream, or fills the room, does so whatever stands behind the input and
however many more steps it may take. -/
theorem runSteps_extend {steps enough : Nat} (hle : steps ≤ enough) {rest : Rest}
    (hrest : rest = .finished ∨ rest = .full) (hsound : inflater.Sound)
    (h : inflater.runSteps limit steps = (after, rest)) (more : Bytes) :
    (inflater.extend more).runSteps limit enough = (after.extend more, rest) := by
  induction steps generalizing inflater enough with
  | zero =>
    cases h
    rcases hrest with heq | heq <;> cases heq
  | succ steps ih =>
    obtain ⟨enough, rfl⟩ := Nat.exists_eq_succ_of_ne_zero (Nat.ne_zero_of_lt hle)
    have houtcome := outcome_step limit hsound
    rw [runSteps] at h ⊢
    generalize inflater.step limit = result at h houtcome
    cases houtcome with
    | @moves next hmoves =>
      rcases hmoves.extend with hextend | hstarved
      · rw [hextend more]
        exact ih (Nat.le_of_succ_le_succ hle) (hmoves.sound hsound) h
      · -- the run would rest at once for want of bytes
        have hresult : next.runSteps limit steps = (next, .starved) := by
          cases steps with
          | zero => rfl
          | succ steps => rw [runSteps, hstarved]
        have hsame : (next, .starved) = (after, rest) := hresult.symm.trans h
        cases hsame
        rcases hrest with heq | heq <;> cases heq
    | rests hrests =>
      cases h
      rw [hrests.extend hrest more]

theorem potential_lt_stepBound (limit : Nat) (inflater : Inflater) :
    inflater.potential limit < inflater.stepBound := by
  have hpace := pace_le inflater.stage
  unfold Inflater.potential Inflater.stepBound
  split <;> omega

/-- What is known of where a run comes to rest: it never ends for want of steps. -/
structure RunsTo (limit : Nat) (inflater after : Inflater) (rest : Rest) : Prop where
  sound : after.Sound
  rests : Rests limit after rest
  output_le : inflater.output.size ≤ after.output.size
  reach_le : after.reach ≤ inflater.reach

theorem runsTo_of_run {rest : Rest} (hsound : inflater.Sound)
    (h : inflater.run limit = (after, rest)) : RunsTo limit inflater after rest := by
  have hrests : Rests limit (inflater.run limit).1 (inflater.run limit).2 :=
    rests_runSteps hsound (potential_lt_stepBound limit inflater)
  have hkept : (inflater.run limit).1.Sound ∧
      inflater.output.size ≤ (inflater.run limit).1.output.size ∧
      (inflater.run limit).1.reach ≤ inflater.reach :=
    runSteps_keeps
      (P := fun i => inflater.output.size ≤ i.output.size ∧ i.reach ≤ inflater.reach)
      (fun _ _ _ hmoves hle =>
        ⟨Nat.le_trans hle.1 hmoves.output_le, Nat.le_trans hmoves.reach_le hle.2⟩)
      hsound ⟨Nat.le_refl _, Nat.le_refl _⟩
  rw [h] at hrests hkept
  exact ⟨hkept.1, hrests, hkept.2.1, hkept.2.2⟩

/-- Without the bits of a trailer a run does not end the stream. -/
theorem run_unfinished (hsound : inflater.Sound) (hstage : inflater.stage ≠ .finished)
    (hleft : inflater.bits.left < 64) : inflater.run limit ≠ (after, .finished) := by
  intro h
  have hkept : (inflater.run limit).1.Sound ∧ (inflater.run limit).1.stage ≠ .finished ∧
      (inflater.run limit).1.bits.left < 64 :=
    runSteps_keeps (fun _ _ _ hmoves h => hmoves.unfinished h) hsound ⟨hstage, hleft⟩
  rw [h] at hkept
  cases (runsTo_of_run hsound h).rests with
  | finished hfinished => exact hkept.2.1 hfinished

/-- A run that rests at once. -/
theorem run_of_step {rest : Rest} (h : inflater.step limit = (inflater, some rest)) :
    inflater.run limit = (inflater, rest) := by
  rw [run, stepBound, runSteps, h]

/-- A run that ends the stream, or fills the room, does so whatever stands behind the input. -/
theorem run_extend {rest : Rest} (hrest : rest = .finished ∨ rest = .full) (hsound : inflater.Sound)
    (h : inflater.run limit = (after, rest)) (more : Bytes) :
    (inflater.extend more).run limit = (after.extend more, rest) := by
  refine runSteps_extend ?_ hrest hsound h more
  have hleft := inflater.bits.left_extend more
  show 4 * inflater.bits.left + 8 ≤ 4 * (inflater.bits.extend more).left + 8
  omega

end ReleasePrompts.Archive
