import Mathlib.Algebra.Group.Nat.Defs
import ReleasePrompts.Archive.Gzip

/-!
# Readers and what stands behind their bits

A reader that does not stop has seen only the bits that it took. `Takes` says so of one reader: it
takes at least so many bits, its value has a property, and with more bytes behind the bits it does
the same. Readers that are put together from such readers are such readers (`Takes.bind`,
`Takes.get_bind`), which gives one lemma for each part of a gzip stream.
-/

namespace ReleasePrompts.Archive

namespace Bits

/-- No more bits have been taken than there are. -/
def Fits (bits : Bits) : Prop := bits.taken ≤ 8 * bits.bytes.size

/-- The same bits with more bytes behind them. -/
def extend (bits : Bits) (more : Bytes) : Bits := { bits with bytes := bits.bytes ++ more }

/-- Of the same bytes at least `least` more bits have been taken, and no more than there are. -/
structure Ahead (least : Nat) (bits after : Bits) : Prop where
  bytes : after.bytes = bits.bytes
  taken : bits.taken + least ≤ after.taken
  fits : after.Fits

theorem Fits.ahead {bits : Bits} (h : bits.Fits) : Ahead 0 bits bits := ⟨rfl, Nat.le_refl _, h⟩

theorem Ahead.mono {least less : Nat} {bits after : Bits} (h : Ahead least bits after)
    (hle : less ≤ least) : Ahead less bits after :=
  ⟨h.bytes, Nat.le_trans (Nat.add_le_add_left hle _) h.taken, h.fits⟩

theorem Ahead.trans {m n : Nat} {bits mid after : Bits} (h : Ahead m bits mid)
    (h' : Ahead n mid after) : Ahead (m + n) bits after := by
  refine ⟨h'.bytes.trans h.bytes, ?_, h'.fits⟩
  have := h.taken
  have := h'.taken
  omega

theorem Ahead.left_le {least : Nat} {bits after : Bits} (h : Ahead least bits after) :
    after.left + least ≤ bits.left := by
  have htaken := h.taken
  have hfits := h.fits
  simp only [Fits, left, h.bytes] at hfits ⊢
  omega

theorem bitAt_lt (bits : Bits) (place : Nat) : bits.bitAt place < 2 := Nat.mod_lt _ Nat.two_pos

theorem numberAt_lt (bits : Bits) (count place : Nat) : bits.numberAt count place < 2 ^ count := by
  induction count generalizing place with
  | zero => exact Nat.one_pos
  | succ count ih =>
    have hbit := bits.bitAt_lt place
    have hrest := ih (place + 1)
    rw [numberAt, Nat.pow_succ]
    omega

theorem bitAt_extend {bits : Bits} {place : Nat} (h : place < 8 * bits.bytes.size) (more : Bytes) :
    (bits.extend more).bitAt place = bits.bitAt place := by
  have hbyte : place / 8 < bits.bytes.size := by omega
  simp only [bitAt, extend, Array.getD_eq_getD_getElem?, Array.getElem?_append_left hbyte]

theorem numberAt_extend {bits : Bits} {count place : Nat}
    (h : place + count ≤ 8 * bits.bytes.size) (more : Bytes) :
    (bits.extend more).numberAt count place = bits.numberAt count place := by
  induction count generalizing place with
  | zero => rfl
  | succ count ih =>
    rw [numberAt, numberAt, bitAt_extend (by omega), ih (by omega)]

theorem extract_extend {bits : Bits} {stop : Nat} (h : stop ≤ bits.bytes.size) (start : Nat)
    (more : Bytes) : (bits.extend more).bytes.extract start stop = bits.bytes.extract start stop := by
  rw [extend, Array.extract_append, Nat.sub_eq_zero_of_le h, Array.extract_zero, Array.append_empty]

theorem left_extend (bits : Bits) (more : Bytes) : bits.left ≤ (bits.extend more).left := by
  simp only [left, extend, Array.size_append]
  omega

end Bits

/-- Where a reader does not stop, it takes `least` bits at least, its value has a property, and it
does the same whatever stands behind the bits. -/
def Takes {α : Type} (least : Nat) (holds : α → Prop) (reader : BitReader α) : Prop :=
  ∀ ⦃bits : Bits⦄ ⦃value : α⦄ ⦃after : Bits⦄, bits.Fits → reader bits = .ok (value, after) →
    bits.Ahead least after ∧ holds value ∧
      ∀ more, reader (bits.extend more) = .ok (value, after.extend more)

namespace Takes

variable {α β : Type} {least m n : Nat} {holds : α → Prop} {allows : β → Prop}

theorem bind_eq_ok {x : BitReader α} {f : α → BitReader β} {bits after : Bits} {value : β} :
    (x >>= f) bits = .ok (value, after) ↔
      ∃ a mid, x bits = .ok (a, mid) ∧ f a mid = .ok (value, after) := by
  show (x bits >>= fun p => f p.1 p.2) = _ ↔ _
  cases x bits with
  | error halt => exact ⟨fun h => (nomatch h), fun ⟨_, _, h, _⟩ => (nomatch h)⟩
  | ok p => exact ⟨fun h => ⟨p.1, p.2, rfl, h⟩, fun ⟨_, _, h, h'⟩ => by cases h; exact h'⟩

theorem mono {reader : BitReader α} (h : Takes m holds reader) (hle : n ≤ m) {weaker : α → Prop}
    (himp : ∀ value, holds value → weaker value) : Takes n weaker reader := by
  intro bits value after hfits hok
  obtain ⟨hahead, hvalue, hmore⟩ := h hfits hok
  exact ⟨hahead.mono hle, himp value hvalue, hmore⟩

/-- One reader behind another. -/
theorem bind {x : BitReader α} {f : α → BitReader β} (hx : Takes m holds x)
    (hf : ∀ a, holds a → Takes n allows (f a)) : Takes (m + n) allows (x >>= f) := by
  intro bits value after hfits hok
  obtain ⟨a, mid, hfirst, hsecond⟩ := bind_eq_ok.mp hok
  obtain ⟨hahead, ha, hmore⟩ := hx hfits hfirst
  obtain ⟨hahead', hvalue, hmore'⟩ := hf a ha hahead.fits hsecond
  exact ⟨hahead.trans hahead', hvalue, fun more => bind_eq_ok.mpr ⟨a, _, hmore more, hmore' more⟩⟩

/-- One reader behind another of which nothing need be known but that it takes enough. -/
theorem bind_left {x : BitReader α} {f : α → BitReader β} (hx : Takes m holds x)
    (hf : ∀ a, holds a → Takes 0 allows (f a)) : Takes m allows (x >>= f) :=
  hx.bind hf

/-- One reader behind another where only the second need take enough. -/
theorem bind_right {x : BitReader α} {f : α → BitReader β} (hx : Takes m holds x)
    (hf : ∀ a, holds a → Takes n allows (f a)) : Takes n allows (x >>= f) :=
  (hx.bind hf).mono (Nat.le_add_left _ _) fun _ h => h

theorem pure {a : α} (h : holds a) : Takes 0 holds (pure a : BitReader α) := by
  intro bits value after hfits hok
  cases hok
  exact ⟨hfits.ahead, h, fun _ => rfl⟩

/-- A reader that always stops. -/
theorem fail (fault : StreamFault) : Takes least holds (BitReader.fail fault) :=
  fun _ _ _ _ hok => (nomatch hok)

theorem starve : Takes least holds (throw .starved : BitReader α) := fun _ _ _ _ hok => (nomatch hok)

theorem fail_bind (fault : StreamFault) (f : α → BitReader β) :
    Takes least allows (BitReader.fail fault >>= f) :=
  fun _ _ _ _ hok => (nomatch hok)

theorem ite {c : Prop} [Decidable c] {x y : BitReader α} (hx : c → Takes least holds x)
    (hy : ¬c → Takes least holds y) : Takes least holds (if c then x else y) := by
  split
  · rename_i h
    exact hx h
  · rename_i h
    exact hy h

/-- A reader that is chosen by what the bits are, where this is nothing that bytes behind them could
change. -/
theorem get_bind {f : Bits → BitReader β} (hf : ∀ bits : Bits, bits.Fits → Takes least allows (f bits))
    (hmore : ∀ (bits : Bits) (more : Bytes), bits.Fits → f (bits.extend more) = f bits) :
    Takes least allows (get >>= f) := by
  intro bits value after hfits hok
  obtain ⟨hahead, hvalue, hsame⟩ := hf bits hfits hfits hok
  refine ⟨hahead, hvalue, fun more => ?_⟩
  show f (bits.extend more) (bits.extend more) = _
  rw [hmore bits more hfits, hsame more]

theorem number (count : Nat) : Takes count (· < 2 ^ count) (BitReader.number count) := by
  intro bits value after hfits hok
  simp only [BitReader.number] at hok
  split at hok
  · cases hok
  rename_i henough
  cases hok
  have hplace : bits.taken + count ≤ 8 * bits.bytes.size := by
    simp only [Bits.left, Bits.Fits] at henough hfits
    omega
  refine ⟨⟨rfl, Nat.le_refl _, hplace⟩, bits.numberAt_lt count _, fun more => ?_⟩
  have hleft := bits.left_extend more
  rw [BitReader.number, if_neg (by omega)]
  exact congrArg (fun value => Except.ok (value, _)) (Bits.numberAt_extend hplace more)

theorem skip (count : Nat) : Takes count (fun _ => True) (BitReader.skip count) := by
  intro bits value after hfits hok
  simp only [BitReader.skip] at hok
  split at hok
  · cases hok
  rename_i henough
  cases hok
  have hplace : bits.taken + count ≤ 8 * bits.bytes.size := by
    simp only [Bits.left, Bits.Fits] at henough hfits
    omega
  refine ⟨⟨rfl, Nat.le_refl _, hplace⟩, trivial, fun more => ?_⟩
  have hleft := bits.left_extend more
  rw [BitReader.skip, if_neg (by omega)]
  rfl

theorem byte : Takes 8 (fun _ => True) BitReader.byte :=
  (number 8).bind_left fun _ _ => pure trivial

theorem skipToByte : Takes 0 (fun _ => True) BitReader.skipToByte := by
  intro bits value after hfits hok
  cases hok
  refine ⟨⟨rfl, ?_, ?_⟩, trivial, fun _ => rfl⟩
  · show bits.taken + 0 ≤ 8 * ((bits.taken + 7) / 8)
    omega
  · show 8 * ((bits.taken + 7) / 8) ≤ 8 * bits.bytes.size
    unfold Bits.Fits at hfits
    omega

/-- The bound on the bytes that are taken is no part of what the reader does. -/
theorem skipText_go {bound enough : Nat} (hle : bound ≤ enough) {bits after : Bits} {value : Unit}
    (hfits : bits.Fits) (hok : BitReader.skipText.go bound bits = .ok (value, after)) :
    bits.Ahead 0 after ∧
      ∀ more, BitReader.skipText.go enough (bits.extend more) = .ok (value, after.extend more) := by
  induction bound generalizing enough bits with
  | zero => exact (nomatch hok)
  | succ bound ih =>
    obtain ⟨enough, rfl⟩ := Nat.exists_eq_succ_of_ne_zero (Nat.ne_zero_of_lt hle)
    obtain ⟨first, mid, hfirst, hrest⟩ := bind_eq_ok.mp hok
    obtain ⟨hahead, -, hmore⟩ := byte hfits hfirst
    split at hrest
    · rename_i hzero
      cases hrest
      refine ⟨hahead.mono (Nat.zero_le _), fun more => bind_eq_ok.mpr ⟨first, _, hmore more, ?_⟩⟩
      rw [if_pos hzero]
      rfl
    · rename_i hzero
      obtain ⟨hahead', hmore'⟩ := ih (Nat.le_of_succ_le_succ hle) hahead.fits hrest
      refine ⟨(hahead.trans hahead').mono (Nat.zero_le _),
        fun more => bind_eq_ok.mpr ⟨first, _, hmore more, ?_⟩⟩
      rw [if_neg hzero]
      exact hmore' more

theorem skipText : Takes 0 (fun _ => True) BitReader.skipText := by
  intro bits value after hfits hok
  have hgo (bits : Bits) : BitReader.skipText bits = BitReader.skipText.go (bits.left + 1) bits := rfl
  rw [hgo] at hok
  have hbound (more : Bytes) := Nat.succ_le_succ (bits.left_extend more)
  refine ⟨(skipText_go (Nat.le_refl _) hfits hok).1, trivial, fun more => ?_⟩
  rw [hgo]
  exact (skipText_go (hbound more) hfits hok).2 more

end Takes

/-! ## Codes -/

/-- Reading a symbol takes a bit for each count that is looked at, and it looks at one at least. -/
theorem takes_symbolFrom (symbols : Array Nat) (code first index : Nat) (counts : List Nat) :
    Takes (min 1 counts.length) (fun _ => True) (Code.symbolFrom symbols code first index counts) := by
  induction counts generalizing code first index with
  | nil => exact Takes.pure trivial
  | cons count counts ih =>
    have hone : min 1 (count :: counts).length = 1 + 0 := by simp
    rw [Code.symbolFrom, hone]
    refine (Takes.number 1).bind fun bit _ => Takes.ite (fun _ => Takes.pure trivial) fun _ => ?_
    exact (ih _ _ _).mono (Nat.zero_le _) fun _ h => h

theorem takes_symbol (code : Code) : Takes 1 (fun _ => True) code.symbol := by
  have h := takes_symbolFrom code.symbols 0 0 0 (if code.isEmpty then [0] else code.counts)
  refine h.mono ?_ fun _ h => h
  split
  · exact Nat.le_refl _
  · rename_i hempty
    have : 0 < code.counts.length := List.length_pos_iff.mpr fun h => hempty (by simp [Code.isEmpty, h])
    omega

theorem takes_readLengthLengths (count : Nat) :
    Takes 0 (fun _ => True) (readLengthLengths count) := by
  rw [readLengthLengths]
  generalize lengthOrder.take count = symbols
  generalize Array.replicate 19 0 = lengths
  induction symbols generalizing lengths with
  | nil => exact Takes.pure trivial
  | cons symbol symbols ih =>
    rw [List.foldlM_cons]
    have hone : Takes 0 (fun _ => True) (do
        return lengths.setIfInBounds symbol (← BitReader.number 3) : BitReader (Array Nat)) :=
      (Takes.number 3).bind_right fun _ _ => Takes.pure trivial
    exact hone.bind fun lengths _ => ih lengths

theorem takes_readLengths (code : Code) (total bound : Nat) (lengths : Array Nat) :
    Takes 0 (fun _ => True) (readLengths code total bound lengths) := by
  induction bound generalizing lengths with
  | zero => exact Takes.starve
  | succ bound ih =>
    rw [readLengths]
    refine Takes.ite (fun _ => Takes.pure trivial) fun _ => ?_
    refine (takes_symbol code).bind_right fun symbol _ => Takes.ite (fun _ => ih _) fun _ => ?_
    -- whatever run is read, it is one of so many lengths or the reader stops
    have hrun (run : Nat × Nat) : Takes 0 (fun _ => True) (do
        if total < lengths.size + run.2 then BitReader.fail .bitLengthRepeat
        readLengths code total bound (lengths ++ Array.replicate run.2 run.1)) :=
      Takes.ite (fun _ => Takes.fail_bind _ _) fun _ => ih _
    refine Takes.ite (fun _ => ?_) fun _ => Takes.ite (fun _ => ?_) fun _ => ?_
    · refine (Takes.number 2).bind_right fun extra _ => ?_
      split
      · exact Takes.fail_bind _ _
      · rename_i last _
        exact hrun (last, 3 + extra)
    · exact (Takes.number 3).bind_right fun extra _ => hrun (0, 3 + extra)
    · exact (Takes.number 7).bind_right fun extra _ => hrun (0, 11 + extra)

theorem takes_readCodes : Takes 0 (fun _ => True) readCodes := by
  unfold readCodes
  refine (Takes.number 5).bind_right fun literalCount _ => (Takes.number 5).bind_right
    fun distanceCount _ => (Takes.number 4).bind_right fun lengthCount _ =>
    Takes.ite (fun _ => Takes.fail_bind _ _) fun _ => ?_
  refine (takes_readLengthLengths _).bind_right fun lengths _ =>
    Takes.ite (fun _ => ?_) fun _ => Takes.fail_bind _ _
  refine (takes_readLengths _ _ _ _).bind_right fun lengths _ =>
    Takes.ite (fun _ => Takes.fail_bind _ _) fun _ => ?_
  refine Takes.ite (fun _ => Takes.ite (fun _ => Takes.pure trivial) fun _ => ?_) fun _ => ?_
  · exact Takes.fail_bind _ _
  · exact Takes.fail_bind _ _

/-! ## The parts of a gzip stream -/

/-- A text that is skipped if a flag is set. -/
theorem takes_skipText_of {c : Prop} [Decidable c] {rest : BitReader Unit}
    (h : Takes 0 (fun _ => True) rest) :
    Takes 0 (fun _ => True) (if c then BitReader.skipText >>= fun _ => rest else rest) :=
  Takes.ite (fun _ => Takes.skipText.bind_right fun _ _ => h) fun _ => h

/-- The checksum of the header is over bytes of which all bits have been taken. -/
theorem takes_headerCheck (start : Nat) : Takes 0 (fun _ => True) (do
    let bits ← get
    let header := bits.bytes.extract start (bits.taken / 8)
    if (← BitReader.number 16) ≠ checksum header % 0x10000 then BitReader.fail .headerChecksum :
    BitReader Unit) := by
  refine Takes.get_bind (fun bits _ => ?_) fun bits more hfits => ?_
  · exact (Takes.number 16).bind_right fun _ _ =>
      Takes.ite (fun _ => Takes.fail _) fun _ => Takes.pure trivial
  · have hplace : bits.taken / 8 ≤ bits.bytes.size := by
      unfold Bits.Fits at hfits
      omega
    have hheader : (bits.extend more).bytes.extract start ((bits.extend more).taken / 8) =
        bits.bytes.extract start (bits.taken / 8) := Bits.extract_extend hplace start more
    simp only [hheader]

theorem takes_readHeader : Takes 1 (fun _ => True) readHeader := by
  unfold readHeader
  refine Takes.get_bind (fun bits _ => ?_) fun _ _ _ => rfl
  refine ((Takes.number 16).mono (by decide) fun _ h => h).bind_left fun magic _ =>
    Takes.ite (fun _ => Takes.fail_bind _ _) fun _ => ?_
  refine (Takes.number 16).bind_right fun flags _ => Takes.ite (fun _ => Takes.fail_bind _ _)
    fun _ => Takes.ite (fun _ => Takes.fail_bind _ _) fun _ => ?_
  refine (Takes.skip 48).bind_right fun _ _ => ?_
  have hcheck : Takes 0 (fun _ => True) (if flags.testBit 9 = true then _ else Pure.pure ()) :=
    Takes.ite (fun _ => takes_headerCheck (bits.taken / 8)) fun _ => Takes.pure trivial
  have htexts := takes_skipText_of (c := flags.testBit 11 = true)
    (takes_skipText_of (c := flags.testBit 12 = true) hcheck)
  exact Takes.ite (fun _ => (Takes.number 16).bind_right fun _ _ =>
    (Takes.skip _).bind_right fun _ _ => htexts) fun _ => htexts

theorem takes_readTrailer (output : Bytes) : Takes 64 (fun _ => True) (readTrailer output) := by
  unfold readTrailer
  refine Takes.skipToByte.bind_right fun _ _ => ?_
  refine (Takes.number 32).bind (n := 32) fun check _ => Takes.ite (fun _ => Takes.fail_bind _ _) fun _ => ?_
  refine (Takes.number 32).bind_left fun size _ => ?_
  exact Takes.ite (fun _ => Takes.fail _) fun _ => Takes.pure trivial

/-- A stage that has to write again no more bytes than a symbol stands for. -/
def Stage.Modest : Stage → Prop
  | .copy count _ _ _ => count ≤ maxCopy
  | _ => True

theorem modest_afterBlock (last : Bool) : (afterBlock last).Modest := by
  cases last <;> trivial

theorem afterBlock_ne_finished (last : Bool) : afterBlock last ≠ .finished := by
  cases last <;> exact fun h => (nomatch h)

theorem takes_readBlockHeader :
    Takes 1 (fun stage => stage.Modest ∧ stage ≠ .finished) readBlockHeader := by
  unfold readBlockHeader
  refine (Takes.number 1).bind_left fun last _ => (Takes.number 2).bind_right fun kind _ => ?_
  split
  · refine Takes.skipToByte.bind_right fun _ _ => (Takes.number 16).bind_right fun length _ =>
      (Takes.number 16).bind_right fun complement _ => ?_
    exact Takes.ite (fun _ => Takes.fail_bind _ _) fun _ =>
      Takes.pure ⟨trivial, fun h => (nomatch h)⟩
  · exact Takes.pure ⟨trivial, fun h => (nomatch h)⟩
  · exact takes_readCodes.bind_right fun codes _ => Takes.pure ⟨trivial, fun h => (nomatch h)⟩
  · exact Takes.fail _

/-- No length is above that of the longest copy. -/
theorem length_le_maxCopy {index base count extra : Nat}
    (h : lengthBases[index]? = some (base, count)) (hextra : extra < 2 ^ count) :
    base + extra ≤ maxCopy := by
  have hall : ∀ entry ∈ lengthBases, entry.1 + 2 ^ entry.2 ≤ maxCopy + 1 := by decide
  have := hall _ (List.mem_of_getElem? h)
  simp only at this
  omega

theorem takes_readSymbol (codes : BlockCodes) (last : Bool) :
    Takes 1 (fun stage => stage.Modest ∧ stage ≠ .finished) (readSymbol codes last) := by
  unfold readSymbol
  refine (takes_symbol codes.literals).bind_left fun symbol _ => ?_
  split
  · refine Takes.ite (fun _ => Takes.pure ⟨trivial, fun h => (nomatch h)⟩) fun _ =>
      Takes.ite (fun _ => Takes.pure ⟨modest_afterBlock last, afterBlock_ne_finished last⟩)
      fun _ => ?_
    split
    · rename_i lengthBase lengthBits hlength
      refine (Takes.number lengthBits).bind_right fun extra hextra =>
        (takes_symbol codes.distances).bind_right fun distanceSymbol _ => ?_
      split
      · split
        · exact (Takes.number _).bind_right fun _ _ =>
            Takes.pure ⟨length_le_maxCopy hlength hextra, fun h => (nomatch h)⟩
        · exact Takes.fail _
      · exact Takes.fail _
    · exact Takes.fail _
  · exact Takes.fail _

end ReleasePrompts.Archive
