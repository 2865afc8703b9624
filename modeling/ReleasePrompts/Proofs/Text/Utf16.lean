import ReleasePrompts.Text.Surrogate

/-!
# UTF-16

Code units spell a text if they are the units of its characters one behind the other, where a
surrogate that is no part of a pair spells the replacement character (`Spells16`). The units of code
points that escapes name spell the text that joining the surrogates gives, and no other
(`spells16_iff`).
-/

namespace ReleasePrompts.Text

/-- The units of a code point in UTF-16. -/
def codeUnits (n : Nat) : List Nat :=
  if n < 0x10000 then [n]
  else [0xD800 + (n - 0x10000) / 1024, 0xDC00 + (n - 0x10000) % 1024]

/-- Half of a pair. -/
def isSurrogate (n : Nat) : Bool := isHighSurrogate n || isLowSurrogate n

/-- Code units spell a text, a character for each surrogate that stands alone. -/
inductive Spells16 : List Nat → List Char → Prop where
  | nil : Spells16 [] []
  | char {c : Char} {units : List Nat} {text : List Char} (h : Spells16 units text) :
    Spells16 (codeUnits c.toNat ++ units) (c :: text)
  | alone {n : Nat} {units : List Nat} {text : List Char} (hn : isSurrogate n = true)
    (hpair : ¬(isHighSurrogate n = true ∧ ∃ low ∈ units.head?, isLowSurrogate low = true))
    (h : Spells16 units text) : Spells16 (n :: units) (replacement :: text)

theorem isSurrogate_iff {n : Nat} : isSurrogate n = true ↔ 0xD800 ≤ n ∧ n ≤ 0xDFFF := by
  simp only [isSurrogate, isHighSurrogate, isLowSurrogate, Bool.or_eq_true, Bool.and_eq_true,
    decide_eq_true_eq]
  omega

theorem isValidChar_iff {n : Nat} : n.isValidChar ↔ isSurrogate n = false ∧ n < 0x110000 := by
  rw [← Bool.not_eq_true, isSurrogate_iff, Nat.isValidChar]
  omega

theorem isSurrogate_toNat (c : Char) : isSurrogate c.toNat = false := (isValidChar_iff.mp c.valid).1

theorem isHighSurrogate_toNat (c : Char) : isHighSurrogate c.toNat = false :=
  (Bool.or_eq_false_iff.mp (isSurrogate_toNat c)).1

theorem charOfNat_toNat (c : Char) : charOfNat c.toNat = c := by
  rw [charOfNat, if_pos (show c.toNat.isValidChar from c.valid), Char.ofNat_toNat]

theorem charOfNat_of_isSurrogate {n : Nat} (h : isSurrogate n = true) :
    charOfNat n = replacement := by
  rw [charOfNat, if_neg]
  rw [isValidChar_iff, h]
  exact fun hn => absurd hn.1 (by decide)

theorem exists_toNat_eq {n : Nat} (h : n.isValidChar) : ∃ c : Char, c.toNat = n ∧ charOfNat n = c :=
  ⟨Char.ofNatAux n h, rfl, by rw [charOfNat, if_pos h, Char.ofNat, dif_pos h]⟩

/-- The units of a code point beyond the first plane are a pair of surrogates that stand for it. -/
theorem exists_pair {n : Nat} (hlow : 0x10000 ≤ n) (hhigh : n < 0x110000) :
    ∃ high low, codeUnits n = [high, low] ∧ isHighSurrogate high = true ∧
      isLowSurrogate low = true ∧ pairValue high low = n := by
  refine ⟨0xD800 + (n - 0x10000) / 1024, 0xDC00 + (n - 0x10000) % 1024, ?_, ?_, ?_, ?_⟩
  · rw [codeUnits, if_neg (Nat.not_lt.mpr hlow)]
  · simp only [isHighSurrogate, Bool.and_eq_true, decide_eq_true_eq]
    omega
  · simp only [isLowSurrogate, Bool.and_eq_true, decide_eq_true_eq]
    omega
  · unfold pairValue
    omega

theorem pairValue_bounds {high low : Nat} (hh : isHighSurrogate high = true)
    (hl : isLowSurrogate low = true) :
    0x10000 ≤ pairValue high low ∧ pairValue high low < 0x110000 := by
  simp only [isHighSurrogate, isLowSurrogate, Bool.and_eq_true, decide_eq_true_eq] at hh hl
  unfold pairValue
  omega

theorem codeUnits_pairValue {high low : Nat} (hh : isHighSurrogate high = true)
    (hl : isLowSurrogate low = true) : codeUnits (pairValue high low) = [high, low] := by
  have hlow := (pairValue_bounds hh hl).1
  simp only [isHighSurrogate, isLowSurrogate, Bool.and_eq_true, decide_eq_true_eq] at hh hl
  have hfirst : 0xD800 + (pairValue high low - 0x10000) / 1024 = high := by
    unfold pairValue
    omega
  have hsecond : 0xDC00 + (pairValue high low - 0x10000) % 1024 = low := by
    unfold pairValue
    omega
  rw [codeUnits, if_neg (Nat.not_lt.mpr hlow), hfirst, hsecond]

theorem joinSurrogates_cons {n : Nat} {rest : List Nat}
    (h : ¬(isHighSurrogate n = true ∧ ∃ low ∈ rest.head?, isLowSurrogate low = true)) :
    joinSurrogates (n :: rest) = charOfNat n :: joinSurrogates rest := by
  cases rest with
  | nil => rfl
  | cons low rest =>
    rw [joinSurrogates, if_neg]
    rw [Bool.and_eq_true]
    exact fun hpair => h ⟨hpair.1, low, rfl, hpair.2⟩

theorem joinSurrogates_toNat_cons (c : Char) (rest : List Nat) :
    joinSurrogates (c.toNat :: rest) = c :: joinSurrogates rest := by
  have hhigh : ¬(isHighSurrogate c.toNat = true ∧ ∃ low ∈ rest.head?, isLowSurrogate low = true) :=
    fun h => Bool.false_ne_true ((isHighSurrogate_toNat c).symm.trans h.1)
  rw [joinSurrogates_cons hhigh, charOfNat_toNat]

/-- The code points of characters are joined to no others. -/
theorem joinSurrogates_map_toNat (text : List Char) :
    joinSurrogates (text.map Char.toNat) = text := by
  induction text with
  | nil => rfl
  | cons c text ih => rw [List.map_cons, joinSurrogates_toNat_cons, ih]

/-- Units spell no text but the one that joining surrogates gives. -/
theorem Spells16.eq_joinSurrogates {units : List Nat} {text : List Char} (h : Spells16 units text) :
    text = joinSurrogates units := by
  induction h with
  | nil => rfl
  | @char c units text _ ih =>
    by_cases hc : c.toNat < 0x10000
    · have hhigh : ¬(isHighSurrogate c.toNat = true ∧
          ∃ low ∈ units.head?, isLowSurrogate low = true) := fun h => by
        have := isSurrogate_toNat c
        rw [isSurrogate, h.1] at this
        cases this
      rw [codeUnits, if_pos hc, List.singleton_append, joinSurrogates_cons hhigh, charOfNat_toNat, ih]
    · obtain ⟨high, low, hunits, hhigh, hlow, hvalue⟩ :=
        exists_pair (Nat.le_of_not_lt hc) (isValidChar_iff.mp c.valid).2
      rw [hunits, List.cons_append, List.singleton_append, joinSurrogates, hhigh, hlow, Bool.and_self,
        if_pos rfl, hvalue, Char.ofNat_toNat, ih]
  | alone hn hpair _ ih =>
    rw [joinSurrogates_cons hpair, charOfNat_of_isSurrogate hn, ih]

/-- A code point that makes no pair with what stands behind it spells its character. -/
theorem Spells16.cons {n : Nat} {units : List Nat} {text : List Char} (h : Spells16 units text)
    (hlt : n < 0x110000)
    (hpair : ¬(isHighSurrogate n = true ∧ ∃ low ∈ units.head?, isLowSurrogate low = true)) :
    Spells16 (codeUnits n ++ units) (charOfNat n :: text) := by
  by_cases hn : isSurrogate n = true
  · have hsmall : n < 0x10000 := Nat.lt_of_le_of_lt (isSurrogate_iff.mp hn).2 (by decide)
    rw [codeUnits, if_pos hsmall, charOfNat_of_isSurrogate hn]
    exact .alone hn hpair h
  · obtain ⟨c, rfl, hc⟩ := exists_toNat_eq (isValidChar_iff.mpr ⟨Bool.eq_false_iff.mpr hn, hlt⟩)
    rw [hc]
    exact .char h

/-- The units of a code point begin with a low surrogate only if it is one. -/
theorem eq_of_mem_head?_codeUnits {n low : Nat} {units : List Nat} (hlt : n < 0x110000)
    (h : low ∈ (codeUnits n ++ units).head?) (hlow : isLowSurrogate low = true) : low = n := by
  by_cases hn : n < 0x10000
  · rw [codeUnits, if_pos hn] at h
    exact (Option.some.inj h).symm
  · obtain ⟨first, second, hunits, hfirst, -⟩ := exists_pair (Nat.le_of_not_lt hn) hlt
    rw [hunits] at h
    obtain rfl := Option.some.inj h
    simp only [isHighSurrogate, isLowSurrogate, Bool.and_eq_true, decide_eq_true_eq] at hfirst hlow
    omega

/-- The units of code points spell the text that joining surrogates among the points gives. -/
theorem spells16_joinSurrogates {points : List Nat} (h : ∀ n ∈ points, n < 0x110000) :
    Spells16 (points.flatMap codeUnits) (joinSurrogates points) := by
  induction points using joinSurrogates.induct with
  | case1 => exact .nil
  | case2 n => exact Spells16.nil.cons (h n List.mem_cons_self) nofun
  | case3 high low rest hpair ih =>
    obtain ⟨hhigh, hlow⟩ := Bool.and_eq_true_iff.mp hpair
    have hbounds := pairValue_bounds hhigh hlow
    have hone : ∀ {n : Nat}, isSurrogate n = true → codeUnits n = [n] := fun hn =>
      if_pos (Nat.lt_of_le_of_lt (isSurrogate_iff.mp hn).2 (by decide))
    have hplain : isSurrogate (pairValue high low) = false := Bool.eq_false_iff.mpr fun hs => by
      have := (isSurrogate_iff.mp hs).2
      omega
    have hrest := (ih fun n hn => h n (List.mem_cons_of_mem _ (List.mem_cons_of_mem _ hn))).cons
      hbounds.2 fun hp => by rw [isSurrogate, hp.1] at hplain; cases hplain
    rw [codeUnits_pairValue hhigh hlow, charOfNat, if_pos (isValidChar_iff.mpr ⟨hplain, hbounds.2⟩)]
      at hrest
    rw [List.flatMap_cons, List.flatMap_cons, hone (by rw [isSurrogate, hhigh, Bool.true_or]),
      hone (by rw [isSurrogate, hlow, Bool.or_true]), joinSurrogates, if_pos hpair]
    exact hrest
  | case4 high low rest hpair ih =>
    rw [joinSurrogates, if_neg hpair]
    refine (ih fun n hn => h n (List.mem_cons_of_mem _ hn)).cons (h high List.mem_cons_self) ?_
    rintro ⟨hhigh, unit, hunit, hlow⟩
    rw [List.flatMap_cons] at hunit
    obtain rfl := eq_of_mem_head?_codeUnits (h low (by simp)) hunit hlow
    exact hpair (by rw [hhigh, hlow]; rfl)

/-- The units of code points spell one text only, in which the surrogates among them are joined. -/
theorem spells16_iff {points : List Nat} (h : ∀ n ∈ points, n < 0x110000) {text : List Char} :
    Spells16 (points.flatMap codeUnits) text ↔ text = joinSurrogates points := by
  have hjoined := spells16_joinSurrogates h
  refine ⟨fun hs => hs.eq_joinSurrogates.trans hjoined.eq_joinSurrogates.symm, ?_⟩
  rintro rfl
  exact hjoined

end ReleasePrompts.Text
