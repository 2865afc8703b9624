import Mathlib.Tactic.NormNum
import ReleasePrompts.Text.Utf8

/-!
# Decoding what was encoded

The bytes of a text decode to the text (`decodeLossy_encode`): the bytes of one character are taken
off as that character, whatever stands behind them (`decodeOne_utf8EncodeChar`).
-/

namespace ReleasePrompts.Text

theorem encode_eq (cs : List Char) : encode cs = (cs.flatMap String.utf8EncodeChar).toArray := by
  simp [encode, List.utf8Encode]

theorem isContinuation_iff {b : UInt8} :
    isContinuation b = true ↔ 128 ≤ b.toNat ∧ b.toNat ≤ 191 := by
  simp [isContinuation, UInt8.le_iff_toNat_le]

theorem secondOfThree_iff {lead b : UInt8} : secondOfThree lead b = true ↔
    128 ≤ b.toNat ∧ b.toNat ≤ 191 ∧ (lead.toNat = 0xE0 → 0xA0 ≤ b.toNat) ∧
      (lead.toNat = 0xED → b.toNat ≤ 0x9F) := by
  have he : lead = 0xE0 ↔ lead.toNat = 0xE0 := UInt8.toNat_inj.symm
  have hd : lead = 0xED ↔ lead.toNat = 0xED := UInt8.toNat_inj.symm
  simp only [secondOfThree, beq_iff_eq, he, hd]
  split
  · simp [UInt8.le_iff_toNat_le]
    omega
  · split
    · simp [UInt8.le_iff_toNat_le]
      omega
    · simp only [isContinuation_iff]
      omega

theorem secondOfFour_iff {lead b : UInt8} : secondOfFour lead b = true ↔
    128 ≤ b.toNat ∧ b.toNat ≤ 191 ∧ (lead.toNat = 0xF0 → 0x90 ≤ b.toNat) ∧
      (lead.toNat = 0xF4 → b.toNat ≤ 0x8F) := by
  have he : lead = 0xF0 ↔ lead.toNat = 0xF0 := UInt8.toNat_inj.symm
  have hd : lead = 0xF4 ↔ lead.toNat = 0xF4 := UInt8.toNat_inj.symm
  simp only [secondOfFour, beq_iff_eq, he, hd]
  split
  · simp [UInt8.le_iff_toNat_le]
    omega
  · split
    · simp [UInt8.le_iff_toNat_le]
      omega
    · simp only [isContinuation_iff]
      omega

theorem toNat_byte {n : Nat} (h : n < 256) : (UInt8.ofNat n).toNat = n :=
  UInt8.toNat_ofNat_of_lt h

/-! ## The lengths of a character -/

theorem not_ascii {lead : UInt8} (h : 128 ≤ lead.toNat) : ¬lead < 0x80 := fun hlt =>
  absurd (UInt8.lt_iff_toNat_lt.mp hlt) (Nat.not_lt.mpr h)

theorem decodeOne_one {lead : UInt8} (h : lead.toNat < 0x80) (rest : List UInt8) :
    decodeOne lead rest = (Char.ofNat lead.toNat, rest) := by
  have hlt : lead < 0x80 := UInt8.lt_iff_toNat_lt.mpr h
  simp only [decodeOne, if_pos hlt]

theorem decodeOne_two {lead b : UInt8} (h : 0xC2 ≤ lead.toNat ∧ lead.toNat ≤ 0xDF)
    (hb : isContinuation b = true) (rest : List UInt8) :
    decodeOne lead (b :: rest) = (Char.ofNat (lead.toNat % 32 * 64 + payload b), rest) := by
  have h₁ : ¬lead < 0x80 := not_ascii (by omega)
  have h₂ : (0xC2 ≤ lead && lead ≤ 0xDF) = true := by
    simpa [UInt8.le_iff_toNat_le] using h
  simp only [decodeOne, if_neg h₁, if_pos h₂, if_pos hb]

theorem decodeOne_three {lead b c : UInt8} (h : 0xE0 ≤ lead.toNat ∧ lead.toNat ≤ 0xEF)
    (hb : secondOfThree lead b = true) (hc : isContinuation c = true) (rest : List UInt8) :
    decodeOne lead (b :: c :: rest) =
      (Char.ofNat ((lead.toNat % 16 * 64 + payload b) * 64 + payload c), rest) := by
  have h₁ : ¬lead < 0x80 := not_ascii (by omega)
  have h₂ : ¬(0xC2 ≤ lead && lead ≤ 0xDF) = true := by
    simp [UInt8.le_iff_toNat_le]
    omega
  have h₃ : (0xE0 ≤ lead && lead ≤ 0xEF) = true := by
    simpa [UInt8.le_iff_toNat_le] using h
  simp only [decodeOne, if_neg h₁, if_neg h₂, if_pos h₃, hb, Bool.not_true, Bool.false_eq_true,
    if_false, if_pos hc]

theorem decodeOne_four {lead b c d : UInt8} (h : 0xF0 ≤ lead.toNat ∧ lead.toNat ≤ 0xF4)
    (hb : secondOfFour lead b = true) (hc : isContinuation c = true)
    (hd : isContinuation d = true) (rest : List UInt8) :
    decodeOne lead (b :: c :: d :: rest) =
      (Char.ofNat (((lead.toNat % 8 * 64 + payload b) * 64 + payload c) * 64 + payload d),
        rest) := by
  have h₁ : ¬lead < 0x80 := not_ascii (by omega)
  have h₂ : ¬(0xC2 ≤ lead && lead ≤ 0xDF) = true := by
    simp [UInt8.le_iff_toNat_le]
    omega
  have h₃ : ¬(0xE0 ≤ lead && lead ≤ 0xEF) = true := by
    simp [UInt8.le_iff_toNat_le]
    omega
  have h₄ : (0xF0 ≤ lead && lead ≤ 0xF4) = true := by
    simpa [UInt8.le_iff_toNat_le] using h
  simp only [decodeOne, if_neg h₁, if_neg h₂, if_neg h₃, if_pos h₄, hb, hc, Bool.not_true,
    Bool.false_eq_true, if_false, if_pos hd]

theorem utf8EncodeChar_eq (c : Char) : String.utf8EncodeChar c =
    if c.toNat ≤ 127 then [UInt8.ofNat c.toNat]
    else if c.toNat ≤ 2047 then
      [UInt8.ofNat (c.toNat / 64 % 32 + 192), UInt8.ofNat (c.toNat % 64 + 128)]
    else if c.toNat ≤ 65535 then
      [UInt8.ofNat (c.toNat / 4096 % 16 + 224), UInt8.ofNat (c.toNat / 64 % 64 + 128),
        UInt8.ofNat (c.toNat % 64 + 128)]
    else
      [UInt8.ofNat (c.toNat / 262144 % 8 + 240), UInt8.ofNat (c.toNat / 4096 % 64 + 128),
        UInt8.ofNat (c.toNat / 64 % 64 + 128), UInt8.ofNat (c.toNat % 64 + 128)] := rfl

/-- The bytes of a character are taken off as that character. -/
theorem decodeOne_utf8EncodeChar (c : Char) (rest : List UInt8) :
    ∃ lead others, String.utf8EncodeChar c = lead :: others ∧
      decodeOne lead (others ++ rest) = (c, rest) := by
  have hvalid : c.toNat < 0xD800 ∨ 0xDFFF < c.toNat ∧ c.toNat < 0x110000 := c.valid
  have hc := Char.ofNat_toNat c
  rw [utf8EncodeChar_eq]
  generalize c.toNat = v at *
  have hlast := toNat_byte (n := v % 64 + 128) (by omega)
  have hthird := toNat_byte (n := v / 64 % 64 + 128) (by omega)
  have hsecond := toNat_byte (n := v / 4096 % 64 + 128) (by omega)
  split
  · refine ⟨_, _, rfl, ?_⟩
    have hlead := toNat_byte (n := v) (by omega)
    rw [List.nil_append, decodeOne_one (by omega), hlead, hc]
  split
  · refine ⟨_, _, rfl, ?_⟩
    have hlead := toNat_byte (n := v / 64 % 32 + 192) (by omega)
    rw [List.cons_append, List.nil_append,
      decodeOne_two (by omega) (isContinuation_iff.mpr (by omega)), payload, hlead, hlast]
    rw [show (v / 64 % 32 + 192) % 32 * 64 + (v % 64 + 128) % 64 = v by omega, hc]
  split
  · refine ⟨_, _, rfl, ?_⟩
    have hlead := toNat_byte (n := v / 4096 % 16 + 224) (by omega)
    rw [List.cons_append, List.cons_append, List.nil_append,
      decodeOne_three (by omega) (secondOfThree_iff.mpr (by omega))
        (isContinuation_iff.mpr (by omega)), payload, payload, hlead, hthird, hlast]
    rw [show ((v / 4096 % 16 + 224) % 16 * 64 + (v / 64 % 64 + 128) % 64) * 64 +
      (v % 64 + 128) % 64 = v by omega, hc]
  · refine ⟨_, _, rfl, ?_⟩
    have hlead := toNat_byte (n := v / 262144 % 8 + 240) (by omega)
    rw [List.cons_append, List.cons_append, List.cons_append, List.nil_append,
      decodeOne_four (by omega) (secondOfFour_iff.mpr (by omega))
        (isContinuation_iff.mpr (by omega)) (isContinuation_iff.mpr (by omega)), payload, payload,
      payload, hlead, hsecond, hthird, hlast]
    rw [show (((v / 262144 % 8 + 240) % 8 * 64 + (v / 4096 % 64 + 128) % 64) * 64 +
      (v / 64 % 64 + 128) % 64) * 64 + (v % 64 + 128) % 64 = v by omega, hc]

theorem decodeBehind_flatMap (read cs : List Char) :
    decodeBehind read (cs.flatMap String.utf8EncodeChar) = read.reverse ++ cs := by
  induction cs generalizing read with
  | nil => simp [decodeBehind]
  | cons c cs ih =>
    obtain ⟨lead, others, heq, hone⟩ :=
      decodeOne_utf8EncodeChar c (cs.flatMap String.utf8EncodeChar)
    rw [List.flatMap_cons, heq, List.cons_append, decodeBehind, hone, ih, List.reverse_cons,
      List.append_assoc, List.cons_append, List.nil_append]

/-- The bytes of a text decode to the text. -/
theorem decodeLossy_encode (cs : List Char) : decodeLossy (encode cs).toList = cs := by
  rw [decodeLossy, encode_eq, decodeBehind_flatMap, List.reverse_nil, List.nil_append]

/-- Only NUL has a zero byte. -/
theorem toNat_ne_zero_of_mem_utf8EncodeChar {c : Char} (h : c ≠ '\x00') :
    ∀ byte ∈ String.utf8EncodeChar c, byte.toNat ≠ 0 := by
  have hpos : c.toNat ≠ 0 := fun h0 => h (Char.toNat_inj.mp h0)
  have hvalid : c.toNat < 0xD800 ∨ 0xDFFF < c.toNat ∧ c.toNat < 0x110000 := c.valid
  rw [utf8EncodeChar_eq]
  generalize c.toNat = v at hpos hvalid
  -- of several bytes each has a bit set that marks its place
  split
  · simp only [List.forall_mem_singleton, UInt8.toNat_ofNat']
    omega
  split
  · simp only [List.forall_mem_cons, List.not_mem_nil, UInt8.toNat_ofNat', false_imp_iff,
      forall_true_iff, and_true]
    omega
  split
  · simp only [List.forall_mem_cons, List.not_mem_nil, UInt8.toNat_ofNat', false_imp_iff,
      forall_true_iff, and_true]
    omega
  · simp only [List.forall_mem_cons, List.not_mem_nil, UInt8.toNat_ofNat', false_imp_iff,
      forall_true_iff, and_true]
    omega

theorem zero_not_mem_encode {cs : List Char} (h : '\x00' ∉ cs) :
    (0 : UInt8) ∉ (encode cs).toList := by
  rw [encode_eq, List.toList_toArray, List.mem_flatMap]
  rintro ⟨c, hc, hzero⟩
  exact toNat_ne_zero_of_mem_utf8EncodeChar (fun heq => h (heq ▸ hc)) 0 hzero rfl

end ReleasePrompts.Text
