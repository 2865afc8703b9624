import ReleasePrompts.Archive.Pack
import ReleasePrompts.Proofs.Archive.Scan
import ReleasePrompts.Proofs.Text.Utf8

/-!
# Archives of members

An archive is written member after member (`Member`): a header block with the path, the size of the
content in octal digits and a type flag, then the content and zeros up to a whole block. Blocks that
begin with a zero byte but are not all zero may stand between members (`Item`), and behind the last
of them there is either nothing or a block of zeros and anything at all (`Ending`). The scan takes
one item at a step (`scanAt_item`), so it comes upon every member however the content before it looks,
and `unpack?` gives back the regular files (`unpack?_archive`).
-/

namespace ReleasePrompts.Archive

open Text Number

/-! ## Sizes as they are written -/

/-- The byte of an octal digit. -/
def digitByte (d : Nat) : UInt8 := UInt8.ofNat (48 + d)

/-- Bytes that spell octal digits, with white space anywhere. -/
inductive Spells : List UInt8 → List Nat → Prop
  | nil : Spells [] []
  | blank {byte : UInt8} {bytes : List UInt8} {digits : List Nat} :
      byte ∈ [9, 10, 11, 12, 13, 32] → Spells bytes digits → Spells (byte :: bytes) digits
  | digit {d : Nat} {bytes : List UInt8} {digits : List Nat} :
      d < 8 → Spells bytes digits → Spells (digitByte d :: bytes) (d :: digits)

/-- A size field holds the octal digits of a size, perhaps behind zeros, and either they fill it or
a zero byte ends them. -/
structure StatesSize (field : List UInt8) (size : Nat) : Prop where
  length : field.length = 12
  spelled : ∃ text digits, Spells text digits ∧ digits ≠ [] ∧
    Nat.ofDigits 8 digits.reverse = size ∧ (field = text ∨ ∃ behind, field = text ++ 0 :: behind)

theorem isFieldBlank_of_mem {byte : UInt8} (h : byte ∈ [9, 10, 11, 12, 13, 32]) :
    isFieldBlank byte = true := by
  simp only [List.mem_cons, List.not_mem_nil, or_false] at h
  rcases h with rfl | rfl | rfl | rfl | rfl | rfl <;> decide

theorem toNat_digitByte {d : Nat} (h : d < 8) : (digitByte d).toNat = 48 + d :=
  toNat_byte (by omega)

theorem isFieldBlank_digitByte {d : Nat} (h : d < 8) : isFieldBlank (digitByte d) = false := by
  have hcode := toNat_digitByte h
  simp only [isFieldBlank, Bool.or_eq_false_iff, beq_eq_false_iff_ne, ne_eq, ← UInt8.toNat_inj,
    Bool.and_eq_false_iff, decide_eq_false_iff_not, UInt8.le_iff_toNat_le, hcode]
  exact ⟨by simp; omega, .inr (by simp; omega)⟩

namespace Spells

variable {text : List UInt8} {digits : List Nat}

theorem lt_eight (h : Spells text digits) : ∀ d ∈ digits, d < 8 := by
  induction h with
  | nil => exact fun d hd => absurd hd List.not_mem_nil
  | blank _ _ ih => exact ih
  | digit hd _ ih => exact List.forall_mem_cons.mpr ⟨hd, ih⟩

/-- Digits alone are spelled by their bytes. -/
theorem map_digitByte (h : ∀ d ∈ digits, d < 8) : Spells (digits.map digitByte) digits := by
  induction digits with
  | nil => exact .nil
  | cons d digits ih =>
    obtain ⟨hd, h⟩ := List.forall_mem_cons.mp h
    exact .digit hd (ih h)

theorem ne_zero (h : Spells text digits) : ∀ byte ∈ text, byte ≠ 0 := by
  induction h with
  | nil => exact fun byte hb => absurd hb List.not_mem_nil
  | blank hb _ ih =>
    refine List.forall_mem_cons.mpr ⟨fun he => ?_, ih⟩
    subst he
    exact absurd hb (by decide)
  | digit hd _ ih =>
    refine List.forall_mem_cons.mpr ⟨fun he => ?_, ih⟩
    have hcode := toNat_digitByte hd
    rw [he, UInt8.toNat_zero] at hcode
    omega

theorem filter_eq (h : Spells text digits) :
    text.filter (fun byte => !isFieldBlank byte) = digits.map digitByte := by
  induction h with
  | nil => rfl
  | blank hb _ ih =>
    rw [List.filter_cons_of_neg (by simp [isFieldBlank_of_mem hb]), ih]
  | digit hd _ ih =>
    rw [List.filter_cons_of_pos (by simp [isFieldBlank_digitByte hd]), ih, List.map_cons]

end Spells

/-- The text of a field ends at its first zero byte. -/
theorem fieldText_of_zero {text field : List UInt8} (h : ∀ byte ∈ text, byte ≠ 0)
    (hfield : field = text ∨ ∃ behind, field = text ++ 0 :: behind) :
    fieldText field.toArray = text := by
  have hp : ∀ byte ∈ text, (byte != 0) = true := fun byte hb => bne_iff_ne.mpr (h byte hb)
  rcases hfield with rfl | ⟨behind, rfl⟩
  · rw [fieldText, List.toList_toArray, List.takeWhile_eq_self_iff.mpr hp]
  · rw [fieldText, List.toList_toArray, List.takeWhile_append_of_pos hp, List.takeWhile_cons_of_neg
      (by decide), List.append_nil]

theorem parseSize_of_statesSize {field : List UInt8} {size : Nat} (h : StatesSize field size) :
    parseSize field.toArray = size := by
  obtain ⟨text, digits, hspells, hne, hvalue, hfield⟩ := h.spelled
  have hlt := hspells.lt_eight
  have htext : (fieldText field.toArray).filter (fun byte => !isFieldBlank byte) =
      digits.map digitByte := by
    rw [fieldText_of_zero hspells.ne_zero hfield, hspells.filter_eq]
  have hascii : ((digits.map digitByte).any fun byte => 128 ≤ byte) = false := by
    rw [List.any_map, List.any_eq_false]
    intro d hd
    have hcode := toNat_digitByte (hlt d hd)
    have := hlt d hd
    simp only [Function.comp_apply, decide_eq_true_eq, UInt8.le_iff_toNat_le, hcode]
    simp
    omega
  have hchars : (digits.map digitByte).map (fun byte => Char.ofNat byte.toNat) =
      digits.map digitChar := by
    rw [List.map_map]
    refine List.map_congr_left fun d hd => ?_
    rw [Function.comp_apply, toNat_digitByte (hlt d hd), digitChar]
  have hread : readInteger (.given 8) (digits.map digitChar) = .ok (ofDigits 8 digits : Int) :=
    readInteger_map_digitChar (by decide) hne hlt (.inl (by decide))
  simp only [parseSize, htext, hascii, hchars, hread]
  rw [if_neg Bool.false_ne_true, ofDigits_eq, hvalue]

/-! ## Members -/

/-- A member of an archive as it is written. The bytes of its header that the scan does not read are
those before the size (`owner`), before the flag (`stamp`) and behind it (`others`). -/
structure Member where
  path : List Char
  content : Bytes
  flag : UInt8
  sizeField : List UInt8
  owner : List UInt8
  stamp : List UInt8
  others : List UInt8
  named : path ≠ []
  no_zero : '\x00' ∉ path
  path_le : (encode path).size ≤ 100
  states : StatesSize sizeField content.size
  owner_length : owner.length = 24
  stamp_length : stamp.length = 20
  others_length : others.length = 355

namespace Member

variable (m : Member)

/-- The bytes that hold the path. -/
def pathField : List UInt8 :=
  (encode m.path).toList ++ List.replicate (100 - (encode m.path).size) 0

/-- The header block. -/
def header : List UInt8 :=
  m.pathField ++ m.owner ++ m.sizeField ++ m.stamp ++ [m.flag] ++ m.others

/-- The header, the content and the zeros that fill its last block. -/
def bytes : List UInt8 :=
  m.header ++ m.content.toList ++ (blockPadding m.content.size).toList

/-- Whether the type flag is that of a regular file. -/
def isRegular : Bool := m.flag == 48 || m.flag == 0

/-- What is taken from the member. -/
def entry : Entry := ⟨String.ofList m.path, m.content, m.content.size⟩

theorem length_pathField : m.pathField.length = 100 := by
  have hle := m.path_le
  simp only [pathField, List.length_append, Array.length_toList, List.length_replicate]
  omega

theorem length_header : m.header.length = blockSize := by
  simp only [header, List.length_append, List.length_cons, List.length_nil, m.length_pathField,
    m.owner_length, m.states.length, m.stamp_length, m.others_length, blockSize]

end Member

/-- The part of some bytes with a given length behind others. -/
theorem extract_append {before middle behind : List UInt8} {start stop : Nat}
    (hstart : before.length = start) (hstop : start + middle.length = stop) :
    (before ++ middle ++ behind).toArray.extract start stop = middle.toArray := by
  subst hstart
  subst hstop
  rw [List.extract_toArray, List.extract_eq_take_drop, Nat.add_sub_cancel_left, List.append_assoc,
    List.drop_left, List.take_left]

namespace Member

variable (m : Member)

theorem extract_path : m.header.toArray.extract 0 100 = m.pathField.toArray := by
  have hshape : m.header = [] ++ m.pathField ++
      (m.owner ++ m.sizeField ++ m.stamp ++ [m.flag] ++ m.others) := by
    simp only [header, List.append_assoc, List.nil_append]
  rw [hshape]
  exact extract_append rfl (by rw [m.length_pathField])

theorem extract_size : m.header.toArray.extract 124 136 = m.sizeField.toArray := by
  have hshape : m.header = m.pathField ++ m.owner ++ m.sizeField ++
      (m.stamp ++ [m.flag] ++ m.others) := by
    simp only [header, List.append_assoc]
  rw [hshape]
  refine extract_append ?_ (by rw [m.states.length])
  rw [List.length_append, m.length_pathField, m.owner_length]

theorem extract_flag : m.header.toArray.extract 156 157 = #[m.flag] := by
  refine extract_append ?_ rfl
  simp only [List.length_append, m.length_pathField, m.owner_length, m.states.length,
    m.stamp_length]

theorem parsePath_header : parsePath (m.header.toArray.extract 0 100) = m.path := by
  have hne : ∀ byte ∈ (encode m.path).toList, byte ≠ 0 := fun byte hb he =>
    zero_not_mem_encode m.no_zero (he ▸ hb)
  rw [m.extract_path, parsePath, fieldText_of_zero hne, decodeLossy_encode]
  -- the path fills its field, or the first of the zeros behind it ends it
  unfold pathField
  cases 100 - (encode m.path).size with
  | zero => exact .inl (List.append_nil _)
  | succ n => exact .inr ⟨List.replicate n 0, by rw [List.replicate_succ]⟩

theorem parseSize_header : parseSize (m.header.toArray.extract 124 136) = m.content.size := by
  rw [m.extract_size, parseSize_of_statesSize m.states]

theorem isRegularFlag_header : isRegularFlag (m.header.toArray.extract 156 157) = m.isRegular := by
  rw [m.extract_flag]
  simp [isRegularFlag, isRegular]

theorem header_not_zero : m.header.toArray.all (· == 0) = false := by
  obtain ⟨c, cs, hpath⟩ := List.exists_cons_of_ne_nil m.named
  obtain ⟨byte, others, hbytes, -⟩ := decodeOne_utf8EncodeChar c []
  have hmem : byte ∈ (encode m.path).toList := by
    rw [hpath, encode_eq, List.toList_toArray, List.flatMap_cons, hbytes]
    exact List.mem_cons_self
  have hne : byte ≠ 0 := fun he => zero_not_mem_encode m.no_zero (he ▸ hmem)
  rw [Array.all_eq_false']
  refine ⟨byte, ?_, by simpa using hne⟩
  simp [header, pathField, Array.mem_toList_iff.mp hmem]

end Member

/-! ## Archives -/

/-- What stands in an archive before its end: a member, or a block that begins with a zero byte but
is not all zero. -/
inductive Item where
  | member (m : Member)
  | blank (others : List UInt8) (hlength : others.length + 1 = blockSize)
      (hsome : ∃ byte ∈ others, byte ≠ 0)

/-- The bytes of an item. -/
def Item.bytes : Item → List UInt8
  | member m => m.bytes
  | blank others _ _ => 0 :: others

/-- The regular file of an item. -/
def Item.entry? : Item → Option Entry
  | member m => if m.isRegular then some m.entry else none
  | blank _ _ _ => none

/-- What stands behind the last item: nothing, or a block of zeros with anything behind it. -/
inductive Ending where
  | nothing
  | zeros (behind : List UInt8)

/-- The bytes of the end of an archive. -/
def Ending.bytes : Ending → List UInt8
  | nothing => []
  | zeros behind => List.replicate blockSize 0 ++ behind

/-- The archive of some items. -/
def archive (items : List Item) (ending : Ending) : Bytes :=
  (items.flatMap Item.bytes ++ ending.bytes).toArray

theorem placeIn_of_le {size place : Nat} (h : place ≤ size) : placeIn size place = place := by
  rw [placeIn, if_neg (Int.not_lt.mpr (Int.natCast_nonneg _)), Int.toNat_natCast, Nat.min_eq_left h]

theorem part_append {before middle behind : List UInt8} {start stop : Int}
    (hstart : start = before.length) (hstop : stop = start + middle.length) :
    part (before ++ middle ++ behind).toArray start stop = middle.toArray := by
  have hsize : (before ++ middle ++ behind).toArray.size =
      before.length + middle.length + behind.length := by
    simp only [List.size_toArray, List.length_append]
  have hlast : ((before.length : Int) + middle.length) = ((before.length + middle.length : Nat) : Int) :=
    (Int.natCast_add _ _).symm
  rw [hstop, hstart, hlast, part, hsize, placeIn_of_le (by omega), placeIn_of_le (by omega)]
  exact extract_append rfl rfl

theorem headerAt_append {before header behind : List UInt8} (h : header.length = blockSize) :
    headerAt (before ++ header ++ behind).toArray before.length = header.toArray :=
  part_append rfl (by rw [h])

/-- A size and the zeros that fill its last block make whole blocks. -/
theorem roundUp_natCast (size : Nat) : roundUp size = size + (blockPadding size).size := by
  have hpos : (0 : Int) ≤ (512 : Nat) := by decide
  simp only [roundUp, blockPadding, blockSize, Array.size_replicate,
    Int.fdiv_eq_ediv_of_nonneg (-(size : Int)) hpos]
  omega

/-- At a member the scan finds its file if it is regular, and goes on behind its last block. -/
theorem scanAt_member (m : Member) (before behind : List UInt8) :
    scanAt (before ++ m.bytes ++ behind).toArray before.length =
      some ⟨if m.isRegular then some m.entry else none, before.length + m.bytes.length⟩ := by
  have hshape : before ++ m.bytes ++ behind = before ++ m.header ++
      (m.content.toList ++ ((blockPadding m.content.size).toList ++ behind)) := by
    simp only [Member.bytes, List.append_assoc]
  have hheader : headerAt (before ++ m.bytes ++ behind).toArray before.length =
      m.header.toArray := by
    rw [hshape]
    exact headerAt_append m.length_header
  have hcontent : part (before ++ m.bytes ++ behind).toArray (before.length + blockSize)
      (before.length + blockSize + m.content.size) = m.content := by
    rw [hshape, ← List.append_assoc _ m.content.toList]
    have hstart : (before.length : Int) + blockSize = (before ++ m.header).length := by
      rw [List.length_append, m.length_header, Int.natCast_add]
    exact part_append hstart rfl
  have hfits : (before.length : Int) + blockSize ≤ (before ++ m.bytes ++ behind).toArray.size := by
    have hlength := m.length_header
    simp only [hshape, List.size_toArray, List.length_append]
    omega
  have hnext : (before.length : Int) + blockSize + roundUp m.content.size =
      before.length + m.bytes.length := by
    simp only [roundUp_natCast, Member.bytes, List.length_append, m.length_header,
      Array.length_toList]
    omega
  have hnamed : (parsePath (m.header.toArray.extract 0 100)).isEmpty = false := by
    rw [m.parsePath_header, List.isEmpty_eq_false_iff]
    exact m.named
  rw [scanAt_of_headerAt hfits hheader m.header_not_zero hnamed, m.parsePath_header,
    m.parseSize_header, m.isRegularFlag_header, hcontent, hnext]
  rfl

/-- A block that begins with a zero byte but is not all zero names no path. -/
theorem scanAt_blank {others : List UInt8} (hlength : others.length + 1 = blockSize)
    (hsome : ∃ byte ∈ others, byte ≠ 0) (before behind : List UInt8) :
    scanAt (before ++ 0 :: others ++ behind).toArray before.length =
      some ⟨none, before.length + (0 :: others).length⟩ := by
  have hheader : part (before ++ 0 :: others ++ behind).toArray before.length
      (before.length + blockSize) = (0 :: others).toArray :=
    headerAt_append hlength
  have hzero : (0 :: others).toArray.all (· == 0) = false := by
    obtain ⟨b, hb, hne⟩ := hsome
    rw [Array.all_eq_false']
    exact ⟨b, by simp [hb], by simpa using hne⟩
  have hpath : parsePath ((0 :: others).toArray.extract 0 100) = [] := by
    simp [parsePath, fieldText, List.extract_eq_take_drop, decodeLossy, decodeBehind]
  have hlt : ¬((before ++ 0 :: others ++ behind).toArray.size : Int) ≤ before.length := by
    simp only [List.size_toArray, List.length_append, List.length_cons]
    omega
  have hfits : ¬((before ++ 0 :: others ++ behind).toArray.size : Int) <
      before.length + blockSize := by
    simp only [List.size_toArray, List.length_append, List.length_cons, ← hlength]
    omega
  simp only [scanAt, hlt, hfits, hheader, hzero, hpath]
  simp [← hlength]

/-- The scan takes one item at a step. -/
theorem scanAt_item (item : Item) (before behind : List UInt8) :
    scanAt (before ++ item.bytes ++ behind).toArray before.length =
      some ⟨item.entry?, before.length + item.bytes.length⟩ := by
  cases item with
  | member m => exact scanAt_member m before behind
  | blank others hlength hsome => exact scanAt_blank hlength hsome before behind

/-- The scan ends where the items do. -/
theorem scanAt_ending (ending : Ending) (before : List UInt8) :
    scanAt (before ++ ending.bytes).toArray before.length = none := by
  cases ending with
  | nothing => simp [scanAt, Ending.bytes]
  | zeros behind =>
    have hheader : part (before ++ List.replicate blockSize 0 ++ behind).toArray before.length
        (before.length + blockSize) = (List.replicate blockSize 0).toArray :=
      headerAt_append List.length_replicate
    have hzero : (List.replicate blockSize (0 : UInt8)).toArray.all (· == 0) = true :=
      Array.all_eq_true'.mpr fun byte hb => by simpa using (List.mem_replicate.mp (by simpa using hb)).2
    rw [Ending.bytes, ← List.append_assoc]
    simp only [scanAt, hheader, hzero, if_true, ite_self]

theorem unpackFrom?_of_scanAt {data : Bytes} {place : Int} {found : Found}
    (h : scanAt data place = some found) (steps : Nat) (entries : List Entry) :
    unpackFrom? data (steps + 1) place entries =
      unpackFrom? data steps found.next (found.entry.toList ++ entries) := by
  obtain ⟨entry, next⟩ := found
  rw [unpackFrom?, h]
  cases entry with
  | none => rfl
  | some entry => rfl

/-- From any place where items begin, the scan collects their files. -/
theorem unpackFrom?_items (items : List Item) (ending : Ending) (before : List UInt8)
    (found : List Entry) {steps : Nat} (hsteps : items.length < steps) :
    unpackFrom? (before ++ items.flatMap Item.bytes ++ ending.bytes).toArray steps before.length
      found = some (found.reverse ++ items.filterMap Item.entry?) := by
  induction items generalizing before found steps with
  | nil =>
    obtain ⟨steps, rfl⟩ := Nat.exists_eq_succ_of_ne_zero (Nat.ne_of_gt hsteps)
    rw [List.flatMap_nil, List.append_nil, unpackFrom?_of_none (scanAt_ending ending before)]
    simp
  | cons item items ih =>
    obtain ⟨steps, rfl⟩ := Nat.exists_eq_succ_of_ne_zero (Nat.ne_zero_of_lt hsteps)
    have hscan := scanAt_item item before (items.flatMap Item.bytes ++ ending.bytes)
    have hrest := ih (before ++ item.bytes) (item.entry?.toList ++ found)
      (Nat.lt_of_succ_lt_succ hsteps)
    rw [List.length_append, Int.natCast_add] at hrest
    simp only [List.append_assoc] at hscan hrest
    simp only [List.flatMap_cons, List.append_assoc]
    rw [unpackFrom?_of_scanAt hscan, hrest]
    cases hentry : item.entry? with
    | none => simp [hentry]
    | some entry => simp [hentry]

theorem Item.blockSize_le (item : Item) : blockSize ≤ item.bytes.length := by
  cases item with
  | member m =>
    rw [Item.bytes, Member.bytes, List.append_assoc, List.length_append, m.length_header]
    exact Nat.le_add_right _ _
  | blank others hlength _ => exact Nat.le_of_eq hlength.symm

theorem length_items_le (items : List Item) :
    blockSize * items.length ≤ (items.flatMap Item.bytes).length := by
  induction items with
  | nil => exact Nat.le_refl _
  | cons item items ih =>
    rw [List.flatMap_cons, List.length_append, List.length_cons, Nat.mul_succ]
    have := item.blockSize_le
    omega

/-- Unpacking an archive gives back the regular files among its members, in order, each with its
path, its content and its size. -/
theorem unpack?_archive (items : List Item) (ending : Ending) :
    unpack? (archive items ending) = some (items.filterMap Item.entry?) := by
  have hsteps : items.length < 2 * ((archive items ending).size / blockSize) + 4 := by
    have hle := length_items_le items
    have hsize : (items.flatMap Item.bytes).length ≤ (archive items ending).size := by
      simp [archive]
    have hdiv : items.length ≤ (archive items ending).size / blockSize :=
      (Nat.le_div_iff_mul_le (by decide)).mpr (by rw [Nat.mul_comm]; omega)
    omega
  have h := unpackFrom?_items items ending [] [] hsteps
  rw [List.nil_append] at h
  exact h

/-- A file `a` with the bytes `hi`, or a member with another flag. -/
def hiMember (flag : UInt8) : Member where
  path := ['a']
  content := #[104, 105]
  flag := flag
  sizeField := [0, 0, 0, 0, 0, 0, 0, 0, 0, 0, 2].map digitByte ++ [0]
  owner := List.replicate 24 7
  stamp := List.replicate 20 0
  others := List.replicate 355 9
  named := List.cons_ne_nil _ _
  no_zero := by decide
  path_le := by decide +kernel
  states := ⟨rfl, _, _, Spells.map_digitByte (by decide), List.cons_ne_nil _ _, by decide,
    .inr ⟨[], rfl⟩⟩
  owner_length := rfl
  stamp_length := rfl
  others_length := List.length_replicate

/-- A block that begins with a zero byte and goes on with another. -/
def hiBlank : Item :=
  .blank (1 :: List.replicate 510 0) (by rw [List.length_cons, List.length_replicate, blockSize])
    ⟨1, List.mem_cons_self, by decide⟩

/-- The members of other types are left out, and what stands behind a block of zeros is not read. -/
theorem unpack?_archive_hi :
    unpack? (archive [.member (hiMember 53), hiBlank, .member (hiMember 48)]
      (.zeros (hiMember 48).header)) = some [⟨"a", #[104, 105], 2⟩] :=
  unpack?_archive _ _

end ReleasePrompts.Archive
