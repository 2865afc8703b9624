import ReleasePrompts.Proofs.Text.Occurrences
import ReleasePrompts.Proofs.Text.Utf8
import ReleasePrompts.Scope.Template

/-!
# What substitution leaves alone

In the text that `substitute` returns, each substitution of known value stands as that value, and
every other character of the template literal as itself, once and in its place
(`substituteFrom_eq_flatMap`). The same text is put together from the bytes of the source, where
every part is decoded by itself (`substituteBytesFrom_eq`): the ranges begin and end between
characters, so no part is ill-formed. `substitute_touches_only_known` says both of a template
literal.
-/

namespace ReleasePrompts.Scope

open Script Literal Text

/-- A substitution stands in the source with its delimiters. -/
structure Delimited (source : List Char) (substitution : Node) : Prop where
  length : substitution.start + 3 ≤ substitution.stop
  opening : slice source substitution.start (substitution.start + 2) = ['$', '{']
  closing : slice source (substitution.stop - 1) substitution.stop = ['}']

/-- Substitutions between two places, in order and apart from each other. -/
structure Arranged (source : List Char) (place stop : ℕ) (nodes : List Node) : Prop where
  le : place ≤ stop
  within : ∀ node ∈ nodes, place ≤ node.start ∧ node.stop ≤ stop
  ordered : nodes.Pairwise fun first second => first.stop ≤ second.start
  delimited : ∀ node ∈ nodes, Delimited source node

variable {source : List Char} {chain : Chain} {place stop : ℕ} {node : Node} {nodes : List Node}

theorem Arranged.tail (h : Arranged source place stop (node :: nodes)) :
    Arranged source place stop nodes where
  le := h.le
  within := (List.forall_mem_cons.mp h.within).2
  ordered := (List.pairwise_cons.mp h.ordered).2
  delimited := (List.forall_mem_cons.mp h.delimited).2

theorem Arranged.behind (h : Arranged source place stop (node :: nodes)) :
    Arranged source node.stop stop nodes where
  le := (h.within node List.mem_cons_self).2
  within := fun other hother => ⟨(List.pairwise_cons.mp h.ordered).1 other hother,
    (h.tail.within other hother).2⟩
  ordered := h.tail.ordered
  delimited := h.tail.delimited

/-! ## Characters -/

/-- Where the substitution of known value begins in which a place lies, and the value. -/
def filledAt? (source : List Char) (chain : Chain) (nodes : List Node) (place : ℕ) :
    Option (ℕ × List Char) :=
  nodes.findSome? fun node =>
    if node.start ≤ place ∧ place < node.stop then
      (chain.lookup? (expressionText source node)).map fun value => (node.start, value)
    else none

/-- What stands for the character at a place: a value where a substitution of this value begins,
nothing further in it, and elsewhere the character. -/
def standsAt (source : List Char) (chain : Chain) (nodes : List Node) (place : ℕ) : List Char :=
  match filledAt? source chain nodes place with
  | some (start, value) => if place = start then escapeTemplate value else []
  | none => source[place]?.toList

theorem slice_eq_flatMap (source : List Char) (place count : ℕ) :
    slice source place (place + count) =
      (List.range' place count).flatMap fun i => source[i]?.toList := by
  induction count generalizing place with
  | zero => simp [slice]
  | succ count ih =>
    have hone : slice source place (place + 1) = source[place]?.toList := by
      rw [slice, Nat.add_sub_cancel_left, List.take_one, List.head?_drop]
    have hsplit : place + (count + 1) = place + 1 + count := by omega
    rw [List.range'_succ, List.flatMap_cons, ← ih, ← hone, hsplit,
      slice_append_slice source (by omega) (by omega)]

theorem range'_eq_append {a b c : ℕ} (hab : a ≤ b) (hbc : b ≤ c) :
    List.range' a (c - a) = List.range' a (b - a) ++ List.range' b (c - b) := by
  have happend := List.range'_append_1 (s := a) (m := b - a) (n := c - b)
  rw [show a + (b - a) = b by omega, show b - a + (c - b) = c - a by omega] at happend
  exact happend.symm

theorem standsAt_of_lt (h : ∀ node ∈ nodes, place < node.start) :
    standsAt source chain nodes place = source[place]?.toList := by
  have hnone : filledAt? source chain nodes place = none :=
    List.findSome?_eq_none_iff.mpr fun node hnode =>
      if_neg fun hcovered => absurd (h node hnode) (Nat.not_lt.mpr hcovered.1)
  rw [standsAt, hnone]

theorem standsAt_unknown (h : chain.lookup? (expressionText source node) = none) (place : ℕ) :
    standsAt source chain (node :: nodes) place = standsAt source chain nodes place := by
  have hfilled :
      filledAt? source chain (node :: nodes) place = filledAt? source chain nodes place := by
    simp [filledAt?, h]
  rw [standsAt, hfilled, standsAt]

theorem standsAt_behind (h : node.stop ≤ place) :
    standsAt source chain (node :: nodes) place = standsAt source chain nodes place := by
  have hfilled :
      filledAt? source chain (node :: nodes) place = filledAt? source chain nodes place := by
    simp [filledAt?, Nat.not_lt.mpr h]
  rw [standsAt, hfilled, standsAt]

theorem standsAt_within {value : List Char}
    (h : chain.lookup? (expressionText source node) = some value) (hstart : node.start ≤ place)
    (hstop : place < node.stop) : standsAt source chain (node :: nodes) place =
      if place = node.start then escapeTemplate value else [] := by
  have hfilled : filledAt? source chain (node :: nodes) place = some (node.start, value) := by
    simp [filledAt?, h, hstart, hstop]
  rw [standsAt, hfilled]

/-- A substitution of known value stands as the value. -/
theorem flatMap_standsAt {value : List Char}
    (h : chain.lookup? (expressionText source node) = some value) (hlt : node.start < node.stop) :
    (List.range' node.start (node.stop - node.start)).flatMap
      (standsAt source chain (node :: nodes)) = escapeTemplate value := by
  obtain ⟨others, hothers⟩ : ∃ others, node.stop - node.start = others + 1 :=
    ⟨node.stop - node.start - 1, by omega⟩
  have hrest : (List.range' (node.start + 1) others).flatMap
      (standsAt source chain (node :: nodes)) = [] := by
    refine List.flatMap_eq_nil_iff.mpr fun i hi => ?_
    obtain ⟨hlow, hhigh⟩ := List.mem_range'_1.mp hi
    rw [standsAt_within h (by omega) (by omega), if_neg (by omega)]
  rw [hothers, List.range'_succ, List.flatMap_cons, hrest, List.append_nil,
    standsAt_within h le_rfl hlt, if_pos rfl]

/-- In front of the substitutions every character stands as itself. -/
theorem slice_eq_flatMap_standsAt {middle : ℕ} (hle : place ≤ middle)
    (h : ∀ node ∈ nodes, middle ≤ node.start) :
    slice source place middle =
      (List.range' place (middle - place)).flatMap (standsAt source chain nodes) := by
  obtain ⟨count, rfl⟩ := Nat.exists_eq_add_of_le hle
  rw [slice_eq_flatMap, Nat.add_sub_cancel_left]
  refine List.flatMap_congr fun i hi => (standsAt_of_lt fun node hnode => ?_).symm
  have := h node hnode
  have := (List.mem_range'_1.mp hi).2
  omega

/-- The text of a template literal with its substitutions resolved, character by character. -/
theorem substituteFrom_eq_flatMap (h : Arranged source place stop nodes) :
    substituteFrom source chain place stop nodes =
      (List.range' place (stop - place)).flatMap (standsAt source chain nodes) := by
  induction nodes generalizing place with
  | nil => exact slice_eq_flatMap_standsAt h.le nofun
  | cons node nodes ih =>
    cases hlookup : chain.lookup? (expressionText source node) with
    | none =>
      simp only [substituteFrom, hlookup]
      rw [ih h.tail]
      exact List.flatMap_congr fun i _ => (standsAt_unknown hlookup i).symm
    | some value =>
      obtain ⟨hstart, hstop⟩ := h.within node List.mem_cons_self
      have hlt : node.start < node.stop := by
        have := (h.delimited node List.mem_cons_self).length
        omega
      have hnodes : ∀ other ∈ node :: nodes, node.start ≤ other.start :=
        List.forall_mem_cons.mpr ⟨le_rfl, fun other hother =>
          hlt.le.trans (h.behind.within other hother).1⟩
      have hbehind : (List.range' node.stop (stop - node.stop)).flatMap
          (standsAt source chain (node :: nodes)) =
          (List.range' node.stop (stop - node.stop)).flatMap (standsAt source chain nodes) :=
        List.flatMap_congr fun i hi => standsAt_behind (List.mem_range'_1.mp hi).1
      simp only [substituteFrom, hlookup]
      rw [range'_eq_append hstart (hlt.le.trans hstop), range'_eq_append hlt.le hstop,
        List.flatMap_append, List.flatMap_append, flatMap_standsAt hlookup hlt, hbehind,
        ← ih h.behind, ← slice_eq_flatMap_standsAt hstart hnodes, List.append_assoc]

/-- Where no substitution is resolved, the text stays as it is. -/
theorem substituteFrom_eq_slice
    (h : ∀ node ∈ nodes, chain.lookup? (expressionText source node) = none) :
    substituteFrom source chain place stop nodes = slice source place stop := by
  induction nodes with
  | nil => rfl
  | cons node nodes ih =>
    obtain ⟨hnode, h⟩ := List.forall_mem_cons.mp h
    simp only [substituteFrom, hnode]
    exact ih h

/-! ## Replacements -/

theorem mem_of_mem_escapeTemplate {c : Char} {value : List Char} (hc : c ≠ '\\')
    (h : c ∈ escapeTemplate value) : c ∈ value := by
  induction value with
  | nil => exact h
  | cons d value ih =>
    have hcons : c ∈ d :: escapeTemplate value → c ∈ d :: value := fun h =>
      List.mem_cons.mpr ((List.mem_cons.mp h).imp_right ih)
    rw [escapeTemplate] at h
    split at h
    · exact hcons ((List.mem_cons.mp h).resolve_left hc)
    · exact hcons h

theorem exists_of_filledAt? {start : ℕ} {value : List Char}
    (h : filledAt? source chain nodes place = some (start, value)) :
    ∃ node ∈ nodes, chain.lookup? (expressionText source node) = some value := by
  obtain ⟨node, hnode, hfound⟩ := List.exists_of_findSome?_eq_some h
  split at hfound
  · obtain ⟨known, hknown, heq⟩ := Option.map_eq_some_iff.mp hfound
    exact ⟨node, hnode, (Prod.mk.inj heq).2 ▸ hknown⟩
  · cases hfound

/-- A character of the result that is no backslash stands in the template literal or in a value that
is filled in. -/
theorem mem_of_mem_substituteFrom {c : Char} (hc : c ≠ '\\') (h : Arranged source place stop nodes)
    (hmem : c ∈ substituteFrom source chain place stop nodes) :
    c ∈ slice source place stop ∨ ∃ node ∈ nodes, ∃ value,
      chain.lookup? (expressionText source node) = some value ∧ c ∈ value := by
  rw [substituteFrom_eq_flatMap h] at hmem
  obtain ⟨i, hi, hstands⟩ := List.mem_flatMap.mp hmem
  cases hfilled : filledAt? source chain nodes i with
  | none =>
    obtain ⟨count, rfl⟩ := Nat.exists_eq_add_of_le h.le
    rw [Nat.add_sub_cancel_left] at hi
    rw [standsAt, hfilled] at hstands
    rw [slice_eq_flatMap]
    exact .inl (List.mem_flatMap.mpr ⟨i, hi, hstands⟩)
  | some filled =>
    obtain ⟨start, value⟩ := filled
    obtain ⟨node, hnode, hvalue⟩ := exists_of_filledAt? hfilled
    rw [standsAt, hfilled] at hstands
    simp only at hstands
    split at hstands
    · exact .inr ⟨node, hnode, value, hvalue, mem_of_mem_escapeTemplate hc hstands⟩
    · cases hstands

/-! ## Bytes -/

/-- The place among the bytes of a text at which the character at a place begins. -/
def byteOffset (source : List Char) (place : ℕ) : ℕ := (encode (source.take place)).size

/-- Substitution on bytes: each part is decoded by itself. A substitution is given by its range. -/
def substituteBytesFrom (bytes : List UInt8) (chain : Chain) (place stop : ℕ) :
    List (ℕ × ℕ) → List Char
  | [] => decodeLossy (slice bytes place stop)
  | (first, behind) :: others =>
    match chain.lookup? (trim (decodeLossy (slice bytes (first + 2) (behind - 1)))) with
    | none => substituteBytesFrom bytes chain place stop others
    | some value =>
      decodeLossy (slice bytes place first) ++ escapeTemplate value ++
        substituteBytesFrom bytes chain behind stop others

theorem take_eq_append {a b : ℕ} (h : a ≤ b) (source : List Char) :
    source.take b = source.take a ++ slice source a b := by
  rw [slice, ← List.take_add, Nat.add_sub_of_le h]

theorem byteOffset_eq_add {a b : ℕ} (h : a ≤ b) (source : List Char) :
    byteOffset source b = byteOffset source a + (encode (slice source a b)).size := by
  simp [byteOffset, take_eq_append h source, encode_eq]

/-- A range that begins and ends between characters is decoded to these characters. -/
theorem decodeLossy_slice {a b : ℕ} (h : a ≤ b) (source : List Char) :
    decodeLossy (slice (encode source).toList (byteOffset source a) (byteOffset source b)) =
      slice source a b := by
  have hsplit : source = source.take a ++ slice source a b ++ source.drop b := by
    rw [← take_eq_append h, List.take_append_drop]
  have hbytes : (encode source).toList = (encode (source.take a)).toList ++
      (encode (slice source a b)).toList ++ (encode (source.drop b)).toList := by
    conv_lhs => rw [hsplit]
    simp [encode_eq]
  rw [byteOffset_eq_add h, byteOffset, hbytes, ← Array.length_toList, ← Array.length_toList,
    slice_of_append, decodeLossy_encode]

/-- The range of bytes that a node covers. -/
def byteRange (source : List Char) (node : Node) : ℕ × ℕ :=
  (byteOffset source node.start, byteOffset source node.stop)

/-- The delimiters of a substitution are of as many bytes as characters. -/
theorem trim_decodeLossy_slice (h : Delimited source node) :
    trim (decodeLossy (slice (encode source).toList (byteOffset source node.start + 2)
      (byteOffset source node.stop - 1))) = expressionText source node := by
  have hlength := h.length
  have hopening := byteOffset_eq_add (Nat.le_add_right node.start 2) source
  have hclosing := byteOffset_eq_add (Nat.sub_le node.stop 1) source
  have htwo : (encode ['$', '{']).size = 2 := rfl
  have hone : (encode ['}']).size = 1 := rfl
  rw [h.opening, htwo] at hopening
  rw [h.closing, hone] at hclosing
  rw [← hopening, hclosing, Nat.add_sub_cancel, decodeLossy_slice (by omega), expressionText]

/-- Substitution on the bytes of a text is substitution on the text. -/
theorem substituteBytesFrom_eq (h : Arranged source place stop nodes) :
    substituteBytesFrom (encode source).toList chain (byteOffset source place)
      (byteOffset source stop) (nodes.map (byteRange source)) =
      substituteFrom source chain place stop nodes := by
  induction nodes generalizing place with
  | nil => exact decodeLossy_slice h.le source
  | cons node nodes ih =>
    have hexpression := trim_decodeLossy_slice (h.delimited node List.mem_cons_self)
    simp only [List.map_cons, byteRange, substituteBytesFrom, hexpression, substituteFrom]
    cases chain.lookup? (expressionText source node) with
    | none => exact ih h.tail
    | some value =>
      have hslice := decodeLossy_slice (h.within node List.mem_cons_self).1 source
      simp only [hslice]
      exact congrArg _ (ih h.behind)

/-! ## Template literals -/

/-- Substitution touches nothing but the substitutions of known value. Each of these stands as its
value, escaped, and every other character as itself, once and in order; the bytes of the source give
the same text, decoded part by part. So no replacement comes in, and where no value is known the
template literal stays as it was. -/
theorem substitute_touches_only_known (chain : Chain) (template : Node)
    (h : Arranged source template.start template.stop (substitutions template)) :
    substitute source chain template =
        (List.range' template.start (template.stop - template.start)).flatMap
          (standsAt source chain (substitutions template)) ∧
      substituteBytesFrom (encode source).toList chain (byteOffset source template.start)
          (byteOffset source template.stop) ((substitutions template).map (byteRange source)) =
        substitute source chain template ∧
      (replacement ∈ substitute source chain template → replacement ∈ textOf source template ∨
        ∃ node ∈ substitutions template, ∃ value,
          chain.lookup? (expressionText source node) = some value ∧ replacement ∈ value) ∧
      ((∀ node ∈ substitutions template, chain.lookup? (expressionText source node) = none) →
        substitute source chain template = textOf source template) :=
  ⟨substituteFrom_eq_flatMap h, substituteBytesFrom_eq h, mem_of_mem_substituteFrom (by decide) h,
    substituteFrom_eq_slice⟩

/-- A template literal with a character of two bytes, a name and a call. -/
def accentedSource : List Char := "`é${x}${f()}`".toList

def accentedTemplate : Node :=
  .mk .template 0 13 [.mk .substitution 2 6 [], .mk .substitution 6 12 []]

theorem substitute_touches_only_known_accented :
    Arranged accentedSource 0 13 (substitutions accentedTemplate) ∧
      substituteBytesFrom (encode accentedSource).toList [[(['x'], some ['`'])]] 0 14
        [(3, 7), (7, 13)] = "`é\\`${f()}`".toList ∧
      substitute accentedSource [[(['y'], some ['`'])]] accentedTemplate = accentedSource := by
  have harranged : Arranged accentedSource 0 13 (substitutions accentedTemplate) :=
    ⟨by decide, by decide, by decide, List.forall_mem_cons.mpr ⟨⟨by decide, by decide, by decide⟩,
      List.forall_mem_singleton.mpr ⟨by decide, by decide, by decide⟩⟩⟩
  have hunknown : ∀ node ∈ substitutions accentedTemplate,
      Chain.lookup? [[(['y'], some ['`'])]] (expressionText accentedSource node) = none := by
    decide
  obtain ⟨hcharacters, hbytes, -⟩ :=
    substitute_touches_only_known [[(['x'], some ['`'])]] accentedTemplate harranged
  obtain ⟨-, -, -, hkept⟩ :=
    substitute_touches_only_known [[(['y'], some ['`'])]] accentedTemplate harranged
  refine ⟨harranged, ?_, ?_⟩
  · refine hbytes.trans (hcharacters.trans ?_)
    decide
  · refine (hkept hunknown).trans ?_
    decide

end ReleasePrompts.Scope
