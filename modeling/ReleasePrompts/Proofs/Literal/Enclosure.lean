import ReleasePrompts.Proofs.Literal.Location
import ReleasePrompts.Proofs.Literal.StringValue

/-!
# The string around a text

A text inside the first string of a source has that string around it. A string does not begin inside
itself (`eq_zero_of_overlap`), so it is located as a whole just if its own quote is the last one up to
the text (`locate?_eq_string_iff`): any other quote character in between is taken to open a literal.
-/

namespace ReleasePrompts.Literal

open Text

variable {quote : Char}

/-! ## Where a string ends -/

/-- Only one quote closes a string. -/
theorem Quoted.eq_of_append (hquote : quote ≠ '\\') {inside inside' behind behind' : List Char}
    (h : Quoted quote inside) (h' : Quoted quote inside')
    (heq : inside ++ quote :: behind = inside' ++ quote :: behind') : inside = inside' := by
  have hstop : closeQuote? quote (inside ++ quote :: behind) = some inside.length :=
    (closeQuote?_eq_some_iff hquote).mpr ⟨inside, behind, rfl, rfl, h⟩
  have hstop' : closeQuote? quote (inside ++ quote :: behind) = some inside'.length :=
    (closeQuote?_eq_some_iff hquote).mpr ⟨inside', behind', heq, rfl, h'⟩
  exact (List.append_inj heq (Option.some.inj (hstop.symm.trans hstop'))).1

/-- What stands behind a quote inside a string is lexemes of the string, as the quote is escaped. -/
theorem Quoted.of_append (hquote : quote ≠ '\\') {front rest : List Char}
    (h : Quoted quote (front ++ quote :: rest)) : Quoted quote rest := by
  generalize htext : front ++ quote :: rest = text at h
  induction h generalizing front with
  | nil => simp at htext
  | @char c text _ hq _ ih =>
    cases front with
    | nil => exact absurd (List.cons.inj htext).1.symm hq
    | cons d front => exact ih (List.cons.inj htext).2
  | @escape c text h ih =>
    match front with
    | [] => exact absurd (List.cons.inj htext).1 hquote
    | [d] =>
      obtain ⟨-, rfl⟩ := List.cons.inj (List.cons.inj htext).2
      exact h
    | d :: e :: front => exact ih (List.cons.inj (List.cons.inj htext).2).2

/-- A string does not begin inside itself: the quote there would be closed before the string is. -/
theorem eq_zero_of_overlap (hquote : quote ≠ '\\') {body text : List Char} {n : Nat}
    (hbody : Quoted quote body) (hle : n ≤ body.length)
    (hfirst : quote :: (body ++ [quote]) <+: text)
    (hsecond : quote :: (body ++ [quote]) <+: text.drop n) : n = 0 := by
  rcases n with _ | n
  · rfl
  obtain ⟨behind, rfl⟩ := hfirst
  obtain ⟨behind', heq⟩ := hsecond
  obtain ⟨c, rest, hrest⟩ := List.exists_cons_of_length_pos
    (show 0 < (body.drop n).length by rw [List.length_drop]; omega)
  have hdrop : (quote :: (body ++ [quote]) ++ behind).drop (n + 1) =
      c :: (rest ++ quote :: behind) := by
    rw [List.cons_append, List.append_assoc, List.drop_succ_cons,
      List.drop_append_of_le_length (Nat.le_of_succ_le hle), hrest]
    rfl
  obtain ⟨rfl, heq⟩ := List.cons.inj (heq.trans hdrop)
  have heq : body ++ quote :: behind' = rest ++ quote :: behind := by
    rw [← heq]
    exact (List.append_assoc body [quote] behind').symm
  have hsplit : body = body.take n ++ quote :: rest := by rw [← hrest, List.take_append_drop]
  have hinside : Quoted quote rest := .of_append hquote (hsplit ▸ hbody)
  have hlength := congrArg List.length hrest
  rw [hbody.eq_of_append hquote hinside heq, List.length_drop, List.length_cons] at hlength
  omega

theorem StringBody.quoted (hquote : quote = '"' ∨ quote = '\'') {body : List Char}
    {units : List Nat} (h : StringBody quote body units) : Quoted quote body := by
  induction h with
  | nil => exact .nil
  | char hq hb _ _ _ ih => exact .char hb hq ih
  | @escape text rest value units he _ ih =>
    obtain ⟨c, more, rfl, hmore⟩ := he.exists_cons
    refine .escape ?_
    clear he
    induction more with
    | nil => exact ih
    | cons d more ihmore =>
      obtain ⟨hd, hmore⟩ := List.forall_mem_cons.mp hmore
      refine .char ?_ ?_ (ihmore hmore)
      · rintro rfl
        exact absurd hd (by decide)
      · rintro rfl
        rcases hquote with rfl | rfl <;> exact absurd hd (by decide)

/-- Characters that need no escape stand for themselves. -/
theorem StringBody.append_plain {front rest : List Char} {units : List Nat}
    (hfront : ∀ c ∈ front, c ≠ quote ∧ c ≠ '\\' ∧ c ≠ '\n' ∧ c ≠ '\r')
    (h : StringBody quote rest units) :
    StringBody quote (front ++ rest) ((front.flatMap fun c => codeUnits c.toNat) ++ units) := by
  induction front with
  | nil => exact h
  | cons c front ih =>
    obtain ⟨⟨hq, hb, hf, hr⟩, hfront⟩ := List.forall_mem_cons.mp hfront
    rw [List.flatMap_cons, List.append_assoc]
    exact .char hq hb hf hr (ih hfront)

/-! ## The string that is located -/

/-- A character is the last of its kind up to a place if none stands between. -/
theorem isLast_append_iff {p : Char → Bool} {c : Char} (hc : p c = true)
    (pre between behind : List Char) :
    IsLast p (pre ++ c :: (between ++ behind)) (pre.length + between.length) pre.length ↔
      ∀ d ∈ between, p d = false := by
  have hget : ∀ i, (pre ++ c :: (between ++ behind))[pre.length + (i + 1)]? =
      (between ++ behind)[i]? := fun i => by
    rw [List.getElem?_append_right (Nat.le_add_right _ _), Nat.add_sub_cancel_left,
      List.getElem?_cons_succ]
  constructor
  · intro h d hd
    obtain ⟨i, hi, rfl⟩ := List.getElem_of_mem hd
    refine h.last (pre.length + (i + 1)) (by omega) (by omega) _ ?_
    rw [hget, List.getElem?_append_left hi, List.getElem?_eq_getElem hi]
    rfl
  · intro h
    refine ⟨Nat.le_add_right _ _, ⟨c, by simp, hc⟩, fun i hlt hle d hd => ?_⟩
    obtain ⟨j, rfl⟩ := Nat.exists_eq_add_of_lt hlt
    rw [Nat.add_assoc, hget, List.getElem?_append_left (by omega)] at hd
    exact h d (List.mem_of_getElem? hd)

variable {source pre front target rest post : List Char}

/-- The last quote up to a text in a string opens the string just if no other stands up to the first
character of the text. -/
theorem isLast_opening_iff
    (hsource : source = pre ++ quote :: (front ++ target ++ rest ++ quote :: post))
    (hquote : isQuote quote = true) (hne : target ≠ []) :
    IsLast isQuote source (pre.length + 1 + front.length) pre.length ↔
      ∀ c ∈ front ++ target.take 1, isQuote c = false := by
  have hsplit : source =
      pre ++ quote :: (front ++ target.take 1 ++ (target.drop 1 ++ rest ++ quote :: post)) := by
    rw [hsource]
    conv_lhs => rw [← List.take_append_drop 1 target]
    simp only [List.append_assoc]
  have hplace : pre.length + 1 + front.length = pre.length + (front ++ target.take 1).length := by
    have := List.length_pos_iff.mpr hne
    rw [List.length_append, List.length_take]
    omega
  rw [hsplit, hplace, isLast_append_iff hquote]

/-- The quotes of a string are around a text in it if the opening one is the last up to the text and
the text does not end in the middle of an escape. -/
theorem quotesAround_of_isLast
    (hsource : source = pre ++ quote :: (front ++ target ++ rest ++ quote :: post))
    (hrest : Quoted quote rest)
    (hopens : IsLast isQuote source (pre.length + 1 + front.length) pre.length) :
    QuotesAround source (pre.length + 1 + front.length)
      (pre.length + 1 + front.length + target.length) pre.length
      (pre.length + 1 + front.length + target.length + rest.length) := by
  have hsplit : source = (pre ++ quote :: (front ++ target)) ++ rest ++ quote :: post := by
    simp [hsource]
  have hbehind : pre.length + 1 + front.length + target.length =
      (pre ++ quote :: (front ++ target)).length := by
    simp only [List.length_append, List.length_cons]
    omega
  refine ⟨hopens, Nat.le_add_right _ _, quote, by simp [hsource], ?_, ?_⟩
  · rw [hsplit, hbehind, ← List.length_append, List.getElem?_append_right (Nat.le_refl _),
      Nat.sub_self]
    rfl
  · rw [hsplit, hbehind, slice_of_append]
    exact hrest

/-- No template literal is around a text if the last quote up to it is no backtick and is the first
quote of the source. -/
theorem not_templateAround_of_isLast {place behind start stop : Nat}
    (hsource : source = pre ++ quote :: rest) (hpre : ∀ c ∈ pre, isQuote c = false)
    (hbacktick : quote ≠ '`') (hopens : IsLast isQuote source place pre.length) :
    ¬TemplateAround source place behind start stop := by
  rintro ⟨⟨hle, ⟨c, hc, hp⟩, -⟩, -⟩
  obtain rfl := beq_iff_eq.mp hp
  rcases Nat.lt_trichotomy start pre.length with hlt | rfl | hlt
  · rw [hsource, List.getElem?_append_left hlt] at hc
    exact absurd (hpre _ (List.mem_of_getElem? hc)) (by decide)
  · rw [hsource, List.getElem?_append_right (Nat.le_refl _), Nat.sub_self] at hc
    exact hbacktick (Option.some.inj hc)
  · exact absurd (hopens.last start hlt hle _ hc) (by decide)

/-- The last quote up to a place in a string opens the string if a literal like it begins there: it
stands neither before the string nor inside it. -/
theorem eq_length_of_isLast {body : List Char} {place start : Nat}
    (hsource : source = pre ++ quote :: (body ++ quote :: post)) (hquote : isQuote quote = true)
    (hbody : Quoted quote body) (hge : pre.length ≤ place) (hle : place ≤ pre.length + body.length)
    (hopens : IsLast isQuote source place start)
    (hliteral : quote :: (body ++ [quote]) <+: source.drop start) : start = pre.length := by
  have hopening : source[pre.length]? = some quote := by simp [hsource]
  have hdrop : source.drop pre.length = quote :: (body ++ [quote]) ++ post := by simp [hsource]
  have hstart : pre.length ≤ start := Nat.le_of_not_lt fun hlt => by
    rw [hopens.last pre.length hlt hge quote hopening] at hquote
    cases hquote
  have hinside : start - pre.length ≤ body.length :=
    Nat.sub_le_iff_le_add'.mpr (Nat.le_trans hopens.le hle)
  have hsub := eq_zero_of_overlap (ne_backslash_of_isQuote hquote) hbody hinside
    (hdrop ▸ List.prefix_append _ post) (by rwa [List.drop_drop, Nat.add_sub_cancel' hstart])
  exact Nat.le_antisymm (Nat.le_of_sub_eq_zero hsub) hstart

/-- A text occurs first in a string before which no quote stands, and it does not end in the middle
of an escape. It is located with the string around it just if no quote of any kind stands between the
opening quote and the text, or at the beginning of the text. -/
theorem locate?_eq_string_iff
    (hsource : source = pre ++ quote :: (front ++ target ++ rest ++ quote :: post))
    (hquote : quote = '"' ∨ quote = '\'') (hpre : ∀ c ∈ pre, isQuote c = false) {units : List Nat}
    (hbody : StringBody quote (front ++ target ++ rest) units) (hne : target ≠ [])
    (hrest : Quoted quote rest) (hfirst : FirstAt target source (pre.length + 1 + front.length)) :
    locate? source target = some (quote :: (front ++ target ++ rest ++ [quote])) ↔
      ∀ c ∈ front ++ target.take 1, isQuote c = false := by
  have hisQuote : isQuote quote = true := by rcases hquote with rfl | rfl <;> rfl
  have hbacktick : quote ≠ '`' := by rcases hquote with rfl | rfl <;> decide
  have hpos := List.length_pos_iff.mpr hne
  rw [← isLast_opening_iff hsource hisQuote hne, locate?_eq_some_iff hne hfirst]
  constructor
  · rintro ⟨start, stop, hliteral, haround⟩
    have hprefix : quote :: (front ++ target ++ rest ++ [quote]) <+: source.drop start :=
      hliteral ▸ List.take_prefix _ _
    rcases haround with ⟨⟨-, ⟨c, hc, hp⟩, -⟩, -⟩ | ⟨-, hopens, -⟩
    · obtain ⟨behind, heq⟩ := hprefix
      rw [← Nat.add_zero start, ← List.getElem?_drop, ← heq] at hc
      exact absurd ((Option.some.inj hc).trans (beq_iff_eq.mp hp)) hbacktick
    · have hle : pre.length + 1 + front.length ≤
          pre.length + (front ++ target ++ rest).length := by
        simp only [List.length_append]
        omega
      exact eq_length_of_isLast hsource hisQuote (hbody.quoted hquote) (by omega) hle hopens
        hprefix ▸ hopens
  · intro hopens
    have hquotes := quotesAround_of_isLast hsource hrest hopens
    have hdrop : source.drop pre.length = quote :: (front ++ target ++ rest ++ [quote]) ++ post := by
      simp [hsource]
    refine ⟨_, _, ?_, .inr ⟨fun _ _ => not_templateAround_of_isLast hsource hpre hbacktick hopens,
      hquotes⟩⟩
    rw [slice, hdrop, List.take_left']
    simp only [List.length_append, List.length_cons, List.length_nil]
    omega

/-- A tab is escaped before the text, and a quote and an apostrophe stand behind it. -/
theorem locate?_eq_string_behind_tab :
    FirstAt "target".toList "f(\"\\ttarget \\\" it's\")".toList 5 ∧
      locate? "f(\"\\ttarget \\\" it's\")".toList "target".toList =
        some "\"\\ttarget \\\" it's\"".toList := by
  have hfront : ∀ c ∈ "target ".toList, c ≠ '"' ∧ c ≠ '\\' ∧ c ≠ '\n' ∧ c ≠ '\r' := by simp
  have hbehind : ∀ c ∈ " it's".toList, c ≠ '"' ∧ c ≠ '\\' ∧ c ≠ '\n' ∧ c ≠ '\r' := by simp
  have hbody := StringBody.escape (@EscapeValue.single 't' _ _ rfl) <| .append_plain hfront <|
    .escape (@EscapeValue.single '"' _ _ rfl) <| .append_plain hbehind .nil
  have hrest : Quoted '"' " \\\" it's".toList :=
    .char (by decide) (by decide) <| .escape <| .char (by decide) (by decide) <|
      .char (by decide) (by decide) <| .char (by decide) (by decide) <|
      .char (by decide) (by decide) <| .char (by decide) (by decide) .nil
  have hfirst : FirstAt "target".toList "f(\"\\ttarget \\\" it's\")".toList 5 := by decide
  exact ⟨hfirst, (@locate?_eq_string_iff '"' _ "f(".toList "\\t".toList "target".toList
    " \\\" it's".toList ")".toList rfl (.inl rfl) (by simp [isQuote]) _ hbody (by decide) hrest
    hfirst).mpr (by simp [isQuote])⟩

/-- An apostrophe before the text is taken to open a literal, and is never closed. Where the text ends
in the middle of an escape, the quote that is escaped closes the literal. -/
theorem locate?_ne_string :
    (StringBody '"' "it's target".toList ("it's target".toList.flatMap fun c => codeUnits c.toNat) ∧
      FirstAt "target".toList "\"it's target\"".toList 6 ∧
      locate? "\"it's target\"".toList "target".toList = none) ∧
    (StringBody '"' "a\\\"b".toList [0x61, 0x22, 0x62] ∧
      FirstAt "a\\".toList "\"a\\\"b\"".toList 1 ∧
      locate? "\"a\\\"b\"".toList "a\\".toList = some "\"a\\\"".toList) := by
  have hplain : ∀ c ∈ "it's target".toList, c ≠ '"' ∧ c ≠ '\\' ∧ c ≠ '\n' ∧ c ≠ '\r' := by simp
  have hbody := StringBody.nil.append_plain hplain
  rw [List.append_nil, List.append_nil] at hbody
  have hescape : StringBody '"' "a\\\"b".toList [0x61, 0x22, 0x62] :=
    .char (by decide) (by decide) (by decide) (by decide) <|
      .escape (@EscapeValue.single '"' _ _ rfl) <|
      .char (by decide) (by decide) (by decide) (by decide) .nil
  exact ⟨⟨hbody, by decide, by decide +kernel⟩, ⟨hescape, by decide, by decide +kernel⟩⟩

end ReleasePrompts.Literal
