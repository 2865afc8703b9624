import Mathlib.Data.Option.Basic
import ReleasePrompts.Proofs.Literal.Location

/-!
# Balanced literals

A literal is `Balanced` if the same quote opens and closes it and nothing inside closes it before:
all of it is escapes, substitutions with their code, and other characters (`Whole`). The literal that
is located around a text is balanced just if it closes at the same place when it is read from its
opening quote (`locate?_spec`); only the part behind the text is read.
-/

namespace ReleasePrompts.Literal

open Text

/-- Whole lexemes of the inside of a literal, before what stands `behind` them. How far the code of a
substitution goes, `extent` tells from what is behind its opening delimiter. -/
inductive Whole (extent : List Char → Option Nat) (quote : Char) (behind : List Char) :
    List Char → Prop where
  | nil : Whole extent quote behind []
  | escape {c : Char} {rest : List Char} (h : Whole extent quote behind rest) :
    Whole extent quote behind ('\\' :: c :: rest)
  | code {code rest : List Char} (hquote : quote = '`')
    (hcode : ∀ tail, extent (code ++ '}' :: tail) = some code.length)
    (h : Whole extent quote behind rest) :
    Whole extent quote behind ('$' :: '{' :: (code ++ '}' :: rest))
  | char {c : Char} {rest : List Char} (hb : c ≠ '\\') (hq : c ≠ quote)
    (hd : ¬(quote = '`' ∧ c = '$' ∧ (rest ++ behind).head? = some '{'))
    (h : Whole extent quote behind rest) : Whole extent quote behind (c :: rest)

/-- Whether a text is a literal with matching quotes that nothing inside closes. -/
def Balanced (extent : List Char → Option Nat) (literal : List Char) : Prop :=
  ∃ quote body, isQuote quote = true ∧ literal = quote :: (body ++ [quote]) ∧
    Whole extent quote [quote] body

variable {extent : List Char → Option Nat} {quote : Char}

theorem Whole.append {behind front text : List Char}
    (hf : Whole extent quote (text ++ behind) front) (ht : Whole extent quote behind text) :
    Whole extent quote behind (front ++ text) := by
  induction hf with
  | nil => exact ht
  | escape _ ih => exact .escape ih
  | code hquote hcode _ ih =>
    rw [List.cons_append, List.cons_append, List.append_assoc]
    exact .code hquote hcode ih
  | @char c rest hb hq hd _ ih =>
    exact .char hb hq (by rwa [← List.append_assoc] at hd) ih

/-! ## Substitutions by their braces -/

/-- How far ahead the brace is that closes the code of a substitution, inside `depth` others. -/
def closeCode? : (depth : Nat) → List Char → Option Nat
  | 0, '}' :: _ => some 0
  | depth + 1, '}' :: rest => (closeCode? depth rest).map (· + 1)
  | depth, '$' :: '{' :: rest => (closeCode? (depth + 1) rest).map (· + 2)
  | depth, '\\' :: _ :: rest => (closeCode? depth rest).map (· + 2)
  | depth, _ :: rest => (closeCode? depth rest).map (· + 1)
  | _, [] => none

theorem closeCode?_cons {c : Char} {rest : List Char} (depth : Nat) (hb : c ≠ '\\') (hc : c ≠ '}')
    (hd : ¬(c = '$' ∧ rest.head? = some '{')) :
    closeCode? depth (c :: rest) = (closeCode? depth rest).map (· + 1) := by
  rw [closeCode?.eq_def]
  split <;> simp_all

/-- What a brace closes does not depend on what stands behind it. -/
theorem closeCode?_eq_some {depth : Nat} {text : List Char} {n : Nat}
    (h : closeCode? depth text = some n) :
    ∃ code rest, text = code ++ '}' :: rest ∧ code.length = n ∧
      ∀ tail, closeCode? depth (code ++ '}' :: tail) = some n := by
  fun_induction closeCode? depth text generalizing n with
  | case1 rest =>
    obtain rfl := Option.some.inj h
    exact ⟨[], rest, rfl, rfl, fun _ => rfl⟩
  | case2 depth rest ih =>
    obtain ⟨m, hm, rfl⟩ := Option.map_eq_some_iff.mp h
    obtain ⟨code, rest, rfl, rfl, htail⟩ := ih hm
    exact ⟨'}' :: code, rest, rfl, rfl, fun tail => by simp [closeCode?, htail]⟩
  | case3 depth rest ih =>
    obtain ⟨m, hm, rfl⟩ := Option.map_eq_some_iff.mp h
    obtain ⟨code, rest, rfl, rfl, htail⟩ := ih hm
    exact ⟨'$' :: '{' :: code, rest, rfl, rfl, fun tail => by simp [closeCode?, htail]⟩
  | case4 depth c rest ih =>
    obtain ⟨m, hm, rfl⟩ := Option.map_eq_some_iff.mp h
    obtain ⟨code, rest, rfl, rfl, htail⟩ := ih hm
    exact ⟨'\\' :: c :: code, rest, rfl, rfl, fun tail => by simp [closeCode?, htail]⟩
  | case5 depth c rest h0 h1 h2 h3 ih =>
    obtain ⟨m, hm, rfl⟩ := Option.map_eq_some_iff.mp h
    obtain ⟨code, rest, rfl, rfl, htail⟩ := ih hm
    have hhead : ∀ tail, (code ++ '}' :: tail).head? = (code ++ '}' :: rest).head? := fun tail => by
      cases code <;> rfl
    have hcons : ∀ tail, closeCode? depth (c :: (code ++ '}' :: tail)) =
        (closeCode? depth (code ++ '}' :: tail)).map (· + 1) := fun tail => by
      refine closeCode?_cons depth (fun hc => ?_) (fun hc => ?_) fun ⟨hc, hbrace⟩ => ?_
      · cases hl : code ++ '}' :: rest with
        | nil => simp at hl
        | cons d others => exact h3 d others hc hl
      · cases depth with
        | zero => exact h0 rfl hc
        | succ depth => exact h1 depth rfl hc
      · rw [hhead] at hbrace
        obtain ⟨others, ho⟩ := List.head?_eq_some_iff.mp hbrace
        exact h2 others hc ho
    exact ⟨c :: code, rest, rfl, rfl, fun tail => by rw [List.cons_append, hcons, htail]; rfl⟩
  | case6 => cases h

/-- The place behind the brace that closes a substitution, `front` further on. -/
theorem map_close (found : Option Nat) (front rest : List Char) :
    (found.bind fun length =>
        (closeTemplate? 0 (rest.drop (length + 1))).map (· + (length + 1))).map
          (· + front.length) =
      (found.map (· + front.length)).bind fun length =>
        (closeTemplate? 0 ((front ++ rest).drop (length + 1))).map (· + (length + 1)) := by
  cases found with
  | none => rfl
  | some length =>
    have hdrop : (front ++ rest).drop (length + front.length + 1) = rest.drop (length + 1) := by
      rw [show length + front.length + 1 = front.length + (length + 1) by omega,
        List.drop_length_add_append]
    simp only [Option.bind_some, Option.map_some, hdrop, Option.map_map]
    congr 1
    funext n
    simp only [Function.comp_apply]
    omega

/-- Inside a substitution its closing brace is looked for first. -/
theorem closeTemplate?_succ (depth : Nat) (text : List Char) :
    closeTemplate? (depth + 1) text = (closeCode? depth text).bind fun length =>
      (closeTemplate? 0 (text.drop (length + 1))).map (· + (length + 1)) := by
  fun_induction closeCode? depth text with
  | case1 rest => rfl
  | case2 depth rest ih =>
    rw [closeTemplate?, ih]
    exact map_close _ ['}'] rest
  | case3 depth rest ih =>
    rw [closeTemplate?, ih]
    exact map_close _ ['$', '{'] rest
  | case4 depth c rest ih =>
    rw [closeTemplate?, ih]
    exact map_close _ ['\\', c] rest
  | case5 depth c rest h0 h1 h2 h3 ih =>
    have hbrace : c ≠ '}' := fun hc => by
      cases depth with
      | zero => exact h0 rfl hc
      | succ depth => exact h1 depth rfl hc
    rw [closeTemplate?, ih]
    · exact map_close _ [c] rest
    · exact h2
    · exact h3
    · exact fun h => absurd h (Nat.succ_ne_zero depth)
    · exact fun _ _ hc => hbrace hc
  | case6 => simp [closeTemplate?]

/-! ## Literals by their quotes -/

/-- The inside of a template literal is whole up to the backtick that closes it. -/
theorem whole_of_closeTemplate? {text : List Char} {n : Nat} (h : closeTemplate? 0 text = some n) :
    ∃ body rest, text = body ++ '`' :: rest ∧ body.length = n ∧
      Whole (closeCode? 0) '`' ['`'] body := by
  induction hlen : text.length using Nat.strongRecOn generalizing text n with
  | ind length ih =>
  subst hlen
  rcases text with _ | ⟨c, text⟩
  · cases h
  by_cases hq : c = '`'
  · subst hq
    obtain rfl := Option.some.inj h
    exact ⟨[], text, rfl, rfl, .nil⟩
  by_cases hb : c = '\\'
  · subst hb
    rcases text with _ | ⟨d, text⟩
    · cases h
    · rw [closeTemplate?] at h
      obtain ⟨m, hm, rfl⟩ := Option.map_eq_some_iff.mp h
      obtain ⟨body, rest, rfl, rfl, hwhole⟩ :=
        ih text.length (by simp only [List.length_cons]; omega) hm rfl
      exact ⟨'\\' :: d :: body, rest, rfl, rfl, .escape hwhole⟩
  by_cases hd : c = '$' ∧ text.head? = some '{'
  · obtain ⟨rfl, hbrace⟩ := hd
    obtain ⟨text, rfl⟩ := List.head?_eq_some_iff.mp hbrace
    rw [closeTemplate?, closeTemplate?_succ] at h
    obtain ⟨m, hm, rfl⟩ := Option.map_eq_some_iff.mp h
    obtain ⟨length, hlength, hm⟩ := Option.bind_eq_some_iff.mp hm
    obtain ⟨k, hk, rfl⟩ := Option.map_eq_some_iff.mp hm
    obtain ⟨code, behind, rfl, rfl, hcode⟩ := closeCode?_eq_some hlength
    rw [List.drop_length_add_append, List.drop_succ_cons, List.drop_zero] at hk
    obtain ⟨body, rest, rfl, rfl, hwhole⟩ := ih behind.length (by simp; omega) hk rfl
    refine ⟨'$' :: '{' :: (code ++ '}' :: body), rest, by simp, ?_, .code rfl hcode hwhole⟩
    simp only [List.length_cons, List.length_append]
    omega
  · rw [@closeTemplate?_char 0 _ _ hb hq hd] at h
    obtain ⟨m, hm, rfl⟩ := Option.map_eq_some_iff.mp h
    obtain ⟨body, rest, rfl, rfl, hwhole⟩ := ih text.length (by simp) hm rfl
    refine ⟨c :: body, rest, rfl, rfl, .char hb hq (fun h => hd ⟨h.2.1, ?_⟩) hwhole⟩
    have hbrace := h.2.2
    cases body with
    | nil => simp at hbrace
    | cons d body => exact hbrace

/-- A backtick behind whole text of a template literal closes it. -/
theorem closeTemplate?_of_whole {body : List Char} (h : Whole (closeCode? 0) '`' ['`'] body)
    (tail : List Char) : closeTemplate? 0 (body ++ '`' :: tail) = some body.length := by
  induction h with
  | nil => rfl
  | escape _ ih =>
    simp only [List.cons_append, closeTemplate?, ih]
    rfl
  | @code code rest _ hcode _ ih =>
    have hdrop : (code ++ '}' :: (rest ++ '`' :: tail)).drop (code.length + 1) =
        rest ++ '`' :: tail := by
      rw [List.drop_length_add_append]
      rfl
    simp only [List.cons_append, List.append_assoc, closeTemplate?, closeTemplate?_succ, hcode,
      Option.bind_some, hdrop, ih, Option.map_some, List.length_cons, List.length_append]
    congr 1
    omega
  | @char c rest hb hq hd _ ih =>
    have hhead : (rest ++ '`' :: tail).head? = (rest ++ ['`']).head? := by cases rest <;> rfl
    rw [List.cons_append, @closeTemplate?_char 0 _ _ hb hq
      (fun h => hd ⟨rfl, h.1, hhead ▸ h.2⟩), ih]
    rfl

/-- The inside of a string is whole if it is characters and escapes. -/
theorem whole_iff_quoted (hquote : quote ≠ '`') {behind inside : List Char} :
    Whole extent quote behind inside ↔ Quoted quote inside := by
  constructor
  · intro h
    induction h with
    | nil => exact .nil
    | escape _ ih => exact .escape ih
    | code hq => exact absurd hq hquote
    | char hb hq _ _ ih => exact .char hb hq ih
  · intro h
    induction h with
    | nil => exact .nil
    | char hb hq _ ih => exact .char hb hq (fun h => hquote h.1) ih
    | escape _ ih => exact .escape ih

/-- How far ahead a literal is closed, read from behind its opening quote. -/
def closer? (quote : Char) (text : List Char) : Option Nat :=
  if quote = '`' then closeTemplate? 0 text else closeQuote? quote text

/-- A literal is balanced just if it is closed at its end, read from its opening quote. -/
theorem balanced_iff (hquote : isQuote quote = true) (body tail : List Char) :
    Balanced (closeCode? 0) (quote :: (body ++ [quote])) ↔
      closer? quote (body ++ quote :: tail) = some body.length := by
  have hb : quote ≠ '\\' := by rintro rfl; exact absurd hquote (by decide)
  have hwhole : Balanced (closeCode? 0) (quote :: (body ++ [quote])) ↔
      Whole (closeCode? 0) quote [quote] body := by
    refine ⟨fun ⟨other, inside, _, heq, h⟩ => ?_, fun h => ⟨quote, body, hquote, rfl, h⟩⟩
    obtain ⟨rfl, heq⟩ := List.cons_eq_cons.mp heq
    obtain ⟨rfl, -⟩ := List.append_inj' heq rfl
    exact h
  have hsame : ∀ {inside rest : List Char}, body ++ quote :: tail = inside ++ quote :: rest →
      inside.length = body.length → inside = body := fun heq hlen =>
    (List.append_inj heq.symm hlen).1
  rw [hwhole, closer?]
  split
  · next hq =>
    subst hq
    refine ⟨fun h => closeTemplate?_of_whole h tail, fun h => ?_⟩
    obtain ⟨inside, rest, heq, hlen, h⟩ := whole_of_closeTemplate? h
    exact hsame heq hlen ▸ h
  · next hq =>
    rw [whole_iff_quoted hq, closeQuote?_eq_some_iff hb]
    exact ⟨fun h => ⟨body, tail, rfl, rfl, h⟩, fun ⟨_, _, heq, hlen, h⟩ => hsame heq hlen ▸ h⟩

/-! ## The literal that is located -/

/-- A stretch of a source from one quote to another. -/
theorem slice_eq_quoted {source : List Char} {start stop : Nat} {quote : Char} (hlt : start < stop)
    (hstart : source[start]? = some quote) (hstop : source[stop]? = some quote) :
    slice source start (stop + 1) = quote :: (slice source (start + 1) stop ++ [quote]) ∧
      source.drop (start + 1) =
        slice source (start + 1) stop ++ quote :: source.drop (stop + 1) := by
  have hone : ∀ {i : Nat}, source[i]? = some quote →
      source.drop i = quote :: source.drop (i + 1) := fun hi => by
    obtain ⟨hlen, rfl⟩ := List.getElem?_eq_some_iff.mp hi
    exact List.drop_eq_getElem_cons hlen
  have hslice : ∀ {i : Nat}, source[i]? = some quote → slice source i (i + 1) = [quote] :=
    fun {i} hi => by rw [slice, hone hi, Nat.add_sub_cancel_left]; rfl
  constructor
  · rw [← slice_append_slice source (Nat.le_succ start) (by omega), hslice hstart,
      ← slice_append_slice source hlt (Nat.le_succ stop), hslice hstop]
    rfl
  · have hdrop : source.drop stop = (source.drop (start + 1)).drop (stop - (start + 1)) := by
      rw [List.drop_drop]
      congr 1
      omega
    rw [slice, ← hone hstop, hdrop, List.take_append_drop]

/-- The literal that is located goes from a quote before the text to one behind it. -/
theorem exists_of_locate? {source target literal : List Char}
    (h : locate? source target = some literal) :
    ∃ place start stop quote, indexOf? target source = some place ∧
      start ≤ place ∧ source[start]? = some quote ∧ isQuote quote = true ∧
      place + target.length ≤ stop ∧ source[stop]? = some quote ∧ target ≠ [] ∧
      literal = slice source start (stop + 1) := by
  have hne : target ≠ [] := by
    rintro rfl
    cases h
  obtain ⟨place, hplace⟩ : ∃ place, indexOf? target source = some place := by
    refine Option.ne_none_iff_exists'.mp fun hnone => ?_
    rw [locate?, hnone] at h
    split at h <;> cases h
  obtain ⟨start, stop, rfl, ⟨⟨hle, ⟨c, hc, hp⟩, -⟩, hbehind, hcloses, -⟩ |
      ⟨-, ⟨hle, ⟨c, hc, hp⟩, -⟩, hbehind, quote, hquote, hcloses, -⟩⟩ :=
    (locate?_eq_some_iff hne (indexOf?_eq_some_iff.mp hplace)).mp h
  · obtain rfl := beq_iff_eq.mp hp
    exact ⟨place, start, stop, '`', hplace, hle, hc, rfl, hbehind, hcloses, hne, rfl⟩
  · obtain rfl := Option.some.inj (hc.symm.trans hquote)
    exact ⟨place, start, stop, c, hplace, hle, hc, hp, hbehind, hcloses, hne, rfl⟩

/-- The literal in a source from a quote at `start` on, around the first occurrence of a text, at
`place`. -/
structure Located (source target : List Char) (place start : Nat) (quote : Char)
    (literal : List Char) : Prop where
  place_eq : indexOf? target source = some place
  start_le : start ≤ place
  opening : source[start]? = some quote
  isQuote : isQuote quote = true
  /-- The quotes match. -/
  quoted : ∃ body, literal = quote :: (body ++ [quote])
  /-- The text is inside, quotes included. -/
  holds : target <:+: literal
  /-- It is balanced just if it is closed at the same place when read from its opening quote. -/
  balanced_iff : Balanced (closeCode? 0) literal ↔
    closer? quote (source.drop (start + 1)) = some (literal.length - 2)

/-- The literal that is located is in quotes that match and holds the text. -/
theorem locate?_spec {source target literal : List Char}
    (h : locate? source target = some literal) :
    ∃ place start quote, Located source target place start quote literal := by
  obtain ⟨place, start, stop, quote, hplace, hle, hstart, hquote, hbehind, hstop, hne, rfl⟩ :=
    exists_of_locate? h
  have hpos := List.length_pos_iff.mpr hne
  obtain ⟨hliteral, hdrop⟩ := slice_eq_quoted (by omega) hstart hstop
  obtain ⟨before, rest, hsource, hbefore⟩ := indexOf?_eq_some hplace
  have htarget : slice source place (place + target.length) = target := by
    rw [hsource, ← hbefore, slice_of_append]
  refine ⟨place, start, quote, hplace, hle, hstart, hquote, ⟨_, hliteral⟩, ?_, ?_⟩
  · have := slice_infix_slice source hle (Nat.le_add_right place target.length)
      (show place + target.length ≤ stop + 1 by omega)
    rwa [htarget] at this
  · rw [hliteral, hdrop, balanced_iff hquote _ (source.drop (stop + 1))]
    simp

end ReleasePrompts.Literal
