import ReleasePrompts.Proofs.Literal.Lexemes
import ReleasePrompts.Proofs.Text.Occurrences

/-!
# The literal that is located

The template literal around a place opens at the last backtick up to it, and is closed by the
backtick behind whole lexemes of a template (`TemplateAround`). The quotes around a place are the last
quote of any kind up to it and the same quote behind whole lexemes of a string (`QuotesAround`).
Around the first occurrence of a text the template literal is located, failing that what is in quotes,
and nothing else (`locate?_exact`).
-/

namespace ReleasePrompts.Literal

open Text

/-- The last place, up to and including `place`, of a character that satisfies `p`. -/
structure IsLast (p : Char → Bool) (source : List Char) (place start : Nat) : Prop where
  le : start ≤ place
  satisfies : ∃ c, source[start]? = some c ∧ p c = true
  last : ∀ i, start < i → i ≤ place → ∀ c ∈ source[i]?, p c = false

theorem lastIndexUpTo?_eq_some_iff {p : Char → Bool} {source : List Char} {place start : Nat}
    (hplace : place < source.length) :
    lastIndexUpTo? p source place = some start ↔ IsLast p source place start := by
  have hlen : (source.take (place + 1)).reverse.length = place + 1 := by
    rw [List.length_reverse, List.length_take]
    omega
  -- Read backwards, the place `i` is that of the character `i` before `place`.
  have hget : ∀ i (h : i < (source.take (place + 1)).reverse.length),
      source[place - i]? = some (source.take (place + 1)).reverse[i] := fun i h => by
    rw [List.getElem_reverse, List.getElem_take, List.getElem?_eq_getElem (by omega)]
    congr 2
    rw [List.length_take]
    omega
  rw [lastIndexUpTo?, show min place (source.length - 1) = place by omega]
  constructor
  · intro h
    obtain ⟨i, hi, rfl⟩ := Option.map_eq_some_iff.mp h
    obtain ⟨hlt, hp, hbefore⟩ := List.findIdx?_eq_some_iff_getElem.mp hi
    refine ⟨Nat.sub_le _ _, ⟨_, hget i hlt, hp⟩, fun j hij hj c hc => ?_⟩
    have hback := hget (place - j) (by omega)
    rw [show place - (place - j) = j by omega, Option.mem_def.mp hc] at hback
    rw [Option.some.inj hback]
    exact Bool.eq_false_iff.mpr (hbefore (place - j) (by omega))
  · rintro ⟨hle, ⟨c, hc, hp⟩, hlast⟩
    refine Option.map_eq_some_iff.mpr ⟨place - start, List.findIdx?_eq_some_iff_getElem.mpr
      ⟨by omega, ?_, fun j hj => ?_⟩, by omega⟩
    · have hback := hget (place - start) (by omega)
      rw [show place - (place - start) = start by omega, hc] at hback
      rwa [← Option.some.inj hback]
    · rw [hlast (place - j) (by omega) (by omega) _ (hget j (by omega))]
      exact Bool.false_ne_true

/-- The template literal around a stretch of a source from `place` to `behind`. -/
structure TemplateAround (source : List Char) (place behind start stop : Nat) : Prop where
  opens : IsLast (· == '`') source place start
  behind_le : behind ≤ stop
  closes : source[stop]? = some '`'
  nested : Nested '`' (slice source behind stop)

/-- The quotes around a stretch of a source from `place` to `behind`. -/
structure QuotesAround (source : List Char) (place behind start stop : Nat) : Prop where
  opens : IsLast isQuote source place start
  behind_le : behind ≤ stop
  closes : ∃ quote, source[start]? = some quote ∧ source[stop]? = some quote ∧
    Quoted quote (slice source behind stop)

/-- Where the template literal around a stretch begins and ends. -/
def templateAround? (source : List Char) (place behind : Nat) : Option (Nat × Nat) :=
  (lastIndexUpTo? (· == '`') source place).bind fun start =>
    (closeTemplate? 0 (source.drop behind)).map fun ahead => (start, behind + ahead)

/-- Where the quotes around a stretch are. -/
def quotesAround? (source : List Char) (place behind : Nat) : Option (Nat × Nat) :=
  (lastIndexUpTo? isQuote source place).bind fun start =>
    source[start]?.bind fun quote =>
      (closeQuote? quote (source.drop behind)).map fun ahead => (start, behind + ahead)

/-- The template literal is tried first, then the quotes. -/
theorem locate?_eq {source target : List Char} {place : Nat} (hne : target ≠ [])
    (hplace : indexOf? target source = some place) :
    locate? source target =
      ((templateAround? source place (place + target.length)).or
        (quotesAround? source place (place + target.length))).map
          fun quotes => slice source quotes.1 (quotes.2 + 1) := by
  have hempty : ¬target.isEmpty = true := fun h => hne (List.isEmpty_iff.mp h)
  rw [Option.map_or, templateAround?, quotesAround?, locate?, if_neg hempty, hplace]
  simp only [Option.map_eq_bind, Option.bind_assoc, Option.bind_eq_bind, Option.bind_some,
    Function.comp_apply, Option.pure_def, Option.orElse_eq_orElse, Option.orElse_eq_or]

variable {source : List Char} {place behind start stop : Nat}

theorem templateAround?_eq_some_iff (hplace : place < source.length) :
    templateAround? source place behind = some (start, stop) ↔
      TemplateAround source place behind start stop := by
  constructor
  · intro h
    obtain ⟨found, hopens, h⟩ := Option.bind_eq_some_iff.mp h
    obtain ⟨ahead, hahead, h⟩ := Option.map_eq_some_iff.mp h
    obtain ⟨rfl, rfl⟩ := Prod.mk.inj h
    obtain ⟨hcloses, hnested⟩ := drop_eq_iff.mp (closeTemplate?_eq_some_iff.mp hahead)
    exact ⟨(lastIndexUpTo?_eq_some_iff hplace).mp hopens, Nat.le_add_right _ _, hcloses, hnested⟩
  · rintro ⟨hopens, hle, hcloses, hnested⟩
    obtain ⟨ahead, rfl⟩ := Nat.exists_eq_add_of_le hle
    have hahead := closeTemplate?_eq_some_iff.mpr (drop_eq_iff.mpr ⟨hcloses, hnested⟩)
    rw [templateAround?, (lastIndexUpTo?_eq_some_iff hplace).mpr hopens, Option.bind_some, hahead,
      Option.map_some]

theorem ne_backslash_of_isQuote {quote : Char} (h : isQuote quote = true) : quote ≠ '\\' := by
  rintro rfl
  exact absurd h (by decide)

theorem quotesAround?_eq_some_iff (hplace : place < source.length) :
    quotesAround? source place behind = some (start, stop) ↔
      QuotesAround source place behind start stop := by
  constructor
  · intro h
    obtain ⟨found, hopens, h⟩ := Option.bind_eq_some_iff.mp h
    obtain ⟨quote, hquote, h⟩ := Option.bind_eq_some_iff.mp h
    obtain ⟨ahead, hahead, h⟩ := Option.map_eq_some_iff.mp h
    obtain ⟨rfl, rfl⟩ := Prod.mk.inj h
    have hopens := (lastIndexUpTo?_eq_some_iff hplace).mp hopens
    obtain ⟨c, hc, hp⟩ := hopens.satisfies
    obtain rfl := Option.some.inj (hc.symm.trans hquote)
    obtain ⟨hcloses, hquoted⟩ :=
      drop_eq_iff.mp ((closeQuote?_eq_some_iff (ne_backslash_of_isQuote hp)).mp hahead)
    exact ⟨hopens, Nat.le_add_right _ _, c, hquote, hcloses, hquoted⟩
  · rintro ⟨hopens, hle, quote, hquote, hcloses, hquoted⟩
    obtain ⟨c, hc, hp⟩ := hopens.satisfies
    obtain rfl := Option.some.inj (hc.symm.trans hquote)
    obtain ⟨ahead, rfl⟩ := Nat.exists_eq_add_of_le hle
    have hahead := (closeQuote?_eq_some_iff (ne_backslash_of_isQuote hp)).mpr
      (drop_eq_iff.mpr ⟨hcloses, hquoted⟩)
    rw [quotesAround?, (lastIndexUpTo?_eq_some_iff hplace).mpr hopens, Option.bind_some, hquote,
      Option.bind_some, hahead, Option.map_some]

/-- A literal is located in one of two ways, the second only if the first fails. -/
theorem locate?_eq_some_iff {target literal : List Char} (hne : target ≠ [])
    (hfirst : FirstAt target source place) :
    locate? source target = some literal ↔
      ∃ start stop, slice source start (stop + 1) = literal ∧
        (TemplateAround source place (place + target.length) start stop ∨
          (∀ start' stop', ¬TemplateAround source place (place + target.length) start' stop') ∧
            QuotesAround source place (place + target.length) start stop) := by
  have hlt := hfirst.lt hne
  rw [locate?_eq hne (indexOf?_eq_some_iff.mpr hfirst)]
  simp only [Option.map_eq_some_iff, Option.or_eq_some_iff, Option.eq_none_iff_forall_ne_some,
    ne_eq, Prod.exists, Prod.forall, templateAround?_eq_some_iff hlt, quotesAround?_eq_some_iff hlt,
    and_comm]

/-- A literal that is located is in quotes, so it is not empty. -/
theorem locate?_ne_some_nil (source target : List Char) : locate? source target ≠ some [] := by
  intro h
  by_cases hne : target = []
  · rw [hne] at h
    cases h
  · cases hplace : indexOf? target source with
    | none =>
      rw [locate?, if_neg fun hempty => hne (List.isEmpty_iff.mp hempty), hplace] at h
      cases h
    | some place =>
      have hfirst := indexOf?_eq_some_iff.mp hplace
      have hquoted {start stop : Nat} (hle : start ≤ place) (hbehind : place + target.length ≤ stop) :
          slice source start (stop + 1) ≠ [] :=
        slice_ne_nil (Nat.lt_of_le_of_lt hle (hfirst.lt hne)) (by omega)
      obtain ⟨start, stop, hslice, ⟨hopens, hle, -⟩ | ⟨-, hopens, hle, -⟩⟩ :=
        (locate?_eq_some_iff hne hfirst).mp h
      · exact hquoted hopens.le hle hslice
      · exact hquoted hopens.le hle hslice

/-- Around the first occurrence of a text the template literal is located, failing that what is in
quotes, failing that nothing. There is at most one of each. -/
theorem locate?_exact {target : List Char} (hne : target ≠ []) (hfirst : FirstAt target source place) :
    (∀ start stop, TemplateAround source place (place + target.length) start stop →
      locate? source target = some (slice source start (stop + 1)) ∧
        ∀ start' stop', TemplateAround source place (place + target.length) start' stop' →
          start' = start ∧ stop' = stop) ∧
    ((∀ start stop, ¬TemplateAround source place (place + target.length) start stop) →
      (∀ start stop, QuotesAround source place (place + target.length) start stop →
        locate? source target = some (slice source start (stop + 1)) ∧
          ∀ start' stop', QuotesAround source place (place + target.length) start' stop' →
            start' = start ∧ stop' = stop) ∧
      ((∀ start stop, ¬QuotesAround source place (place + target.length) start stop) →
        locate? source target = none)) := by
  have hlt := hfirst.lt hne
  have hunique : ∀ {found : Option (Nat × Nat)} {start stop : Nat}, found = some (start, stop) →
      ∀ start' stop', found = some (start', stop') → start' = start ∧ stop' = stop :=
    fun h _ _ h' => Prod.mk.inj (Option.some.inj (h'.symm.trans h))
  have hnone : ∀ {found : Option (Nat × Nat)}, (∀ start stop, found ≠ some (start, stop)) →
      found = none :=
    fun h => Option.eq_none_iff_forall_ne_some.mpr fun quotes => h quotes.1 quotes.2
  rw [locate?_eq hne (indexOf?_eq_some_iff.mpr hfirst)]
  simp only [← templateAround?_eq_some_iff hlt, ← quotesAround?_eq_some_iff hlt]
  refine ⟨fun start stop htemplate => ⟨by rw [htemplate]; rfl, hunique htemplate⟩, fun hno => ?_⟩
  rw [hnone hno, Option.none_or]
  exact ⟨fun start stop hquotes => ⟨by rw [hquotes]; rfl, hunique hquotes⟩,
    fun hno' => by rw [hnone hno']; rfl⟩

/-- Behind the text stand an escaped backtick, backticks in the code of a substitution, and a dollar
sign before the backtick that closes the template. -/
theorem locate?_exact_around_backticks :
    FirstAt "target".toList "x = `a target \\` $\x7b`in`\x7d $`;".toList 7 ∧
      TemplateAround "x = `a target \\` $\x7b`in`\x7d $`;".toList 7 13 4 26 ∧
      locate? "x = `a target \\` $\x7b`in`\x7d $`;".toList "target".toList =
        some "`a target \\` $\x7b`in`\x7d $`".toList := by
  have hfirst : FirstAt "target".toList "x = `a target \\` $\x7b`in`\x7d $`;".toList 7 := by decide
  have haround := (templateAround?_eq_some_iff (by decide)).mp
    (show templateAround? "x = `a target \\` $\x7b`in`\x7d $`;".toList 7 13 = some (4, 26) by decide)
  exact ⟨hfirst, haround, ((locate?_exact (by decide) hfirst).1 4 26 haround).1⟩

end ReleasePrompts.Literal
