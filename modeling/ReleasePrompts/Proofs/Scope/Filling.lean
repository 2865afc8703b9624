import ReleasePrompts.Proofs.Scope.Extraction
import ReleasePrompts.Proofs.Text.Utf16

/-!
# A value as it is written

A value is written for a template literal by three replacements, one after the other, none of which
touches what another has written (`escapeTemplate_eq_replaceAll`). Alone before a backtick, what is
written reads as the value, opens no substitution and is closed by that backtick
(`escapeTemplate_inert`).
-/

namespace ReleasePrompts.Scope

open Literal Text

/-! ## Three replacements -/

/-- A text with `new` in place of each `old`, looked for from the left behind the one before. -/
def replaceAll (old new : List Char) : List Char → List Char
  | [] => []
  | c :: rest =>
    if old <+: c :: rest then new ++ replaceAll old new (rest.drop (old.length - 1))
    else c :: replaceAll old new rest
termination_by text => text.length
decreasing_by
  all_goals simp only [List.length_cons, List.length_drop]
  all_goals omega

variable {old new : List Char}

theorem replaceAll_here {c : Char} {rest : List Char} (h : old <+: c :: rest) :
    replaceAll old new (c :: rest) = new ++ replaceAll old new (rest.drop (old.length - 1)) := by
  rw [replaceAll, if_pos h]

theorem replaceAll_behind {c : Char} {rest : List Char} (h : ¬old <+: c :: rest) :
    replaceAll old new (c :: rest) = c :: replaceAll old new rest := by
  rw [replaceAll, if_neg h]

/-- One character is replaced wherever it stands. -/
theorem replaceAll_singleton (a : Char) (new text : List Char) :
    replaceAll [a] new text = text.flatMap fun c => if c = a then new else [c] := by
  induction text with
  | nil => rw [replaceAll, List.flatMap_nil]
  | cons c rest ih =>
    rw [List.flatMap_cons]
    by_cases hc : c = a
    · subst hc
      rw [replaceAll_here (by simp), if_pos rfl]
      exact congrArg _ ih
    · rw [replaceAll_behind (by simpa [eq_comm] using hc), if_neg hc, ih]
      rfl

/-- A character as the first two replacements leave it. -/
def masked (c : Char) : List Char := if c = '\\' ∨ c = '`' then ['\\', c] else [c]

theorem replaceAll_backtick_backslash (value : List Char) :
    replaceAll ['`'] ['\\', '`'] (replaceAll ['\\'] ['\\', '\\'] value) = value.flatMap masked := by
  rw [replaceAll_singleton, replaceAll_singleton, List.flatMap_assoc]
  congr 1
  funext c
  rw [masked]
  by_cases hb : c = '\\'
  · subst hb
    decide
  · by_cases ht : c = '`'
    · subst ht
      decide
    · simp [hb, ht]

theorem head?_flatMap_masked {rest : List Char} :
    (rest.flatMap masked).head? = some '{' ↔ rest.head? = some '{' := by
  cases rest with
  | nil => rfl
  | cons c rest =>
    rw [List.flatMap_cons, masked]
    split
    · next hc => rcases hc with rfl | rfl <;> simp
    · rfl

theorem replaceAll_brace_cons {c : Char} (hc : c ≠ '$') (rest : List Char) :
    replaceAll ['$', '{'] ['\\', '$', '{'] (c :: rest) =
      c :: replaceAll ['$', '{'] ['\\', '$', '{'] rest :=
  replaceAll_behind fun h => hc (List.cons_prefix_cons.mp h).1.symm

/-- What is written is what three replacements leave: of backslashes, of backticks, and of a dollar
sign before a brace. -/
theorem escapeTemplate_eq_replaceAll (value : List Char) :
    escapeTemplate value = replaceAll ['$', '{'] ['\\', '$', '{']
      (replaceAll ['`'] ['\\', '`'] (replaceAll ['\\'] ['\\', '\\'] value)) := by
  rw [replaceAll_backtick_backslash]
  induction value with
  | nil => rw [escapeTemplate, List.flatMap_nil, replaceAll]
  | cons c rest ih =>
    rw [List.flatMap_cons]
    by_cases hm : c = '\\' ∨ c = '`'
    · have hc : c ≠ '$' := by rcases hm with rfl | rfl <;> decide
      rw [masked, if_pos hm, List.cons_append, List.singleton_append,
        replaceAll_brace_cons (by decide), replaceAll_brace_cons hc, ← ih,
        escapeTemplate_masked (or_assoc.mp (.inl hm))]
    rw [masked, if_neg hm, List.singleton_append]
    by_cases hc : c = '$'
    · subst hc
      by_cases hbrace : rest.head? = some '{'
      · -- Behind the dollar sign, the brace is replaced with it, and is left as it is.
        obtain ⟨rest, rfl⟩ := List.head?_eq_some_iff.mp hbrace
        rw [List.flatMap_cons, show masked '{' = ['{'] from rfl, List.singleton_append] at ih ⊢
        rw [replaceAll_brace_cons (by decide)] at ih
        rw [escapeTemplate_masked (.inr (.inr ⟨rfl, rfl⟩)), ih, replaceAll_here (by simp)]
        rfl
      · have hprefix : ¬['$', '{'] <+: '$' :: rest.flatMap masked := fun h => hbrace <| by
          obtain ⟨behind, heq⟩ := (List.cons_prefix_cons.mp h).2
          rw [← head?_flatMap_masked, ← heq]
          rfl
        rw [replaceAll_behind hprefix, ← ih, escapeTemplate_bare]
        rintro (h | h | h)
        · exact absurd h (by decide)
        · exact absurd h (by decide)
        · exact hbrace h.2
    · rw [replaceAll_brace_cons hc, ← ih, escapeTemplate_bare]
      rintro (h | h | h)
      · exact hm (.inl h)
      · exact hm (.inr h)
      · exact hc h.1

/-! ## What is written, read again -/

theorem cookUnits_escapeTemplate (value : List Char) :
    cookUnits (escapeTemplate value) = value.map Char.toNat := by
  induction value with
  | nil => rw [escapeTemplate, cookUnits, List.map_nil]
  | cons c rest ih =>
    by_cases hm : IsMasked c rest
    · rw [escapeTemplate_masked hm, cookUnits_escape, escape_of_masked hm, List.map_cons]
      exact congrArg _ ih
    · rw [escapeTemplate_bare hm, cookUnits_cons fun e => hm (.inl e), ih, List.map_cons]

theorem cook_escapeTemplate : Function.LeftInverse cook escapeTemplate := fun value => by
  rw [cook, cookUnits_escapeTemplate, joinSurrogates_map_toNat]

/-- A backtick behind what is written is the one that closes it. -/
theorem closeTemplate?_escapeTemplate (value behind : List Char) :
    closeTemplate? 0 (escapeTemplate value ++ '`' :: behind) = some (escapeTemplate value).length :=
  closeTemplate?_of_whole (whole_of_plain (plain_escapeTemplate value) (by simp)) behind

/-- What is written for a value stands for that value alone, and no lexeme of it ends a template or
opens a substitution: a template is closed by the backtick behind it. -/
theorem escapeTemplate_inert :
    Function.Injective escapeTemplate ∧
      ∀ value, cook (escapeTemplate value) = value ∧ Plain (escapeTemplate value) ∧
        ∀ behind, closeTemplate? 0 (escapeTemplate value ++ '`' :: behind) =
          some (escapeTemplate value).length :=
  ⟨cook_escapeTemplate.injective, fun value => ⟨cook_escapeTemplate value,
    plain_escapeTemplate value, closeTemplate?_escapeTemplate value⟩⟩

end ReleasePrompts.Scope
