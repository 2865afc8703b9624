import ReleasePrompts.Text.Search

/-!
# Locating a literal

`locate` finds the string or template literal around the first occurrence of a text by its quotes
alone, so it also serves sources that do not parse. A backtick before the occurrence opens a
template, which the first backtick behind the occurrence and outside `${…}` closes. Failing that,
the nearest quote of any kind opens a literal that its next unescaped twin closes.
-/

namespace ReleasePrompts.Literal

open Text

/-- How far ahead the backtick is that closes a template, inside `depth` substitutions. -/
def closeTemplate? : (depth : Nat) → List Char → Option Nat
  | 0, '`' :: _ => some 0
  | depth, '$' :: '{' :: rest => (closeTemplate? (depth + 1) rest).map (· + 2)
  | depth + 1, '}' :: rest => (closeTemplate? depth rest).map (· + 1)
  | depth, '\\' :: _ :: rest => (closeTemplate? depth rest).map (· + 2)
  | depth, _ :: rest => (closeTemplate? depth rest).map (· + 1)
  | _, [] => none

/-- How far ahead the next `quote` is that no backslash escapes. -/
def closeQuote? (quote : Char) : List Char → Option Nat
  | [] => none
  | c :: rest =>
    if c = quote then some 0
    else if c = '\\' then
      match rest with
      | [] => none
      | _ :: rest' => (closeQuote? quote rest').map (· + 2)
    else (closeQuote? quote rest).map (· + 1)

/-- A character that opens and closes a literal. -/
def isQuote (c : Char) : Bool := c == '`' || c == '"' || c == '\''

/-- The last place, up to and including `place`, of a character that satisfies `p`. -/
def lastIndexUpTo? (p : Char → Bool) (source : List Char) (place : Nat) : Option Nat :=
  ((source.take (place + 1)).reverse.findIdx? p).map (min place (source.length - 1) - ·)

/-- The literal around the first occurrence of `target`. -/
def locate? (source target : List Char) : Option (List Char) := do
  if target.isEmpty then none
  let place ← indexOf? target source
  let behind := place + target.length
  let template := do
    let start ← lastIndexUpTo? (· == '`') source place
    let ahead ← closeTemplate? 0 (source.drop behind)
    return slice source start (behind + ahead + 1)
  template <|> do
    let start ← lastIndexUpTo? isQuote source place
    let quote ← source[start]?
    let ahead ← closeQuote? quote (source.drop behind)
    return slice source start (behind + ahead + 1)

end ReleasePrompts.Literal
