import ReleasePrompts.Text.Range

/-!
# Blank characters

White space in the sense of Unicode (bidirectional classes WS, B and S, and the separators), which
also counts the four information separators U+001C to U+001F. `trim` removes it from both ends.
-/

namespace ReleasePrompts.Text

/-- The ranges of the blank characters. -/
def blankRanges : Ranges :=
  [(9, 13), (28, 32), (0x85, 0x85), (0xA0, 0xA0), (0x1680, 0x1680), (0x2000, 0x200A),
    (0x2028, 0x2029), (0x202F, 0x202F), (0x205F, 0x205F), (0x3000, 0x3000)]

/-- A white-space character of Unicode, or an information separator. -/
def isBlank (c : Char) : Bool := blankRanges.has c

/-- A text without the characters satisfying `p` at either end. -/
def trimBoth (p : Char → Bool) (cs : List Char) : List Char :=
  ((cs.dropWhile p).reverse.dropWhile p).reverse

/-- A text without the blanks at either end. -/
def trim (cs : List Char) : List Char := trimBoth isBlank cs

end ReleasePrompts.Text
