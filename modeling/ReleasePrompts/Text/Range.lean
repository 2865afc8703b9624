/-!
# Sets of code points

A class of characters is a list of closed ranges of code points (`Ranges`). The tables of this
library list the ranges of a Unicode property above ASCII, in increasing order.
-/

namespace ReleasePrompts.Text

/-- Closed ranges of code points: a pair `(a, b)` holds every code point from `a` to `b`. -/
abbrev Ranges := List (Nat × Nat)

namespace Ranges

/-- Whether one of the ranges holds the code point of `c`. -/
def has (ranges : Ranges) (c : Char) : Bool :=
  ranges.any fun range => range.1 ≤ c.toNat && c.toNat ≤ range.2

end Ranges

end ReleasePrompts.Text
