import ReleasePrompts.Archive.Bits

/-!
# Canonical codes

A canonical code gives each symbol a number of bits; symbols of one length take consecutive
codewords in their order, and shorter codewords precede longer ones. `Code.ofLengths` sorts the
symbols, and `Code.symbol` reads one, bit by bit.
-/

namespace ReleasePrompts.Archive

/-- A canonical code. -/
structure Code where
  /-- The number of symbols of each length from one on. -/
  counts : List Nat
  /-- The symbols by length and, within one length, in their order. -/
  symbols : Array Nat
  deriving DecidableEq, Repr

namespace Code

/-- The symbols of a given length among those with the lengths given. -/
def ofLength (lengths : Array Nat) (length : Nat) : List Nat :=
  (List.range lengths.size).filter fun symbol => lengths.getD symbol 0 == length

/-- The longest length that occurs. -/
def longest (lengths : Array Nat) : Nat := lengths.foldl max 0

/-- The code with the lengths given; a length of zero leaves a symbol out. -/
def ofLengths (lengths : Array Nat) : Code :=
  let groups := (List.range (longest lengths)).map fun i => ofLength lengths (i + 1)
  ⟨groups.map List.length, groups.flatten.toArray⟩

/-- How many codewords of the length after the last one are free once those with the given counts
are taken, or none if there are too few. -/
def free? (counts : List Nat) : Option Nat :=
  counts.foldl (fun free count => free.bind fun free =>
    if count ≤ 2 * free then some (2 * free - count) else none) (some 1)

/-- Whether the lengths are those of a code that leaves no codeword free. -/
def isComplete (code : Code) : Bool := free? code.counts == some 0

/-- Whether no symbol has a codeword. -/
def isEmpty (code : Code) : Bool := code.counts.isEmpty

/-- Whether the lengths make a code that data may use: it is complete, or empty, or has codewords of
one bit alone and one of the two left free. -/
def isUsable (code : Code) : Bool :=
  code.isEmpty || code.isComplete ||
    (code.counts.length == 1 && (free? code.counts).isSome)

/-- Reads the codeword that `code` begins, given the first codeword of the next length and the
symbols before it. A codeword that no symbol has is of one bit. -/
def symbolFrom (symbols : Array Nat) (code first index : Nat) :
    List Nat → BitReader (Option Nat)
  | [] => return none
  | count :: counts => do
    let code := 2 * code + (← BitReader.number 1)
    let first := 2 * first
    if code < first + count then return symbols[index + (code - first)]?
    symbolFrom symbols code (first + count) (index + count) counts

/-- Reads a symbol. An empty code takes one bit for none. -/
def symbol (code : Code) : BitReader (Option Nat) :=
  symbolFrom code.symbols 0 0 0 (if code.isEmpty then [0] else code.counts)

end Code

end ReleasePrompts.Archive
