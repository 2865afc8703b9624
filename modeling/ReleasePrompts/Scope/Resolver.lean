import ReleasePrompts.Literal.Locator
import ReleasePrompts.Scope.Template
import ReleasePrompts.Script.Profile

/-!
# Resolving templates

A `Resolver` serves any number of lookups in one source. The source is read once, and the layers
that one lookup collects are kept for the next, under the address of their node. `resolve` gives the
template literal that holds a text, with the names in it resolved; `extract` falls back to the
literal that is located by its quotes alone.
-/

namespace ReleasePrompts.Scope

open Script Literal Text

/-- A source without the line that names its interpreter and without a byte-order mark. -/
def preprocess (source : List Char) : List Char :=
  let body :=
    if ['#', '!'].isPrefixOf source && source.contains '\n' then
      (source.dropWhile (· != '\n')).drop 1
    else source
  if body.head? == some '\uFEFF' then body.drop 1 else body

/-- Where a node stands: its place among its siblings and those of its ancestors, from the root. -/
abbrev Address := List Nat

/-- The nodes of a path with their addresses. -/
def addressed (above : Address) : Path → List (Address × Node)
  | [] => []
  | step :: steps =>
    (above ++ [step.index], step.node) :: addressed (above ++ [step.index]) steps

/-- A source under study. -/
structure Resolver where
  source : List Char
  parsed : Option Parsed
  /-- The layers collected so far. -/
  layers : List (Address × Layer) := []

namespace Resolver

/-- Begins the study of a source. -/
def ofSource (source : List Char) (reader : Reader := parse?) : Resolver :=
  { source, parsed := readUnder? defaultProfiles (preprocess source) reader }

/-- The layer of the node that goes by a name, collected if it is not known yet. -/
def layerAt {ι : Type} [BEq ι] (source : List Char) (known : List (ι × Layer)) (name : ι)
    (node : Node) : Layer × List (ι × Layer) :=
  match known.lookup name with
  | some found => (found, known)
  | none =>
    let collected := layer source node
    (collected, (name, collected) :: known)

/-- The layers of nodes, each of which goes by a name. -/
def chainAlong {ι : Type} [BEq ι] (source : List Char) (known : List (ι × Layer)) :
    List (ι × Node) → Chain × List (ι × Layer)
  | [] => ([], known)
  | (name, node) :: others =>
    let (first, known) := layerAt source known name node
    let (rest, known) := chainAlong source known others
    (first :: rest, known)

/-- The template literal that holds `target`, and the layers down to it. -/
def locateTemplate? (resolver : Resolver) (target : List Char) :
    Option (Parsed × Node × Chain × Resolver) := do
  let parsed ← resolver.parsed
  let path ← pathToTarget? parsed.source parsed.tree target
  let last ← path.getLast?
  let (chain, layers) := chainAlong parsed.source resolver.layers (addressed [] path)
  return (parsed, last.node, chain, { resolver with layers })

/-- The template literal that holds `target`, with the names in it resolved. There is none if no
profile accepts the source or no template literal holds the text. -/
def resolve (resolver : Resolver) (target : List Char) : Option (List Char) × Resolver :=
  match resolver.locateTemplate? target with
  | none => (none, resolver)
  | some (parsed, template, chain, resolver) =>
    (some (substitute parsed.source chain template), resolver)

/-- The resolved template literal that holds `target`, or else the literal around its first
occurrence in the source as it was given. -/
def extract (resolver : Resolver) (target : List Char) : Option (List Char) × Resolver :=
  let (resolved, resolver) := resolver.resolve target
  (resolved <|> locate? resolver.source target, resolver)

end Resolver

/-- The resolved template literal of a source that holds `target`. -/
def resolve? (source target : List Char) (reader : Reader := parse?) : Option (List Char) :=
  ((Resolver.ofSource source reader).resolve target).1

/-- The resolved template literal of a source that holds `target`, or else the literal there. -/
def extract? (source target : List Char) (reader : Reader := parse?) : Option (List Char) :=
  ((Resolver.ofSource source reader).extract target).1

end ReleasePrompts.Scope
