import ReleasePrompts.Scope.Layer
import ReleasePrompts.Text.Blank

/-!
# Templates and their substitutions

`templatePath?` leads from the root of a syntax tree to the template literal around an occurrence of
a text. `substitute` fills in the source text of a template literal: a substitution that is nothing
but a name of known value gives way to that value, escaped, and all else stays as it is.
-/

namespace ReleasePrompts.Scope

open Script Literal Text

/-- A node on the way from the root, and its place among its siblings. -/
structure Step where
  index : Nat
  node : Node

/-- The nodes from the root down to one of them. -/
abbrev Path := List Step

mutual

/-- The way from a node to the outermost template literal that covers a range. -/
def templatePath? (start stop index : Nat) : Node → Option Path
  | .mk kind nodeStart nodeStop children =>
    let node := Node.mk kind nodeStart nodeStop children
    if !node.covers start stop then none
    else if kind = .template then some [⟨index, node⟩]
    else (templatePathAmong? start stop 0 children).map (⟨index, node⟩ :: ·)

/-- The way through the first of several siblings that has one. -/
def templatePathAmong? (start stop index : Nat) : List Node → Option Path
  | [] => none
  | node :: nodes =>
    match templatePath? start stop index node with
    | some path => some path
    | none => templatePathAmong? start stop (index + 1) nodes

end

/-- The way to the template literal that holds `target`. Of the occurrences of `target` inside
template literals the first one counts, and of the template literals around it the outermost. -/
def pathToTarget? (source : List Char) (tree : Node) (target : List Char) : Option Path :=
  if target.isEmpty then none
  else (occurrences target source).findSome? fun place =>
    templatePath? place (place + target.length) 0 tree

/-- The first template literal, each node before its children, whose text holds `target`. -/
def firstTemplate? (source : List Char) (tree : Node) (target : List Char) : Option Node :=
  tree.preorder.find? fun node =>
    node.kind == .template && contains (textOf source node) target

/-- The text of a substitution between its delimiters, without the blanks around it. -/
def expressionText (source : List Char) (substitution : Node) : List Char :=
  trim (slice source (substitution.start + 2) (substitution.stop - 1))

/-- The source text from `place` up to `stop`, in which the given substitutions are resolved. -/
def substituteFrom (source : List Char) (chain : Chain) (place stop : Nat) :
    List Node → List Char
  | [] => slice source place stop
  | substitution :: others =>
    match chain.lookup? (expressionText source substitution) with
    | none => substituteFrom source chain place stop others
    | some value =>
      slice source place substitution.start ++ escapeTemplate value ++
        substituteFrom source chain substitution.stop stop others

/-- The source text of a template literal with its substitutions resolved. -/
def substitute (source : List Char) (chain : Chain) (template : Node) : List Char :=
  substituteFrom source chain template.start template.stop (substitutions template)

end ReleasePrompts.Scope
