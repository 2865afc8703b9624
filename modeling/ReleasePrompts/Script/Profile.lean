import ReleasePrompts.Pairs
import ReleasePrompts.Script.Program

/-!
# Profiles

A profile is a way of reading sources: as a module or a script, and in an edition of the language.
It accepts a syntax tree that holds none of the constructs it forbids. `select?` gives the first
profile of a list that accepts a tree.
-/

namespace ReleasePrompts.Script

/-- What a source is read as. -/
inductive Goal where
  | module
  | script
  | unknown
  deriving DecidableEq, Repr

/-- Modules hold no `with` statement, and scripts take nothing from other modules statically. -/
def Goal.forbidden : Goal → List Feature
  | module => [.withStatement]
  | script => [.importStatement, .exportStatement]
  | unknown => []

/-- The constructs outside an edition, of the editions that are told apart. -/
def forbiddenInEdition : Nat → List Feature
  | 2022 => [.markup, .decorator]
  | 2020 =>
    [.markup, .decorator, .classField, .privateName, .staticBlock, .logicalAssignment]
  | _ => []

/-- A way of reading sources. -/
structure Profile where
  name : String
  goal : Goal
  /-- The edition of the language; the latest where there is none. -/
  edition : Option Nat := none
  /-- Whether every construct is accepted. -/
  permissive : Bool := false
  deriving DecidableEq, Repr

/-- The constructs that a profile forbids. -/
def Profile.forbidden (profile : Profile) : List Feature :=
  if profile.permissive then []
  else profile.goal.forbidden ++ ((profile.edition.map forbiddenInEdition).getD [])

/-- The profiles a source is tried under, in this order. -/
def defaultProfiles : List Profile :=
  [⟨"module-es2022", .module, some 2022, false⟩, ⟨"script-es2022", .script, some 2022, false⟩,
    ⟨"module-es2020", .module, some 2020, false⟩, ⟨"script-es2020", .script, some 2020, false⟩,
    ⟨"latest-permissive", .module, none, true⟩]

/-- What is known of a tree: of each construct that was looked for, whether the tree holds it. -/
abbrev Probes := List (Feature × Bool)

/-- Whether a tree holds a construct. It is searched only if that is not known yet. -/
def probe (tree : Node) (known : Probes) (feature : Feature) : Bool × Probes :=
  match Pairs.get? known feature with
  | some held => (held, known)
  | none =>
    let held := tree.hasFeature feature
    (held, Pairs.put known feature held)

/-- Those of some constructs that a tree holds. All of them are looked for. -/
def probeAll (tree : Node) (known : Probes) : List Feature → List Feature × Probes
  | [] => ([], known)
  | feature :: features =>
    let (held, known) := probe tree known feature
    let (others, known) := probeAll tree known features
    (if held then feature :: others else others, known)

/-- The first profile that accepts a tree. What is known of the tree, and what is found for one
profile, serves the profiles behind it. -/
def selectKnowing? (tree : Node) (known : Probes) : List Profile → Option Profile
  | [] => none
  | profile :: profiles =>
    let (held, known) := probeAll tree known profile.forbidden
    if held.isEmpty then some profile else selectKnowing? tree known profiles

/-- The first profile that accepts a tree. -/
def select? (profiles : List Profile) (tree : Node) : Option Profile :=
  selectKnowing? tree [] profiles

/-- A reader of sources, which gives the syntax tree of a source that has one. -/
abbrev Reader := List Char → Option Node

/-- A source with its syntax tree and the profile that accepts it. -/
structure Parsed where
  source : List Char
  tree : Node
  profile : Profile

/-- Reads a source under the first profile that accepts it. -/
def readUnder? (profiles : List Profile) (source : List Char) (reader : Reader := parse?) :
    Option Parsed := do
  let tree ← reader source
  let profile ← select? profiles tree
  return ⟨source, tree, profile⟩

end ReleasePrompts.Script
