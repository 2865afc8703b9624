import ReleasePrompts.Prompt.Name
import ReleasePrompts.Scope.Resolver

/-!
# Extracting prompts

A prompt is the literal around its marker: the template literal with the names in it resolved, or
else the literal that its quotes delimit. A release without system prompt has no prompts.
-/

namespace ReleasePrompts.Prompt

open Scope Literal Script

/-- How a prompt was found: by the syntax of the source, or by quotes alone. -/
inductive Strategy where
  | scope
  | lexical
  deriving DecidableEq, Repr

/-- What a source holds for a marker. -/
inductive Finding where
  | absent
  | present (text : List Char) (strategy : Strategy)
  deriving DecidableEq, Repr

namespace Finding

/-- The text that was found. -/
def text? : Finding → Option (List Char)
  | absent => none
  | present text _ => some text

/-- How the text was found. -/
def strategy? : Finding → Option Strategy
  | absent => none
  | present _ strategy => some strategy

/-- The number of characters found. -/
def length : Finding → Nat
  | absent => 0
  | present text _ => text.length

/-- Whether anything was found. -/
def isPresent : Finding → Bool
  | absent => false
  | present .. => true

end Finding

/-- What is found by a text that may be empty or missing, and then by other means. -/
def findingOr (text : Option (List Char)) (strategy : Strategy) (other : Finding) : Finding :=
  match text with
  | none | some [] => other
  | some (c :: cs) => .present (c :: cs) strategy

/-- Looks for a marker. -/
def find (resolver : Resolver) (marker : List Char) : Finding × Resolver :=
  let (resolved, resolver) := resolver.resolve marker
  let lexical := findingOr (locate? resolver.source marker) .lexical .absent
  (findingOr resolved .scope lexical, resolver)

/-- Looks for markers, one after the other. -/
def findAll (resolver : Resolver) : Markers → List (Name × Finding)
  | [] => []
  | (name, marker) :: markers =>
    let (finding, resolver) := find resolver marker.toList
    (name, finding) :: findAll resolver markers

/-- The prompts of a version, and the file they were found in. -/
structure PromptSet where
  version : String
  path : String
  findings : List (Name × Finding)
  deriving DecidableEq, Repr

namespace PromptSet

/-- What was found of a prompt. -/
def finding (prompts : PromptSet) (name : Name) : Finding :=
  (Pairs.get? prompts.findings name).getD .absent

/-- Whether any prompt besides the system prompt was found. -/
def hasAlternates (prompts : PromptSet) : Bool :=
  prompts.findings.any fun (name, finding) => name ≠ .system && finding.isPresent

end PromptSet

/-- The prompts of a source, unless it has no system prompt. -/
def extractSet? (source : List Char) (version path : String) (markers : Markers)
    (reader : Reader := parse?) : Option PromptSet :=
  let prompts : PromptSet := ⟨version, path, findAll (Resolver.ofSource source reader) markers⟩
  if (prompts.finding .system).isPresent then some prompts else none

end ReleasePrompts.Prompt
