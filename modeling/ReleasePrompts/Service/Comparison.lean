import ReleasePrompts.Diff.Rows
import ReleasePrompts.Failure
import ReleasePrompts.Prompt.Extraction

/-!
# Comparing a prompt of two versions

A comparison shows the prompt of a tab in two versions side by side, and says which tabs there are
and for which of them both versions have a prompt. Versions that lack the prompt of the tab cannot
be compared; the system prompt is never asked after, since no version is loaded without it.
-/

namespace ReleasePrompts.Service

open Prompt

/-- A tab, and whether both versions have its prompt. -/
structure Tab where
  name : Name
  available : Bool
  deriving DecidableEq, Repr

/-- The comparison of a prompt of two versions. -/
structure Comparison where
  base : String
  compared : String
  tab : Name
  baseLength : Nat
  comparedLength : Nat
  table : Diff.Table
  tabs : List Tab
  showTabs : Bool
  deriving DecidableEq, Repr

/-- The versions among two that lack a prompt. -/
def lacking (name : Name) (base compared : String) (left right : PromptSet) : List String :=
  (if (left.finding name).isPresent then [] else [base]) ++
    if (right.finding name).isPresent then [] else [compared]

/-- Compares a prompt of two versions whose prompts are given. -/
def compareSets (markers : Markers) (base compared : String) (tab : Name)
    (left right : PromptSet) : Except Failure Comparison :=
  let missing := if tab = .system then [] else lacking tab base compared left right
  if missing.isEmpty then
    .ok {
      base, compared, tab
      baseLength := (left.finding tab).length
      comparedLength := (right.finding tab).length
      table := Diff.diffTexts ((left.finding tab).text?.getD []) ((right.finding tab).text?.getD [])
      tabs := markers.map fun (name, _) =>
        ⟨name, (left.finding name).isPresent && (right.finding name).isPresent⟩
      showTabs := left.hasAlternates || right.hasAlternates }
  else .error (.promptMissing tab.key tab.missing missing)

end ReleasePrompts.Service
