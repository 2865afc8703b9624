import ReleasePrompts.Service.Request
import ReleasePrompts.Settings
import ReleasePrompts.Web.Query

/-!
# Responses

A response is a document or a page. This module says how versions, prompts and comparisons are shown
as documents, and with which status and document a problem is answered.
-/

namespace ReleasePrompts.Web

open Document Registry Prompt Service

/-- What a request is answered. -/
inductive Response where
  | document (status : Nat) (body : Value)
  | page

/-- The tab of a prompt. -/
def tabDocument (name : Name) (available : Bool) : Value :=
  .object [("name", .string name.key), ("label", .string name.label),
    ("available", .bool available)]

/-- A published version. -/
def listingDocument (listing : Listing) : Value :=
  .object [("version", .string listing.version), ("date", .ofString? listing.date)]

/-- The published versions, the two that are compared by default, and the tabs. -/
def listingsDocument (config : Config) (listings : List Listing) : Value :=
  let latest := lastTwo? listings
  .object [("package", .string config.client.package),
    ("versions", .list (listings.map listingDocument)),
    ("default_base", .ofString? (latest.map Prod.fst)),
    ("default_compare", .ofString? (latest.map Prod.snd)),
    ("tabs", .list (config.markers.map fun (name, _) => tabDocument name true))]

/-- The name of a strategy. -/
def strategyName : Strategy → String
  | .scope => "scope"
  | .lexical => "lexical"

/-- What was found of a prompt, perhaps without its text. -/
def findingDocument (includeText : Bool) (name : Name) (finding : Finding) : Value :=
  .object [("label", .string name.label), ("length", .int finding.length),
    ("found", .bool finding.isPresent),
    ("strategy", .ofString? (finding.strategy?.map strategyName)),
    ("text", if includeText then .ofString? (finding.text?.map String.ofList) else .null)]

/-- The prompts of a version. -/
def promptsDocument (includeText : Bool) (prompts : PromptSet) : Value :=
  .object [("version", .string prompts.version), ("source_path", .string prompts.path),
    ("prompts", .object (prompts.findings.map fun (name, finding) =>
      (name.key, findingDocument includeText name finding)))]

/-- The name of a kind of groups and rows. -/
def groupKindName : Diff.GroupKind → String
  | .unchanged => "unchanged"
  | .change => "change"
  | .removed => "removed"
  | .added => "added"

/-- The name of a kind of cells. -/
def cellKindName : Diff.CellKind → String
  | .context => "context"
  | .removed => "removed"
  | .added => "added"
  | .empty => "empty"

/-- A segment of a line that changed. -/
def segmentDocument (segment : Diff.Segment) : Value :=
  .object [("text", .string (String.ofList segment.text)), ("changed", .bool segment.changed)]

/-- A line of a column. -/
def cellDocument (cell : Diff.Cell) : Value :=
  .object [("number", .ofNat? cell.number), ("text", .string (String.ofList cell.text)),
    ("kind", .string (cellKindName cell.kind)),
    ("segments", match cell.segments with
      | none => .null
      | some segments => .list (segments.map segmentDocument))]

/-- A row. -/
def rowDocument (row : Diff.Row) : Value :=
  .object [("kind", .string (groupKindName row.kind)), ("left", cellDocument row.left),
    ("right", cellDocument row.right)]

/-- How much changed. -/
def summaryDocument (summary : Diff.Summary) : Value :=
  .object [("added", .int summary.added), ("removed", .int summary.removed),
    ("text", .string summary.text)]

/-- A comparison. -/
def comparisonDocument (comparison : Comparison) : Value :=
  .object [("base", .string comparison.base), ("compare", .string comparison.compared),
    ("tab", .string comparison.tab.key), ("label", .string comparison.tab.label),
    ("base_length", .int comparison.baseLength), ("compare_length", .int comparison.comparedLength),
    ("rows", .list (comparison.table.rows.map rowDocument)),
    ("summary", summaryDocument comparison.table.summary),
    ("tabs", .list (comparison.tabs.map fun tab => tabDocument tab.name tab.available)),
    ("show_tabs", .bool comparison.showTabs)]

/-- A document that says what is wrong in a single text. -/
def detail (status : Nat) (text : String) : Response :=
  .document status (.object [("detail", .string text)])

/-- The response to a parameter that does not name a truth value. -/
def invalidFlag (fault : NoTruthValue) : Response :=
  .document 422 (.object [("error", .string "validation_error"),
    ("message", .string "Request validation failed"),
    ("details", .list [.object [("field", .string s!"query.{fault.name}"),
      ("message",
        .string "Input should be a valid boolean, unable to interpret input"),
      ("type", .string "bool_parsing")]])])

/-- The response to a request with a value that cannot be worked with. -/
def invalidValue (message : String) : Response :=
  .document 400 (.object [("error", .string "invalid_value"), ("message", .string message)])

/-- The response to a problem. What is behind an unexpected one is told only to those who debug the
service. -/
def problemResponse (debug : Bool) (problem : Problem) : Response :=
  match problem with
  | .failure failure => .document failure.status failure.body
  | .excessDigits _ => invalidValue problem.message
  | other =>
    .document 500 (.object (("error", .string "internal_error") ::
      if debug then [("message", .string other.message), ("type", .string other.kindName)]
      else [("message", .string "An unexpected error occurred")]))

end ReleasePrompts.Web
