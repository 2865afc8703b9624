import ReleasePrompts.Document.Spelling
import ReleasePrompts.Number.Numeral
import ReleasePrompts.Prompt.Name
import ReleasePrompts.Release.Timestamp

/-!
# Failures

A `Failure` is what those who use the service are told of a request that cannot be met. It has a
message, details, a stable code and the status with which it is answered. A `Problem` is any reason
for which a request has no result; those that are no failures have no code of their own.
-/

namespace ReleasePrompts

open Document

/-- Why a request cannot be met. -/
inductive Failure where
  /-- The metadata of the package cannot be had or read. -/
  | metadataUnavailable (message : String) (status : Option Int)
  /-- The version is not published. -/
  | unknownVersion (version : String)
  /-- The tarball of the version cannot be had. -/
  | tarballUnavailable (version message : String) (status : Option Int)
  /-- The tarball is no complete gzip stream. -/
  | archiveInvalid (message : String) (details : List (String × Value))
  /-- The tarball, or what it holds, exceeds a limit. -/
  | archiveTooLarge (message : String) (details : List (String × Value))
  /-- None of the files that may hold the program is in the tarball. -/
  | noProgramFile (version : String)
  /-- The program has no system prompt. -/
  | noSystemPrompt (version path : String)
  /-- Versions lack the prompt of a tab. -/
  | promptMissing (tab label : String) (versions : List String)
  /-- What is asked for makes no sense. -/
  | invalidComparison (message : String) (details : List (String × Value))
  /-- Any other failure of the service. -/
  | unspecified (message : String) (details : List (String × Value))

namespace Failure

/-- The wording of a failure. -/
def message : Failure → String
  | metadataUnavailable message _ => message
  | unknownVersion version => s!"Version {version} not found"
  | tarballUnavailable _ message _ => message
  | archiveInvalid message _ => message
  | archiveTooLarge message _ => message
  | noProgramFile version => s!"No CLI file found in version {version}"
  | noSystemPrompt version path => s!"No system prompt found in {path} for version {version}"
  | promptMissing _ label versions =>
    let list := String.intercalate ", " versions
    s!"{label} not found in version(s): {list}"
  | invalidComparison message _ => message
  | unspecified message _ => message

/-- The status of an answer of the registry, if there was one. -/
def statusDetail : Option Int → List (String × Value)
  | none => []
  | some status => [("status", .int status)]

/-- The details of a failure. -/
def details : Failure → List (String × Value)
  | metadataUnavailable _ status => statusDetail status
  | unknownVersion version => [("version", .string version)]
  | tarballUnavailable version _ status => ("version", .string version) :: statusDetail status
  | archiveInvalid _ details => details
  | archiveTooLarge _ details => details
  | noProgramFile version => [("version", .string version)]
  | noSystemPrompt version path => [("version", .string version), ("source_path", .string path)]
  | promptMissing tab _ versions =>
    [("tab", .string tab), ("versions", .list (versions.map Value.string))]
  | invalidComparison _ details => details
  | unspecified _ details => details

/-- The code of a failure. -/
def code : Failure → String
  | metadataUnavailable .. => "metadata_fetch_failed"
  | unknownVersion .. => "version_not_found"
  | tarballUnavailable .. => "tarball_fetch_failed"
  | archiveInvalid .. => "archive_invalid"
  | archiveTooLarge .. => "archive_too_large"
  | noProgramFile .. => "no_cli_file"
  | noSystemPrompt .. => "no_system_prompt"
  | promptMissing .. => "prompt_missing"
  | invalidComparison .. => "invalid_comparison"
  | unspecified .. => "invalid_comparison"

/-- The status with which a failure is answered. -/
def status : Failure → Nat
  | metadataUnavailable .. => 502
  | unknownVersion .. => 404
  | tarballUnavailable .. => 502
  | archiveInvalid .. => 502
  | archiveTooLarge .. => 413
  | noProgramFile .. => 422
  | noSystemPrompt .. => 422
  | promptMissing .. => 404
  | invalidComparison .. => 400
  | unspecified .. => 500

/-- The body with which a failure is answered: code, message, and the details if there are any. -/
def body (failure : Failure) : Value :=
  .object ([("error", .string failure.code), ("message", .string failure.message)] ++
    if failure.details.isEmpty then [] else [("details", .object failure.details)])

/-- The failure of a request for a tab that there is not. -/
def unknownTab (tab : String) : Failure :=
  let quoted := String.ofList (Text.quoted tab.toList)
  invalidComparison s!"Unknown tab {quoted}; expected one of: {Prompt.Name.keyList}" []

/-- The failure of a comparison of a version with itself. -/
def sameVersion : Failure := invalidComparison "Pick two different versions." []

/-- The failure of a comparison for which there are too few versions. -/
def tooFewVersions : Failure :=
  invalidComparison "At least two published versions are needed for a comparison" []

end Failure

/-- Why a request has no result. -/
inductive Problem where
  /-- A failure of the service. -/
  | failure (failure : Failure)
  /-- A version with a number of too many digits. -/
  | excessDigits (count : Nat)
  /-- A time of publication outside the calendar. -/
  | outOfCalendar
  /-- A tarball that is named by something else than a string. -/
  | notAnAddress (value : Value)
  /-- A tarball that is named by a string with a character that no address has. -/
  | malformedAddress (message : String)
  /-- A load that never ends: the request that waits for it is not answered at all. -/
  | unanswered

namespace Problem

/-- The wording of a problem. -/
def message : Problem → String
  | failure cause => cause.message
  | excessDigits count => Number.tooManyDigitsMessage count
  | outOfCalendar => Release.OutOfCalendar.message {}
  | notAnAddress value =>
    let shown := String.ofList value.shown
    s!"Invalid type for url.  Expected str or httpx.URL, got <class '{value.kindName}'>: {shown}"
  | malformedAddress message => message
  | unanswered => ""

/-- The kind of a problem, as those who look for its cause are told. -/
def kindName : Problem → String
  | failure _ => "PromptDiffError"
  | excessDigits _ => "ValueError"
  | outOfCalendar => "OverflowError"
  | notAnAddress _ => "TypeError"
  | malformedAddress _ => "InvalidURL"
  | unanswered => ""

end Problem

/-- The prompt that a tab shows. -/
def tabOf (tab : String) : Except Failure Prompt.Name :=
  match Prompt.Name.ofKey? tab with
  | some name => .ok name
  | none => .error (.unknownTab tab)

end ReleasePrompts
