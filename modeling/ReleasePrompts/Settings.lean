import ReleasePrompts.Document.Reader
import ReleasePrompts.Text.Blank

/-!
# Settings

The settings of the service have defaults and are changed by variables of the environment, whose
names are read in any case. `Settings.ofEnvironment` gives the settings, or the names of all those
that have no value of their kind.
-/

namespace ReleasePrompts

open Document Number Text

/-- The settings of the service. -/
structure Settings where
  appName : String := "promptdiff"
  appVersion : String := "1.0.0"
  appDescription : String := "Line-level diffs of the prompts embedded in published CLI releases"
  debug : Bool := false
  logLevel : String := "INFO"
  backendHost : String := "127.0.0.1"
  backendPort : Int := 8000
  corsOrigins : List String :=
    ["http://localhost:3000", "http://localhost:5173", "http://127.0.0.1:8000"]
  registryAddress : String := "https://registry.npmjs.org"
  packageName : String := "@anthropic-ai/claude-code"
  registryTimeout : Binary64 := .ofInt 30
  tarballTimeout : Binary64 := .ofInt 120
  userAgent : String := "promptdiff/1.0"
  programFiles : List String := ["package/cli.js", "package/cli.mjs"]
  /-- The most mebibytes of an archive. -/
  archiveLimit : Int := 512
  /-- The most versions whose prompts are kept; without bound if not positive. -/
  cacheLimit : Int := 0
  defaultTab : String := "system"

namespace Settings

/-- The most bytes of an archive. -/
def archiveBytes (settings : Settings) : Int := settings.archiveLimit * 1024 * 1024

/-- What the service says of itself. -/
def info (settings : Settings) : Value :=
  .object [("app_name", .string settings.appName), ("version", .string settings.appVersion),
    ("description", .string settings.appDescription), ("package", .string settings.packageName),
    ("registry", .string settings.registryAddress)]

/-- All settings by their names. -/
def toPairs (settings : Settings) : List (String × Value) :=
  let strings (items : List String) : Value := .list (items.map Value.string)
  [("APP_NAME", .string settings.appName),
    ("APP_VERSION", .string settings.appVersion),
    ("APP_DESCRIPTION", .string settings.appDescription),
    ("DEBUG", .bool settings.debug),
    ("LOG_LEVEL", .string settings.logLevel),
    ("BACKEND_HOST", .string settings.backendHost),
    ("BACKEND_PORT", .int settings.backendPort),
    ("CORS_ORIGINS", strings settings.corsOrigins),
    ("NPM_REGISTRY_URL", .string settings.registryAddress),
    ("PACKAGE_NAME", .string settings.packageName),
    ("REGISTRY_TIMEOUT", .real settings.registryTimeout),
    ("TARBALL_TIMEOUT", .real settings.tarballTimeout),
    ("USER_AGENT", .string settings.userAgent),
    ("CLI_ENTRY_PATHS", strings settings.programFiles),
    ("MAX_ARCHIVE_SIZE_MB", .int settings.archiveLimit),
    ("EXTRACTION_CACHE_SIZE", .int settings.cacheLimit),
    ("DEFAULT_TAB", .string settings.defaultTab)]

end Settings

/-- The truth value that a text names, in any case. -/
def truthValue? (text : String) : Option Bool :=
  let name := text.toList.map Char.toLower
  if ["1", "t", "true", "y", "yes", "on"].any fun word => word.toList == name then some true
  else if ["0", "f", "false", "n", "no", "off"].any fun word => word.toList == name then some false
  else none

/-- A numeral without the underscores that stand one at a time between its characters, unless there
are others. -/
def withoutUnderscores? (cs : List Char) : Option (List Char) :=
  let doubled := (cs.zip (cs.drop 1)).any fun (a, b) => a == '_' && b == '_'
  if doubled || cs.head? == some '_' || cs.getLast? == some '_' then none
  else some (cs.filter (· != '_'))

/-- A numeral without a fraction of zeros alone. -/
def withoutZeroFraction (cs : List Char) : List Char :=
  match cs.dropWhile (· != '.') with
  | '.' :: zeros => if zeros.all (· == '0') then cs.takeWhile (· != '.') else cs
  | _ => cs

/-- The integer that a text spells in decimal, with blanks around it and perhaps a fraction of
zeros. -/
def integerOf? (text : String) : Option Int := do
  let trimmed := trim text.toList
  let (negative, unsigned) := splitSign trimmed
  let digits ← withoutUnderscores? (withoutZeroFraction unsigned)
  if digits.isEmpty || !digits.all Char.isDigit || digitLimit < trimmed.length then none
  else
    let value : Int := readDecimalDigits digits
    return if negative then -value else value

/-- The real that a text spells, with blanks around it. -/
def realOf? (text : String) : Option Binary64 := do
  let trimmed := trim text.toList
  if trimmed.any fun c => 127 < c.toNat then none
  else readReal? (← if trimmed.contains '_' then withoutUnderscores? trimmed else some trimmed)

/-- The list of strings that a text is as a document. -/
def stringsOf? (text : String) : Option (List String) :=
  match Value.read text.toList with
  | .ok (.list items) => items.mapM Value.string?
  | _ => none

/-- What a variable does to the settings; nothing if there is no value of its kind. -/
def Settings.change? (settings : Settings) (name text : String) : Option Settings :=
  match name with
  | "APP_NAME" => some { settings with appName := text }
  | "APP_VERSION" => some { settings with appVersion := text }
  | "APP_DESCRIPTION" => some { settings with appDescription := text }
  | "DEBUG" => (truthValue? text).map fun debug => { settings with debug }
  | "LOG_LEVEL" => some { settings with logLevel := text }
  | "BACKEND_HOST" => some { settings with backendHost := text }
  | "BACKEND_PORT" => (integerOf? text).map fun backendPort => { settings with backendPort }
  | "CORS_ORIGINS" => (stringsOf? text).map fun corsOrigins => { settings with corsOrigins }
  | "NPM_REGISTRY_URL" => some { settings with registryAddress := text }
  | "PACKAGE_NAME" => some { settings with packageName := text }
  | "REGISTRY_TIMEOUT" =>
    (realOf? text).map fun registryTimeout => { settings with registryTimeout }
  | "TARBALL_TIMEOUT" => (realOf? text).map fun tarballTimeout => { settings with tarballTimeout }
  | "USER_AGENT" => some { settings with userAgent := text }
  | "CLI_ENTRY_PATHS" => (stringsOf? text).map fun programFiles => { settings with programFiles }
  | "MAX_ARCHIVE_SIZE_MB" =>
    (integerOf? text).map fun archiveLimit => { settings with archiveLimit }
  | "EXTRACTION_CACHE_SIZE" => (integerOf? text).map fun cacheLimit => { settings with cacheLimit }
  | "DEFAULT_TAB" => some { settings with defaultTab := text }
  | _ => some settings

/-- The names of variables in upper case, each with the last value it is given. -/
def lastValues (environment : List (String × String)) : List (String × String) :=
  Pairs.putAll [] (environment.map fun (name, text) => (name.map Char.toUpper, text))

/-- The settings of an environment, or the names of those that have no value of their kind. -/
def Settings.ofEnvironment (environment : List (String × String)) :
    Except (List String) Settings :=
  let (settings, wrong) := (lastValues environment).foldl
    (fun (settings, wrong) (name, text) =>
      match settings.change? name text with
      | some changed => (changed, wrong)
      | none => (settings, name :: wrong)) (({} : Settings), ([] : List String))
  if wrong.isEmpty then .ok settings else .error wrong

end ReleasePrompts
