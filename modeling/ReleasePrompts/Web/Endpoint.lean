import ReleasePrompts.Web.Response

/-!
# Endpoints

The paths that the service knows, and what each of them answers (`handle`). A path is compared
decoded, a line feed at its end left out. The page is shown for every path that lies neither below
the interface nor below its documentation. Only `GET` is known.
-/

namespace ReleasePrompts.Web

open Document Service Text

/-- What a path leads to. -/
inductive Endpoint where
  | health
  | info
  | versions
  | prompts (version : List Char)
  | compare
  | page (path : List Char)
  deriving DecidableEq, Repr

/-- A path without the line feed at its end. -/
def withoutFinalBreak (path : List Char) : List Char :=
  if path.getLast? = some '\n' then path.dropLast else path

/-- The version in the path of its prompts. -/
def versionIn? (path : List Char) : Option (List Char) :=
  let folder := "/api/versions/".toList
  if !folder.isPrefixOf path then none
  else
    let rest := path.drop folder.length
    let version := rest.takeWhile (· != '/')
    if !version.isEmpty && withoutFinalBreak (rest.dropWhile (· != '/')) == "/prompts".toList then
      some version
    else none

/-- What a decoded path leads to. A path with a line break leads nowhere. -/
def Endpoint.ofPath? (path : List Char) : Option Endpoint :=
  let plain := withoutFinalBreak path
  if plain == "/api/versions".toList then some .versions
  else match versionIn? path with
    | some version => some (.prompts version)
    | none =>
      if plain == "/api/compare".toList then some .compare
      else if plain == "/api/health".toList then some .health
      else if plain == "/api/info".toList then some .info
      else match plain with
        | '/' :: rest => if rest.contains '\n' then none else some (.page rest)
        | _ => none

/-- Whether a path without its first slash lies below the interface or its documentation. -/
def isReserved (path : List Char) : Bool :=
  ["api/", "docs", "redoc", "openapi"].any fun start => start.toList.isPrefixOf path

/-- How a request is met: at once, or by asking the service and showing its answer. -/
inductive Action where
  | respond (response : Response)
  | ask (request : Request) (shown : Answer → Value)

/-- The answer of a service as a document. -/
def answerDocument (config : Config) (includeText : Bool) : Answer → Value
  | .listings listings => listingsDocument config listings
  | .prompts prompts => promptsDocument includeText prompts
  | .comparison comparison => comparisonDocument comparison
  | _ => .null

/-- How a request for an endpoint is met. -/
def Endpoint.action (settings : Settings) (config : Config) (query : List Char) :
    Endpoint → Action
  | health =>
    .respond (.document 200 (.object [("status", .string "healthy"),
      ("service", .string settings.appName), ("version", .string settings.appVersion)]))
  | info => .respond (.document 200 settings.info)
  | versions =>
    match flagParameter query "refresh" false with
    | .ok refresh => .ask (.listVersions refresh) (answerDocument config true)
    | .error fault => .respond (invalidFlag fault)
  | prompts version =>
    match flagParameter query "include_text" true with
    | .ok includeText =>
      .ask (.loadVersion (String.ofList version)) (answerDocument config includeText)
    | .error fault => .respond (invalidFlag fault)
  | compare =>
    .ask (.compare (parameter? query "base") (parameter? query "compare")
      ((parameter? query "tab").getD settings.defaultTab)) (answerDocument config true)
  | page path =>
    if isReserved path then .respond (detail 404 "Not found")
    else if path.contains '\x00' then .respond (invalidValue "embedded null byte")
    else .respond .page

/-- How a request is met. -/
def handle (settings : Settings) (config : Config) (method : String) (address : List Char) :
    Action :=
  let target := (Address.ofText address).target
  match Endpoint.ofPath? target.decodedPath with
  | none => .respond (detail 404 "Not Found")
  | some endpoint =>
    if method = "GET" then endpoint.action settings config (target.query.getD [])
    else .respond (detail 405 "Method Not Allowed")

/-- The response to what a service answers. -/
def respondTo (settings : Settings) (shown : Answer → Value) (outcome : Except Problem Answer) :
    Response :=
  match outcome with
  | .ok answer => .document 200 (shown answer)
  | .error problem => problemResponse settings.debug problem

end ReleasePrompts.Web
