import ReleasePrompts.Document.Reader
import ReleasePrompts.Failure
import ReleasePrompts.Registry.Download
import ReleasePrompts.Registry.Metadata
import ReleasePrompts.Web.Address

/-!
# Asking a registry

A client asks for the metadata of a package and for tarballs. What it is told is not its own doing:
any function from targets to replies may be the registry, with all that lies on the way to it. Every
function of the client says which targets were asked for, in order, next to what came of it.
-/

namespace ReleasePrompts.Registry

open Document Text Web

/-- What was asked for, and what came of it. -/
structure Asked (α : Type) where
  sent : List Target
  outcome : α

/-- Whether a status says that a request was met. -/
def isSuccess (status : Int) : Bool := 200 ≤ status && status < 300

/-- A response after all redirections. -/
structure Response where
  status : Int
  body : Bytes

/-- What comes of a request for a target, and the targets that it was sent to: the first, and those
it was redirected to. The error is the reason for which there is no response. -/
abbrev Reply := Asked (Except String Response)

/-- A client of a registry. -/
structure Client where
  package : String
  /-- The most bytes of a tarball. -/
  downloadLimit : Option Int := none

/-- The address of a registry without the slashes at its end. -/
def withoutFinalSlashes (cs : List Char) : List Char := (cs.reverse.dropWhile (· == '/')).reverse

/-- The path of the metadata of a package: the at sign of a scope stays, its slash is encoded. -/
def metadataPath (package : String) : List Char :=
  '/' :: percentEncode (fun c => isUnreserved c || c == '@') package.toList

/-- The failure of metadata without versions. -/
def noVersions (package : String) : Failure :=
  .metadataUnavailable s!"Package metadata for {package} has no 'versions' mapping" none

/-- The metadata that the body of a response holds. -/
def readMetadata (package : String) (body : Bytes) : Except Failure Metadata :=
  let text := decodeLossy body.toList
  let text := if text.head? == some '\uFEFF' then text.drop 1 else text
  match Value.read text with
  | .error fault =>
    .error (.metadataUnavailable s!"Package metadata is not valid JSON: {fault.message text}" none)
  | .ok document =>
    match Metadata.ofDocument? document package with
    | some metadata => .ok metadata
    | none => .error (noVersions package)

namespace Client

/-- Asks for the metadata of the package. -/
def fetchMetadata (client : Client) (reply : Target → Reply) : Asked (Except Failure Metadata) :=
  let asked := reply (Target.of none none (metadataPath client.package) none)
  ⟨asked.sent,
    match asked.outcome with
    | .error reason =>
      .error (.metadataUnavailable s!"Failed to get package metadata: {reason}" none)
    | .ok response =>
      if isSuccess response.status then readMetadata client.package response.body
      else
        .error (.metadataUnavailable s!"Failed to get package metadata: {response.status}"
          (some response.status))⟩

/-- What comes of the download of a tarball, given the status of the response and the chunks in which
its body arrives. -/
def tarballFrom (client : Client) (version : String) (status : Int) (chunks : List Bytes) :
    Except Failure Bytes :=
  if !isSuccess status then
    .error (.tarballUnavailable version s!"Failed to download tarball for {version}: {status}"
      (some status))
  else match collect client.downloadLimit chunks with
    | .whole body => .ok body
    | .stopped .. =>
      let limit := client.downloadLimit.getD 0
      .error (.archiveTooLarge s!"Tarball for {version} exceeds {limit} bytes"
        [("version", .string version), ("limit", .int limit)])

/-- The chunks in which a body arrives. -/
def chunksOf (body : Bytes) : List Bytes := if body.isEmpty then [] else [body]

/-- What comes of the download of a tarball, given the response to the request for it. -/
def tarballOf (client : Client) (version : String) (response : Response) : Except Failure Bytes :=
  client.tarballFrom version response.status (chunksOf response.body)

/-- Downloads the tarball of a version from what the metadata names. -/
def download (client : Client) (reply : Target → Reply) (version : String) (named : Value) :
    Asked (Except Problem Bytes) :=
  match named with
  | .string address =>
    match addressFault? address.toList with
    | some fault => ⟨[], .error (.malformedAddress fault)⟩
    | none =>
      let asked := reply (Address.ofText address.toList).target
      ⟨asked.sent,
        match asked.outcome with
        | .error reason =>
          .error (.failure (.tarballUnavailable version
            s!"Failed to download tarball for {version}: {reason}" none))
        | .ok response => (client.tarballOf version response).mapError .failure⟩
  | other => ⟨[], .error (.notAnAddress other)⟩

end Client

end ReleasePrompts.Registry
