import ReleasePrompts.Archive.Pack
import ReleasePrompts.Document.Writer
import ReleasePrompts.Registry.Client

/-!
# A registry in memory

A `Site` is one of the registries that a client may have to do with: it answers requests for the
metadata of one package and for its tarballs, whatever host they name. It can be told to fail: to
break the connection, to redirect, or to answer with a status or a text of its own. How it reacts to
a request depends on the site alone, and its redirections are followed.
-/

namespace ReleasePrompts.Registry

open Document Text Web

/-- How a site fails. -/
structure Misbehaviour where
  status : Option Int := none
  body : Option String := none
  error : Option String := none
  location : Option String := none

/-- What a registry holds of a package, and how it fails. -/
structure Site where
  package : String
  tarballs : List (String × Bytes) := []
  times : List (String × String) := []
  metadataFault : Misbehaviour := {}
  tarballFaults : List (String × Misbehaviour) := []

/-- How a site reacts to a request: not at all, for a reason, or with a response. -/
inductive Reaction where
  | broken (reason : String)
  | response (status : Int) (location : Option String) (body : Bytes)

/-- The most redirections that are followed. -/
def redirectLimit : Nat := 20

/-- Whether a status says that the answer is elsewhere. -/
def isRedirection (status : Int) : Bool :=
  status == 301 || status == 302 || status == 303 || status == 307 || status == 308

/-- What a request asks a site for: the metadata, by some path, or the tarball of a version. -/
inductive Visit where
  | metadata (target : List Char)
  | tarball (version : String)
  deriving DecidableEq, Repr

/-- The path below which the tarballs are. -/
def tarballFolder : List Char := "/tarballs/".toList

/-- The address of the registry. -/
def siteAddress : String := "https://registry.test"

/-- The address of the tarball of a version. -/
def tarballAddress (version : String) : String := s!"{siteAddress}/tarballs/{version}.tgz"

/-- What a target asks a site for. A tarball is named by what the path has between its folder and
its last four characters. -/
def visitOf (target : Target) : Visit :=
  let path := target.decodedPath
  if tarballFolder.isPrefixOf path then
    let name := path.drop tarballFolder.length
    .tarball (String.ofList (name.take (name.length - 4)))
  else .metadata target.text

namespace Site

/-- Publishes a version: a version that is there keeps its place. Without time, an earlier one
stays. -/
def publish (site : Site) (version : String) (tarball : Bytes) (time : Option String) : Site :=
  { site with
    tarballs := Pairs.put site.tarballs version tarball
    times := match time with
      | none => site.times
      | some time => Pairs.put site.times version time }

/-- Takes a version back. -/
def unpublish (site : Site) (version : String) : Site :=
  { site with tarballs := Pairs.erase site.tarballs version }

/-- How the site fails for the tarball of a version. -/
def tarballFault (site : Site) (version : String) : Misbehaviour :=
  (Pairs.get? site.tarballFaults version).getD {}

/-- The document of the package. -/
def document (site : Site) : Value :=
  let versions := site.tarballs.map fun (version, _) =>
    (version, Value.object [("version", .string version),
      ("dist", .object [("tarball", .string (tarballAddress version))])])
  let times := site.tarballs.filterMap fun (version, _) =>
    (Pairs.get? site.times version).map fun time => (version, Value.string time)
  .object [("name", .string site.package), ("versions", .object versions),
    ("time", .object (Pairs.putAll [("created", .string "2024-12-31T00:00:00.000Z")] times))]

/-- The body of the metadata. -/
def metadataBody (site : Site) : Bytes :=
  match site.metadataFault.body with
  | some body => body.toUTF8.data
  | none => encode (site.document.write .compact)

/-- How the site reacts to a request. -/
def react (site : Site) (target : Target) : Reaction :=
  match visitOf target with
  | .tarball version =>
    let fault := site.tarballFault version
    match fault.error, fault.location, Pairs.get? site.tarballs version with
    | some reason, _, _ => .broken reason
    | _, some location, _ => .response (fault.status.getD 200) (some location) #[]
    | _, _, none => .response 404 none #[]
    | _, _, some tarball => .response (fault.status.getD 200) none tarball
  | .metadata _ =>
    let moved := target.decodedPath == "/moved".toList
    let fault := site.metadataFault
    match fault.error, fault.location with
    | some reason, _ => .broken reason
    | none, some location =>
      if moved then .response 200 none site.metadataBody
      else .response (fault.status.getD 200) (some location) #[]
    | none, none => .response (if moved then 200 else fault.status.getD 200) none site.metadataBody

/-- What comes of a request if at most so many redirections are followed. -/
def follow (site : Site) : (redirections : Nat) → Target → Reply
  | redirections, target =>
    match site.react target with
    | .broken reason => ⟨[target], .error reason⟩
    | .response status none body => ⟨[target], .ok ⟨status, body⟩⟩
    | .response status (some location) body =>
      if !isRedirection status then ⟨[target], .ok ⟨status, body⟩⟩
      else match addressFault? location.toList with
        | some fault => ⟨[target], .error s!"Invalid URL in location header: {fault}."⟩
        | none =>
          match redirections with
          | 0 => ⟨[target], .error "Exceeded maximum allowed redirects."⟩
          | redirections + 1 =>
            let next := (Address.ofText location.toList).redirect target
            let others := site.follow redirections next
            ⟨target :: others.sent, others.outcome⟩

/-- What comes of a request. -/
def reply (site : Site) (target : Target) : Reply := site.follow redirectLimit target

end Site

end ReleasePrompts.Registry
