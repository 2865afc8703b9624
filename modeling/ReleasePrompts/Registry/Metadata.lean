import ReleasePrompts.Document.Value
import ReleasePrompts.Release.Sorting
import ReleasePrompts.Release.Timestamp
import ReleasePrompts.Release.Version

/-!
# Package metadata

A registry describes a package by one document. Of it count the versions that name a tarball, and
the times at which they were published. `Metadata.releases` lists the versions in order, with their
dates.
-/

namespace ReleasePrompts.Registry

open Document Release

/-- What counts of the document of a package. A tarball is any value that is neither null, false,
zero nor empty. -/
structure Metadata where
  name : Value
  tarballs : List (String × Value)
  times : List (String × String)

/-- The tarball that the description of a version names. -/
def tarballOf? (manifest : Value) : Option Value := do
  let tarball ← (← manifest.member? "dist").member? "tarball"
  if tarball.isTruthy then some tarball else none

/-- What counts of a document; there is nothing in one without an object of versions. -/
def Metadata.ofDocument? (document : Value) (package : String) : Option Metadata := do
  let versions ← (← document.member? "versions").members?
  let times := ((document.member? "time").bind Value.members?).getD []
  return {
    name := (document.member? "name").getD (.string package)
    tarballs := versions.filterMap fun (version, manifest) =>
      (tarballOf? manifest).map (version, ·)
    times := times.filterMap fun (key, time) => time.string?.map (key, ·) }

/-- The tarball of a version. -/
def Metadata.tarball? (metadata : Metadata) (version : String) : Option Value :=
  Pairs.get? metadata.tarballs version

/-- Whether a version is published. -/
def Metadata.has (metadata : Metadata) (version : String) : Bool :=
  (metadata.tarball? version).isSome

/-- A published version and the date of its publication, if that is known. -/
structure Listing where
  version : String
  date : Option String
  deriving DecidableEq, Repr

/-- Why versions cannot be listed. -/
inductive ListingFault where
  | excessDigits (count : Nat)
  | outOfCalendar
  deriving DecidableEq, Repr

/-- The version with the date of its timestamp. -/
def Metadata.listing (metadata : Metadata) (version : String) : Except ListingFault Listing :=
  match Pairs.get? metadata.times version with
  | none => .ok ⟨version, none⟩
  | some time =>
    match publishDate time with
    | .ok date => .ok ⟨version, date⟩
    | .error _ => .error .outOfCalendar

/-- Whether a version comes before another. -/
def comesBefore (a b : Listing) : Except ListingFault Bool :=
  match compareVersions a.version b.version with
  | .ok order => .ok (order == .lt)
  | .error excess => .error (.excessDigits excess.count)

/-- The versions with their dates, the oldest first. -/
def Metadata.releases (metadata : Metadata) : Except ListingFault (List Listing) := do
  sortBy comesBefore (← (Pairs.keys metadata.tarballs).mapM metadata.listing)

/-- The last two versions of a list. -/
def lastTwo? (listings : List Listing) : Option (String × String) :=
  match listings.reverse with
  | latest :: second :: _ => some (second.version, latest.version)
  | _ => none

end ReleasePrompts.Registry
