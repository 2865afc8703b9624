import ReleasePrompts.Text.Percent
import ReleasePrompts.Text.Quoted
import ReleasePrompts.Text.Search

/-!
# Addresses

An address consists of a scheme, a host, a path and a query, of which any may be missing. What is
asked for is a `Target`, a path with a query of some host: that of an address which names one, and
for any other address its path below the root of the host that is asked anyway. A redirection names
an address as seen from the target that was asked for.
-/

namespace ReleasePrompts.Web

open Text

/-- The parts of an address. -/
structure Address where
  scheme : Option (List Char)
  host : Option (List Char)
  path : List Char
  query : Option (List Char)
  deriving DecidableEq, Repr

/-- What comes before a character, and what comes behind it if it occurs. -/
def cutAt (mark : Char) (cs : List Char) : List Char × Option (List Char) :=
  match cs.dropWhile (· != mark) with
  | [] => (cs, none)
  | _ :: rest => (cs.takeWhile (· != mark), some rest)

/-- Whether a text is the name of a scheme. -/
def isScheme : List Char → Bool
  | [] => false
  | c :: cs => c.isAlpha && cs.all fun d => d.isAlphanum || d == '+' || d == '.' || d == '-'

/-- The scheme that an address begins with, and the rest of it. -/
def splitScheme (cs : List Char) : Option (List Char) × List Char :=
  match cutAt ':' cs with
  | (scheme, some rest) => if isScheme scheme then (some scheme, rest) else (none, cs)
  | (_, none) => (none, cs)

/-- The host that follows two slashes, and the rest of the address. -/
def splitHost : List Char → Option (List Char) × List Char
  | '/' :: '/' :: rest => (some (rest.takeWhile (· != '/')), rest.dropWhile (· != '/'))
  | cs => (none, cs)

/-- The parts of the text of an address; what follows a number sign is no part. -/
def Address.ofText (cs : List Char) : Address :=
  let (front, query) := cutAt '?' (cutAt '#' cs).1
  let (scheme, rest) := splitScheme front
  let (host, path) := splitHost rest
  ⟨scheme, host, path, query⟩

/-- A path without the segments that stand for itself or for the segment above. -/
def withoutDots (path : List Char) : List Char :=
  let keep (kept : List (List Char)) (segment : List Char) : List (List Char) :=
    if segment = ['.'] then kept
    else if segment = ['.', '.'] then
      if kept = [] ∨ kept = [[]] then kept else kept.dropLast
    else kept ++ [segment]
  joinWith ['/'] ((splitAt '/' path).foldl keep [])

/-- What a host is asked for, with the characters encoded that may not stand in it. A target that
names no scheme or no host is one of the host that is asked anyway. -/
structure Target where
  scheme : Option (List Char)
  host : Option (List Char)
  path : List Char
  query : Option (List Char)
  deriving DecidableEq, Repr

/-- Whether a character may stand in a query. -/
def isQueryChar (c : Char) : Bool :=
  32 < c.toNat && c.toNat < 127 && c != '"' && c != '#' && c != '<' && c != '>'

/-- Whether a character may stand in a path. -/
def isPathChar (c : Char) : Bool :=
  isQueryChar c && c != '?' && c != Char.ofNat 96 && c != '\x7b' && c != '\x7d'

/-- The target of a path and a query at a host. -/
def Target.of (scheme host : Option (List Char)) (path : List Char) (query : Option (List Char)) :
    Target :=
  let path := percentEncode isPathChar (withoutDots path)
  ⟨scheme, host, if path.isEmpty then ['/'] else path, query.map (percentEncode isQueryChar)⟩

/-- The target as it is sent to its host. -/
def Target.text (target : Target) : List Char :=
  match target.query with
  | none => target.path
  | some query => target.path ++ '?' :: query

/-- The path that the target stands for. -/
def Target.decodedPath (target : Target) : List Char := percentDecode target.path

/-- Whether an address names a scheme and a host. -/
def Address.isAbsolute (address : Address) : Bool :=
  address.scheme.isSome && !(address.host.getD []).isEmpty

/-- The target of an address, as seen from the root of the host that is asked anyway. -/
def Address.target (address : Address) : Target :=
  if address.isAbsolute then Target.of address.scheme address.host address.path address.query
  else Target.of none none ('/' :: address.path.dropWhile (· == '/')) address.query

/-- The target of an address that an answer to a request for `asked` redirects to. What the address
does not name is that of the request. -/
def Address.redirect (asked : Target) (address : Address) : Target :=
  let scheme := address.scheme <|> asked.scheme
  let host := address.host.filter (!·.isEmpty) <|> asked.host
  if address.scheme.isSome || address.host.isSome || address.path.head? == some '/' then
    Target.of scheme host address.path address.query
  else if address.path.isEmpty then
    ⟨scheme, host, asked.path, (address.query.map (percentEncode isQueryChar)) <|> asked.query⟩
  else
    let folder := (asked.path.reverse.dropWhile (· != '/')).reverse
    Target.of scheme host (folder ++ address.path) address.query

/-- What is wrong with the text of an address: the first control character in it, and its place. -/
def addressFault? (cs : List Char) : Option String :=
  (cs.findIdx? fun c => c.toNat < 32 || c.toNat == 127).map fun place =>
    let shown := String.ofList (quoted ((cs.drop place).take 1))
    s!"Invalid non-printable ASCII character in URL, {shown} at position {place}."

end ReleasePrompts.Web
