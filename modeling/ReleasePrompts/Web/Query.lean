import ReleasePrompts.Settings
import ReleasePrompts.Text.Percent
import ReleasePrompts.Web.Address

/-!
# Queries

The parameters of a request, and the truth values among them. Of a parameter that is given more than
once the last value counts; parameters that nobody asks for do not matter.
-/

namespace ReleasePrompts.Web

open Text

/-- A piece of a query as the text it stands for, a plus sign for a space. -/
def decodePiece (cs : List Char) : String :=
  String.ofList (percentDecode (cs.map fun c => if c = '+' then ' ' else c))

/-- The parameters of a query, in order. -/
def parameters (query : List Char) : List (String × String) :=
  (splitAt '&' query).filterMap fun piece =>
    if piece.isEmpty then none
    else
      let (name, value) := cutAt '=' piece
      some (decodePiece name, decodePiece (value.getD []))

/-- The value of a parameter. -/
def parameter? (query : List Char) (name : String) : Option String :=
  Pairs.get? (parameters query).reverse name

/-- A parameter that does not name a truth value. -/
structure NoTruthValue where
  name : String
  deriving DecidableEq, Repr

/-- The truth value of a parameter, or another one where it is not given. -/
def flagParameter (query : List Char) (name : String) (otherwise : Bool) :
    Except NoTruthValue Bool :=
  match parameter? query name with
  | none => .ok otherwise
  | some text =>
    match truthValue? text with
    | some flag => .ok flag
    | none => .error ⟨name⟩

end ReleasePrompts.Web
