import ReleasePrompts.Service.Comparison
import ReleasePrompts.Service.Load

/-!
# Requests

A service answers requests, several at a time (`serve`). All of them begin, in order; those that
need the prompts of versions then share the loads that are under way, which all come as far as they
can before any of these requests is answered. Of the failures of the two sides of a comparison the
one counts that came first: after fewer steps, or in the load that began earlier. A request that
waits for a load which never ends has no answer.
-/

namespace ReleasePrompts.Service

open Document Registry Prompt

/-- What a service can be asked. -/
inductive Request where
  | listVersions (refresh : Bool)
  | defaultPair
  | loadVersion (version : String)
  | compare (base compared : Option String) (tab : String)
  | isKept (version : String)
  | download (version : String) (address : Option String)
  | close

/-- What a service answers. -/
inductive Answer where
  | listings (listings : List Listing)
  | pair (second latest : String)
  | prompts (prompts : PromptSet)
  | comparison (comparison : Comparison)
  | kept (isKept : Bool)
  | bytes (bytes : Bytes)
  | closed

/-- The problem of versions that cannot be listed. -/
def listingProblem : ListingFault → Problem
  | .excessDigits count => .excessDigits count
  | .outOfCalendar => .outOfCalendar

/-- The published versions. -/
def State.listings (state : State) (config : Config) (world : World) (refresh : Bool) :
    Except Problem (List Listing) × State :=
  let (metadata, state) := state.getMetadata config world refresh
  (match metadata with
    | .error failure => .error (.failure failure)
    | .ok metadata => metadata.releases.mapError listingProblem, state)

/-- The two latest versions. -/
def State.latestPair (state : State) (config : Config) (world : World) :
    Except Problem (String × String) × State :=
  let (listings, state) := state.listings config world false
  (match listings with
    | .error problem => .error problem
    | .ok listings =>
      match lastTwo? listings with
      | some pair => .ok pair
      | none => .error (.failure .tooFewVersions), state)

/-- The tarball of a version, without cache and without extraction. -/
def State.fetchTarball (state : State) (config : Config) (world : World) (version : String)
    (address : Option String) : Except Problem Bytes × State :=
  let (named, state) : Except Problem Value × State := match address with
    | some address => (.ok (.string address), state)
    | none =>
      let (metadata, state) := state.getMetadata config world false
      ((metadata.bind (tarballOf · version)).mapError .failure, state)
  match named with
  | .error problem => (.error problem, state)
  | .ok named =>
    let asked := config.client.download world.reply version named
    (asked.outcome, { state with sent := state.sent ++ asked.sent })

/-- The versions to compare: where one is not given, the latest two stand for those that are not
given or empty. -/
def State.versionsToCompare (state : State) (config : Config) (world : World) :
    Option String → Option String → Except Problem (String × String) × State
  | some base, some compared => (.ok (base, compared), state)
  | base, compared =>
    let or (given : Option String) (other : String) : String :=
      match given with
      | some version => if version.isEmpty then other else version
      | none => other
    let (pair, state) := state.latestPair config world
    (pair.map fun (second, latest) => (or base second, or compared latest), state)

/-- The prompt to compare, if there is such a tab, the versions differ and both are published. -/
def State.checkComparison (state : State) (config : Config) (world : World)
    (base compared tab : String) : Except Failure Name × State :=
  match tabOf tab with
  | .error failure => (.error failure, state)
  | .ok name =>
    if base = compared then (.error .sameVersion, state)
    else
      let (metadata, state) := state.getMetadata config world false
      (do
        let metadata ← metadata
        discard (tarballOf metadata base)
        discard (tarballOf metadata compared)
        return name, state)

/-- A request that has begun. -/
inductive Pending where
  /-- It is answered. -/
  | answered (outcome : Except Problem Answer)
  /-- It waits for the prompts of a version. -/
  | loading (ticket : Ticket)
  /-- It is going to ask for the prompts of two versions. -/
  | checked (base compared : String) (tab : Name)
  /-- It waits for the prompts of two versions. -/
  | comparing (base compared : String) (tab : Name) (left right : Ticket)

/-- Begins a request. -/
def begin (config : Config) (world : World) (state : State) : Request → Pending × State
  | .listVersions refresh =>
    let (listings, state) := state.listings config world refresh
    (.answered (listings.map .listings), state)
  | .defaultPair =>
    let (pair, state) := state.latestPair config world
    (.answered (pair.map fun (second, latest) => .pair second latest), state)
  | .loadVersion version =>
    let (ticket, state) := state.join version
    (.loading ticket, state)
  | .compare base compared tab =>
    let (versions, state) := state.versionsToCompare config world base compared
    match versions with
    | .error problem => (.answered (.error problem), state)
    | .ok (base, compared) =>
      let (name, state) := state.checkComparison config world base compared tab
      match name with
      | .ok name => (.checked base compared name, state)
      | .error failure => (.answered (.error (.failure failure)), state)
  | .isKept version =>
    let (found, results) := state.results.get version
    (.answered (.ok (.kept found.isSome)), { state with results })
  | .download version address =>
    let (bytes, state) := state.fetchTarball config world version address
    (.answered (bytes.map .bytes), state)
  | .close => (.answered (.ok .closed), state)

/-- Asks for the prompts of the versions that a comparison needs. -/
def joinBoth (state : State) : Pending → Pending × State
  | .checked base compared tab =>
    let (left, state) := state.join base
    let (right, state) := state.join compared
    (.comparing base compared tab left right, state)
  | pending => (pending, state)

/-- The problem that came first. -/
def firstProblem (a b : (Nat × Nat) × Problem) : Problem :=
  if b.1.1 < a.1.1 ∨ (b.1.1 = a.1.1 ∧ b.1.2 < a.1.2) then b.2 else a.2

/-- Answers a request once all loads have come as far as they can. -/
def answer (config : Config) (state : State) : Pending → Except Problem Answer
  | .answered outcome => outcome
  | .loading ticket => ((state.redeem ticket).mapError Prod.snd).map .prompts
  | .checked base _ _ => .error (.failure (.unknownVersion base))
  | .comparing base compared tab left right =>
    match state.redeem left, state.redeem right with
    | .ok left, .ok right =>
      ((compareSets config.markers base compared tab left right).mapError .failure).map .comparison
    | .error a, .error b => .error (firstProblem a b)
    | .error a, .ok _ => .error a.2
    | .ok _, .error b => .error b.2

/-- Does something to each of some values, with a state that goes from one to the next. -/
def eachWith {σ α β : Type} (act : σ → α → β × σ) (state : σ) : List α → List β × σ
  | [] => ([], state)
  | value :: values =>
    let (result, state) := act state value
    let (results, state) := eachWith act state values
    (result :: results, state)

/-- Answers requests that come at the same time. -/
def serve (config : Config) (world : World) (state : State) (requests : List Request) :
    List (Except Problem Answer) × State :=
  let (begun, state) := eachWith (begin config world) state requests
  let (pending, state) := eachWith joinBoth state begun
  let state := settle config world state
  (pending.map (answer config state), state.forget)

/-- Answers a request. -/
def serveOne (config : Config) (world : World) (state : State) (request : Request) :
    Except Problem Answer × State :=
  let (begun, state) := begin config world state request
  let (pending, state) := joinBoth state begun
  let state := settle config world state
  (answer config state pending, state.forget)

end ReleasePrompts.Service
