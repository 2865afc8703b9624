import ReleasePrompts.Archive.Gzip
import ReleasePrompts.Cache.Store
import ReleasePrompts.Prompt.Extraction
import ReleasePrompts.Registry.Site

/-!
# Loading a version

To load a version is to find its tarball in the metadata, to download it, to find the file in it
that holds the program, and to extract the prompts of that. A `Load` stands before one of these four
steps or has ended. `advance` takes a step of one load, `round` a step of each, in the order in
which they began, and `settle` lets all of them come as far as they can: a load whose archive is
scanned without end stays where it is. A load that ends well puts its prompts into the cache.
-/

namespace ReleasePrompts.Service

open Document Registry Prompt Web

/-- What a service is set up with. -/
structure Config where
  client : Client
  /-- The most bytes of an archive. -/
  archiveLimit : Option Int := none
  /-- The files that may hold the program. -/
  programFiles : List String
  markers : Markers := defaultMarkers

/-- What a service works with that is none of its own: the registry with all that lies on the way to
it, which replies to requests, and a reader of sources. -/
structure World where
  reply : Target → Reply
  reader : Script.Reader := Script.parse?

/-- A registry in memory replies to requests. -/
instance : Coe Site World where
  coe site := { reply := site.reply }

/-- Where a load stands. A load that failed remembers how many steps it had taken. -/
inductive Stage where
  | begun
  | located (tarball : Value)
  | downloaded (data : Bytes)
  | unpacked (path : String) (source : List Char)
  | finished (prompts : PromptSet)
  | failed (steps : Nat) (problem : Problem)

/-- Whether a load has ended. -/
def Stage.hasEnded : Stage → Bool
  | .finished _ | .failed .. => true
  | _ => false

/-- The load of a version. -/
structure Load where
  version : String
  stage : Stage := .begun

/-- A service at work: the metadata and the prompts that it keeps, the loads that are under way, and
all targets that it has asked for so far. -/
structure State where
  metadata : Option Metadata := none
  results : Cache.Store String PromptSet
  loads : List Load := []
  sent : List Target := []

/-- What a service has asked a site for. -/
def State.visits (state : State) : List Visit := state.sent.map visitOf

/-- The metadata, from the registry if it is not kept yet or if it shall be refreshed. A failure
leaves what is kept as it is. -/
def State.getMetadata (state : State) (config : Config) (world : World) (refresh : Bool) :
    Except Failure Metadata × State :=
  match if refresh then none else state.metadata with
  | some metadata => (.ok metadata, state)
  | none =>
    let asked := config.client.fetchMetadata world.reply
    let state := { state with sent := state.sent ++ asked.sent }
    match asked.outcome with
    | .ok metadata => (.ok metadata, { state with metadata := some metadata })
    | .error failure => (.error failure, state)

/-- The tarball of a version. -/
def tarballOf (metadata : Metadata) (version : String) : Except Failure Value :=
  match metadata.tarball? version with
  | some tarball => .ok tarball
  | none => .error (.unknownVersion version)

/-- The failure of a tarball that cannot be decompressed. -/
def gzipFailure (fault : Archive.GzipFault) : Failure :=
  match fault with
  | .tooLarge limit => .archiveTooLarge fault.message [("limit", .int limit)]
  | _ => .archiveInvalid fault.message []

/-- What comes of looking for the file of a tarball that holds the program: its path and its text, or
nothing if the scan of the archive never ends. -/
def programOf? (config : Config) (version : String) (data : Bytes) :
    Option (Except Problem (String × List Char)) :=
  match Archive.decompress data config.archiveLimit with
  | .error fault => some (.error (.failure (gzipFailure fault)))
  | .ok archive =>
    (Archive.unpack? archive).map fun entries =>
      match Archive.findEntry? entries config.programFiles with
      | none => .error (.failure (.noProgramFile version))
      | some entry => .ok (entry.path, entry.text.toList)

/-- One step of a load. -/
def advance (config : Config) (world : World) (load : Load) (state : State) : Stage × State :=
  match load.stage with
  | .begun =>
    let (metadata, state) := state.getMetadata config world false
    match metadata.bind (tarballOf · load.version) with
    | .ok tarball => (.located tarball, state)
    | .error failure => (.failed 0 (.failure failure), state)
  | .located tarball =>
    let asked := config.client.download world.reply load.version tarball
    let state := { state with sent := state.sent ++ asked.sent }
    match asked.outcome with
    | .ok data => (.downloaded data, state)
    | .error problem => (.failed 1 problem, state)
  | .downloaded data =>
    match programOf? config load.version data with
    | some (.ok (path, source)) => (.unpacked path source, state)
    | some (.error problem) => (.failed 2 problem, state)
    | none => (.downloaded data, state)
  | .unpacked path source =>
    match extractSet? source load.version path config.markers world.reader with
    | some prompts =>
      (.finished prompts, { state with results := state.results.set load.version prompts })
    | none => (.failed 3 (.failure (.noSystemPrompt load.version path)), state)
  | stage => (stage, state)

/-- A step of each of some loads, and the state behind them. -/
def advanceEach (config : Config) (world : World) (state : State) : List Load → List Load × State
  | [] => ([], state)
  | load :: loads =>
    let (stage, state) := advance config world load state
    let (loads, state) := advanceEach config world state loads
    ({ load with stage } :: loads, state)

/-- A step of each load. -/
def round (config : Config) (world : World) (state : State) : State :=
  let (loads, state) := advanceEach config world state state.loads
  { state with loads }

/-- Lets all loads come as far as they can: none of them takes more than four steps. -/
def settle (config : Config) (world : World) (state : State) : State :=
  (List.range 4).foldl (fun state _ => round config world state) state

/-- What one who asks for the prompts of a version gets: the prompts that are kept, or the load to
wait for. -/
inductive Ticket where
  | ready (prompts : PromptSet)
  | waiting (version : String)

/-- Asks for the prompts of a version: joins the load that is under way, or begins one. -/
def State.join (state : State) (version : String) : Ticket × State :=
  match state.results.get version with
  | (some prompts, results) => (.ready prompts, { state with results })
  | (none, results) =>
    let state := { state with results }
    if state.loads.any fun load => load.version == version then (.waiting version, state)
    else (.waiting version, { state with loads := state.loads ++ [⟨version, .begun⟩] })

/-- What a load has come to: the prompts, or the number of steps it took before it failed. One that
goes on without end comes behind all that fail. -/
def Stage.found : Stage → Except (Nat × Problem) PromptSet
  | .finished prompts => .ok prompts
  | .failed steps problem => .error (steps, problem)
  | _ => .error (4, .unanswered)

/-- What the load of a version has come to, with its place among the loads if it failed. -/
def endOf (version : String) (place : Nat) : List Load → Except ((Nat × Nat) × Problem) PromptSet
  | [] => .error ((0, place), .failure (.unknownVersion version))
  | load :: loads =>
    if load.version = version then
      load.stage.found.mapError fun (steps, problem) => ((steps, place), problem)
    else endOf version (place + 1) loads

/-- What a ticket gives once all loads have come as far as they can. -/
def State.redeem (state : State) : Ticket → Except ((Nat × Nat) × Problem) PromptSet
  | .ready prompts => .ok prompts
  | .waiting version => endOf version 0 state.loads

/-- Forgets the loads that have ended. -/
def State.forget (state : State) : State :=
  { state with loads := state.loads.filter fun load => !load.stage.hasEnded }

end ReleasePrompts.Service
