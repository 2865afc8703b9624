import ReleasePrompts.Document.Writer

/-!
# Log lines

Events are logged as documents on one line: the fields of the logger, the level, the fields of the
event, its message and the time. A field that is given twice keeps its first place and has its last
value. The names that a call uses for its own arguments cannot be names of fields.
-/

namespace ReleasePrompts.Log

open Document Number

/-- Fields of an event, in order. -/
abbrev Fields := List (String × Value)

/-- How much an event matters. -/
inductive Level where
  | debug
  | info
  | warning
  | error
  deriving DecidableEq, Repr

/-- The name of a level. -/
def Level.name : Level → String
  | debug => "DEBUG"
  | info => "INFO"
  | warning => "WARNING"
  | error => "ERROR"

/-- The value of the field that holds the level. -/
def Level.field : Level → Value
  | debug => .string "debug"
  | info => .string "info"
  | warning => .string "warning"
  | error => .string "error"

/-- The rank of a level. -/
def Level.rank : Level → Nat
  | debug => 10
  | info => 20
  | warning => 30
  | error => 40

/-- A logger: what it is called, the fields of all its events, and the rank that events need. -/
structure Logger where
  name : String
  fields : Fields := []
  threshold : Nat := 0

/-- A line of a log. -/
structure Line where
  logger : String
  level : Level
  text : String
  deriving DecidableEq, Repr

/-- A field whose name is that of an argument. -/
structure ReservedField where
  deriving DecidableEq, Repr

/-- Whether a field has one of some names. -/
def hasAny (fields : Fields) (names : List String) : Bool :=
  fields.any fun field => names.contains field.1

/-- Logs an event. There is no line if the level does not reach the threshold. -/
def Logger.log (logger : Logger) (now : Value) (level : Level) (message : String)
    (fields : Fields) : Except ReservedField (Option Line) :=
  if hasAny fields ["self", "message", "log_level", "level"] then .error {}
  else if level.rank < logger.threshold then .ok none
  else
    let members := Pairs.putAll logger.fields (("level", level.field) :: fields)
    let members := Pairs.put (Pairs.put members "message" (.string message)) "timestamp" now
    .ok (some ⟨logger.name, level, String.ofList ((Value.object members).write .log)⟩)

/-- A logger whose events have more fields. -/
def Logger.withFields (logger : Logger) (fields : Fields) : Except ReservedField Logger :=
  if hasAny fields ["self"] then .error {}
  else .ok { logger with fields := Pairs.putAll logger.fields fields }

/-- A number of milliseconds to two places; an integer stays as it is. -/
def milliseconds : Value → Value
  | .real x => .real (x.roundPlaces 2)
  | other => other

/-- Logs that an operation ended: that it failed if it was stopped by an error with a text, or else
that it was completed. -/
def Logger.logDuration (logger : Logger) (now : Value) (operation : String) (duration : Value)
    (error : Option String) (fields : Fields) : Except ReservedField (Option Line) :=
  if hasAny fields ["operation", "logger", "duration_ms"] then .error {}
  else
    let start : Fields := [("operation", .string operation), ("duration_ms", milliseconds duration)]
    let completed (_ : Unit) := logger.log now .info s!"{operation} completed" (start ++ fields)
    match error with
    | none | some "" => completed ()
    | some text =>
      if hasAny fields ["error"] then .error {}
      else logger.log now .error s!"{operation} failed" (start ++ ("error", .string text) :: fields)

/-- Logs that the prompts of a version were extracted, or that this failed. -/
def Logger.logExtraction (logger : Logger) (now version path : Value) (lengths : Fields)
    (strategies duration : Value) (error : Option String) : Except ReservedField (Option Line) :=
  let found := (lengths.filter fun length => length.2.isTruthy).length
  let fields : Fields := [("event", .string "prompt_extraction"), ("version", version),
    ("source_path", path), ("lengths", .object lengths), ("strategies", strategies),
    ("found", .int found), ("duration_ms", milliseconds duration)]
  match error with
  | none | some "" => logger.log now .info "Prompt extraction completed" fields
  | some text =>
    logger.log now .error "Prompt extraction failed" (fields ++ [("error", .string text)])

/-- Logs that two versions were compared. -/
def Logger.logComparison (logger : Logger) (now : Value) (base compared tab : String)
    (added removed duration : Value) : Except ReservedField (Option Line) :=
  logger.log now .info s!"Comparison {base} -> {compared} ({tab})"
    [("event", .string "comparison"), ("base", .string base), ("compare", .string compared),
      ("tab", .string tab), ("added", added), ("removed", removed),
      ("duration_ms", milliseconds duration)]

end ReleasePrompts.Log
