import KeywordEngine.Log.File
import KeywordEngine.Text.Decimal

/-!
# The logger

Logging starts with the first request that names a known level and an absolute directory, and stays
as it started: a later request for the same level and directory is granted and does nothing, any
other is refused. Directories are compared as paths (`pathComponents`).

A panic leaves one line in the log, with the place where it was raised and its payload, which is put
on one line and cut to `payloadLimit` characters.
-/

namespace KeywordEngine.Log

/-- Why logging is not started. -/
inductive LoggingError where
  | unknownLevel (name : String)
  | emptyDirectory
  | relativeDirectory (path : String)
  /-- Logging already goes to another directory. -/
  | otherDirectory (active requested : String)
  /-- Logging already runs at another level. -/
  | otherLevel (active requested : Level)
  deriving DecidableEq, Repr

/-- The error as shown to the user. -/
def LoggingError.message : LoggingError → String
  | unknownLevel name =>
    "unsupported log level `" ++ name ++ "`; expected trace|debug|info|warn|error"
  | emptyDirectory => "log directory cannot be empty"
  | relativeDirectory path => "log directory must be absolute, got `" ++ path ++ "`"
  | otherDirectory active requested =>
    "logging already writes to `" ++ active ++ "`; refusing to switch to `" ++ requested ++ "`"
  | otherLevel active requested =>
    "logging already runs at level `" ++ active.text ++ "`; refusing to switch to `" ++
      requested.text ++ "`"

/-- Where an active logger writes and what it takes. -/
structure Settings where
  level : Level
  directory : String
  deriving DecidableEq, Repr

/-- A logger with the log that it writes. -/
structure Logger where
  /-- None until logging starts. -/
  active : Option Settings
  log : RollingFile
  deriving DecidableEq, Repr

/-- What the program learns of a panic. -/
structure Panic where
  /-- The source file and the line, if they are known. -/
  location : Option (String × Nat)
  /-- The payload, if it is a text. -/
  payload : Option String
  deriving DecidableEq, Repr

/-! ## Settings -/

/-- Reads the name of a level, without regard to case and to blanks around it. -/
def readLevel (name : String) : Except LoggingError Level :=
  let name := Text.fold (Text.trim name)
  match Level.ofName? name with
  | some level => .ok level
  | none => .error (.unknownLevel name)

/-- Reads an absolute directory; blanks around it are dropped. -/
def readDirectory (path : String) : Except LoggingError String :=
  let path := Text.trim path
  match path.toList with
  | [] => .error .emptyDirectory
  | '/' :: _ => .ok path
  | _ => .error (.relativeDirectory path)

/-- Reads a level and then a directory. -/
def readSettings (level directory : String) : Except LoggingError Settings := do
  let level ← readLevel level
  let directory ← readDirectory directory
  return ⟨level, directory⟩

/-- The names that lead from the root to a directory. Repeated and final slashes and single dots do
not count. -/
def pathComponents (path : String) : List String :=
  ((path.toList.splitOn '/').map String.ofList).filter fun part => part != "" && part != "."

/-! ## Requests -/

namespace Logger

/-- Logging has not started. -/
def idle : Logger := ⟨none, .empty⟩

/-- The logger after an event: it writes the event if it is active and its level admits it. -/
def record (l : Logger) (heading : String) (e : Event) : Logger :=
  if l.active.any (·.level.admits e.level) then { l with log := l.log.write ⟨heading, e⟩ } else l

/-- The event of starting. -/
def startEvent (version : String) (level : Level) : Event :=
  ⟨.info, "engine_start", "logging", "ok",
    [("platform", "linux"), ("level", level.text), ("version", version)]⟩

/-- Why settings differ from the active ones: first by directory, then by level. -/
def refusal? (active requested : Settings) : Option LoggingError :=
  if pathComponents active.directory ≠ pathComponents requested.directory then
    some (.otherDirectory active.directory requested.directory)
  else if active.level ≠ requested.level then some (.otherLevel active.level requested.level)
  else none

/-- Asks for logging at a level into a directory. The log starts with a line under `heading`. -/
def start (l : Logger) (heading version level directory : String) :
    Logger × Except LoggingError Unit :=
  match readSettings level directory with
  | .error e => (l, .error e)
  | .ok requested =>
    match l.active with
    | none =>
      (Logger.record { l with active := some requested } heading
        (startEvent version requested.level), .ok ())
    | some active =>
      match refusal? active requested with
      | some e => (l, .error e)
      | none => (l, .ok ())

/-- The number of characters that a payload is cut to. -/
def payloadLimit : Nat := 200

/-- A payload on one line: line breaks become blanks, and what is too long is cut and marked. -/
def flatten (payload : String) : String :=
  let line := payload.toList.map fun c => if c = '\n' ∨ c = '\r' then ' ' else c
  String.ofList (line.take payloadLimit) ++ if line.length > payloadLimit then "..." else ""

/-- The place of a panic as it stands in the log. -/
def place (location : Option (String × Nat)) : String :=
  match location with
  | some (file, line) => file ++ ":" ++ Text.ofNat line
  | none => "unknown"

/-- The event of a panic. -/
def panicEvent (p : Panic) : Event :=
  ⟨.error, "panic_captured", "logging", "error",
    [("location", place p.location),
      ("payload", flatten (p.payload.getD "non-string panic payload"))]⟩

/-- The logger after a panic, which is written under `heading`. -/
def panicked (l : Logger) (heading : String) (p : Panic) : Logger :=
  l.record heading (panicEvent p)

end Logger

end KeywordEngine.Log
