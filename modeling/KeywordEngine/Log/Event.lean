import KeywordEngine.Text.Blank
import KeywordEngine.Text.Case

/-!
# Log events

What the engine reports about its work. Operations give their events as values; whoever runs them
decides where the events go. An event has a level and reads
`event=NAME module=COMPONENT status=STATUS KEY=VALUE …`.

* `Level.admits`: a logger at a level takes the events of that level and of those above it.
-/

namespace KeywordEngine.Log

/-- The levels of events, the most talkative first. -/
inductive Level where
  | trace
  | debug
  | info
  | warn
  | error
  deriving DecidableEq, Repr, Inhabited

namespace Level

/-- The name of a level. -/
def text : Level → String
  | trace => "trace"
  | debug => "debug"
  | info => "info"
  | warn => "warn"
  | error => "error"

/-- The level as it stands in a log line. -/
def label : Level → String
  | trace => "TRACE"
  | debug => "DEBUG"
  | info => "INFO"
  | warn => "WARN"
  | error => "ERROR"

/-- What stands before an event of a level if nothing else is said of it. -/
def heading (level : Level) : String := level.label ++ " "

/-- The rank of a level. -/
def rank : Level → Nat
  | trace => 0
  | debug => 1
  | info => 2
  | warn => 3
  | error => 4

/-- Whether a logger at this level takes events of `level`. -/
def admits (logger level : Level) : Bool := logger.rank ≤ level.rank

/-- The level of a trimmed name in small letters. -/
def ofName? : String → Option Level
  | "trace" => some trace
  | "debug" => some debug
  | "info" => some info
  | "warn" | "warning" => some warn
  | "error" => some error
  | _ => none

end Level

/-- One event. -/
structure Event where
  level : Level
  name : String
  /-- The part of the engine that reports. -/
  component : String
  status : String
  details : List (String × String)
  deriving DecidableEq, Repr

/-- The event as a line without its level. -/
def Event.text (e : Event) : String :=
  " ".intercalate
    (("event=" ++ e.name) :: ("module=" ++ e.component) :: ("status=" ++ e.status) ::
      e.details.map fun (key, value) => key ++ "=" ++ value)

/-- The event as a line of its own. -/
def Event.line (e : Event) : String := e.level.heading ++ e.text

end KeywordEngine.Log
