import KeywordEngine.Listing
import KeywordEngine.Log.Logger

/-!
# The command line

`dynkw --store FILE` lists the keywords of the modules in a store, all of them or one by name, as
text or as JSON. The exit status is 0 if every listed module was accepted, 1 if the store could not
be read or a module was not accepted, and 2 if the arguments make no sense.

* `Options.parse`: reads the arguments.
* `respond`: all that the program prints, given the store.
* `logLines?`: what it adds to its log.
-/

namespace KeywordEngine.CommandLine

/-- The name under which the program runs. -/
def programName : String := "dynkw"

/-- The version of the program and of the library. -/
def version : String := "0.1.0"

/-! ## Arguments -/

/-- What the arguments ask for. -/
structure Options where
  store : Option String := none
  /-- The one module to list. -/
  module : Option String := none
  json : Bool := false
  logLevel : Option String := none
  logDirectory : Option String := none

/-- The options that take a value. -/
inductive ValueOption where
  | store
  | module
  | logLevel
  | logDirectory
  deriving DecidableEq, Repr

namespace ValueOption

/-- How an option is written. -/
def flag : ValueOption → String
  | store => "--store"
  | module => "--module"
  | logLevel => "--log-level"
  | logDirectory => "--log-dir"

/-- The word that stands for the value of an option. -/
def placeholder : ValueOption → String
  | store => "<STORE>"
  | module => "<MODULE>"
  | logLevel => "<LOG_LEVEL>"
  | logDirectory => "<LOG_DIR>"

/-- The options that take a value. -/
def all : List ValueOption := [store, module, logLevel, logDirectory]

/-- Whether the value of an option is a path and so cannot be empty. -/
def isPath : ValueOption → Bool
  | store => true
  | module => false
  | logLevel => false
  | logDirectory => true

/-- The value of an option. -/
def get (o : Options) : ValueOption → Option String
  | store => o.store
  | module => o.module
  | logLevel => o.logLevel
  | logDirectory => o.logDirectory

/-- Gives an option its value. -/
def set (o : Options) (value : String) : ValueOption → Options
  | store => { o with store := some value }
  | module => { o with module := some value }
  | logLevel => { o with logLevel := some value }
  | logDirectory => { o with logDirectory := some value }

end ValueOption

/-- What the arguments come to. -/
inductive Request where
  | list (store : String) (options : Options)
  | showVersion
  | showHelp
  | badUsage (complaint : String)

/-- Splits `--flag=value` at its first equals sign. -/
def splitFlag (argument : String) : String × Option String :=
  let cs := argument.toList
  match cs.dropWhile (· ≠ '=') with
  | [] => (argument, none)
  | _ :: value => (String.ofList (cs.takeWhile (· ≠ '=')), some (String.ofList value))

/-- Whether an argument looks like an option and so cannot be a value. -/
def looksLikeOption (argument : String) : Bool :=
  match argument.toList with
  | '-' :: _ :: _ => true
  | _ => false

private def repeated (what : String) : Request :=
  .badUsage ("the argument '" ++ what ++ "' cannot be used multiple times")

private def unexpected (argument : String) : Request :=
  .badUsage ("unexpected argument '" ++ argument ++ "' found")

/-- What an argument that no option takes asks for. After `-V` or `-h` the rest of the argument does
not matter. -/
def requestOf (argument : String) : Request :=
  match argument.toList with
  | '-' :: 'V' :: _ => .showVersion
  | '-' :: 'h' :: _ => .showHelp
  | _ =>
    if argument = "--version" then .showVersion
    else if argument = "--help" then .showHelp
    else unexpected argument

/-- Reads the arguments from the first on, on top of the options read before. No argument may follow
the argument `--`. -/
def Options.parse (o : Options) : List String → Request
  | [] =>
    match o.store with
    | some store => .list store o
    | none =>
      .badUsage "the following required arguments were not provided:\n  --store <STORE>"
  | argument :: rest =>
    let (flag, given) := splitFlag argument
    match ValueOption.all.find? (·.flag == flag) with
    | some option =>
      let what := option.flag ++ " " ++ option.placeholder
      let missing := Request.badUsage
        ("a value is required for '" ++ what ++ "' but none was supplied")
      match given, rest with
      | some value, rest =>
        if option.isPath && value.isEmpty then missing
        else if (option.get o).isSome then repeated what
        else (option.set o value).parse rest
      | none, value :: rest =>
        if looksLikeOption value || option.isPath && value.isEmpty then missing
        else if (option.get o).isSome then repeated what
        else (option.set o value).parse rest
      | none, [] => missing
    | none =>
      if argument = "--json" then
        if o.json then repeated "--json" else { o with json := true }.parse rest
      else if argument = "--" then
        match rest with
        | [] => o.parse rest
        | surplus :: _ => unexpected surplus
      else requestOf argument

/-! ## Listing -/

/-- The listings of a store, of one module or of all, with the events on the way. -/
def listings (s : MetadataStore) (module : Option String) :
    Except String (List (Listing × List Log.Event)) :=
  match module with
  | some name =>
    match s.find? name with
    | .ok (some m) => .ok [Listing.ofModule s m]
    | .ok none => .error ("module `" ++ name ++ "` is not in the store")
    | .error e => .error e.message
  | none =>
    match s.list with
    | .ok modules => .ok (modules.map (Listing.ofModule s))
    | .error e => .error e.message

/-- What the program writes and how it ends. -/
structure Response where
  exit : Nat
  stdout : String
  stderr : String
  /-- The events while it ran, after logging was started. -/
  events : List Log.Event

/-- The event of a run that listed something. -/
def listEvent (ls : List Listing) : Log.Event :=
  ⟨.info, "cli_list", "cli", if ls.all (·.isOk) then "ok" else "partial",
    [("module_count", Text.ofNat ls.length)]⟩

/-- Lists a store that was opened. -/
def listStore (s : MetadataStore) (o : Options) : Response :=
  match listings s o.module with
  | .error message =>
    ⟨1, "", "error: " ++ message ++ "\n",
      [⟨.error, "cli_list", "cli", "error", [("error", message)]⟩]⟩
  | .ok found =>
    let ls := found.map (·.1)
    let events := found.flatMap (·.2) ++ [listEvent ls]
    ⟨if ls.all (·.isOk) then 0 else 1, if o.json then Listing.jsonOf ls else Listing.textOf ls, "",
      events⟩

/-- Opens a store and lists it. -/
def openAndList (s : MetadataStore) (o : Options) : Response :=
  let opening : Log.Event := ⟨.info, "metadata_open", "db", "start", [("mode", "file")]⟩
  match s.migrate with
  | .error e =>
    ⟨1, "", "error: " ++ e.message ++ "\n",
      [opening,
        ⟨.error, "metadata_open", "db", "error", [("mode", "file"),
          ("error_code", "store_bootstrap_failed"), ("error", e.message)]⟩,
        ⟨.error, "cli_list", "cli", "error", [("error", e.message)]⟩]⟩
  | .ok () =>
    let r := listStore s o
    { r with events := MetadataStore.openEvents "file" ++ r.events }

/-- The level at which the program logs unless it is told another. -/
def defaultLogLevel : String := "debug"

/-- The warning that nothing is logged, and why. -/
def warningText (reason : String) : String := "warning: logging disabled: " ++ reason ++ "\n"

/-- The logger that the options ask for, started; none if they ask for no logging. -/
def Options.logger? (o : Options) : Option (Log.Logger × Except Log.LoggingError Unit) :=
  o.logDirectory.map (Log.Logger.idle.start Log.Level.info.heading version
    (o.logLevel.getD defaultLogLevel))

/-- The warning about a log directory or level that cannot be used. -/
def loggingWarning (o : Options) : String :=
  match o.logger? with
  | some (_, .error e) => warningText e.message
  | _ => ""

/-- What the program writes for the given options. -/
def respond (s : MetadataStore) (o : Options) : Response :=
  let r := openAndList s o
  { r with stderr := loggingWarning o ++ r.stderr }

/-- What the program writes if the file of the store cannot be read. -/
def refuse (message : String) : Response := ⟨1, "", "error: " ++ message ++ "\n", []⟩

/-- A log directory and the lines that a run adds to the log in it. -/
structure LogLines where
  directory : String
  lines : List String

/-- What a run with the given response logs. -/
def logLines? (o : Options) (r : Response) : Option LogLines := do
  let (started, _) ← o.logger?
  let settings ← started.active
  let logger := r.events.foldl (fun l e => l.record e.level.heading e) started
  return ⟨settings.directory, logger.log.entries.map (·.line)⟩

/-- The complaint about arguments that make no sense. -/
def usageText (complaint : String) : String :=
  "error: " ++ complaint ++ "\n\nUsage: " ++ programName ++
    " [OPTIONS] --store <STORE>\n\nFor more information, try '--help'.\n"

/-- The summary of the options. -/
def helpText : String :=
  "List keywords declared in a module metadata store\n\nUsage: " ++ programName ++
    " [OPTIONS] --store <STORE>\n\nOptions:\n" ++
    "      --store <STORE>          Path to the metadata store\n" ++
    "      --module <MODULE>        Only list this module (case-insensitive)\n" ++
    "      --json                   Print JSON instead of an indented tree\n" ++
    "      --log-level <LOG_LEVEL>  [default: " ++ defaultLogLevel ++ "]\n" ++
    "      --log-dir <LOG_DIR>      Absolute directory for log files; logging is off when " ++
    "omitted\n" ++
    "  -h, --help                   Print help\n" ++
    "  -V, --version                Print version\n"

/-- Carries out a request; `list` lists the store in a file. -/
def Request.run {m : Type → Type} [Monad m] (list : String → Options → m Response) :
    Request → m Response
  | .list store options => list store options
  | .showVersion => pure ⟨0, programName ++ " " ++ version ++ "\n", "", []⟩
  | .showHelp => pure ⟨0, helpText, "", []⟩
  | .badUsage complaint => pure ⟨2, "", usageText complaint, []⟩

end KeywordEngine.CommandLine
