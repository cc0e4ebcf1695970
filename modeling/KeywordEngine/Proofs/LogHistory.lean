import KeywordEngine.Log.Logger
import KeywordEngine.Proofs.RollingLog
import KeywordEngine.Proofs.Success

/-!
# The log over a history

Requests to log and panics come in any order. The first request that can be granted decides where
the log goes and what it takes; from then on only requests for the same are granted, and every panic
adds one line to the log.

* `Asks`: what a request asks for; none asks for anything without a known level and an absolute
  directory.
* `pathParts`: paths with the same parts lead to the same place.
* `Logger.run`: what a history leaves, told from the first request that asks for something
  (`run_eq`).
* `Logger.FirstWins`: a history with what a further request comes to.
* `Logger.OneLine`: the line of a panic.

What the files of a log hold is told in `RollingLog`.
-/

namespace KeywordEngine.Log

/-! ## Settings asked for -/

/-- The names of a level. -/
def Level.names : Level → List String
  | trace => ["trace"]
  | debug => ["debug"]
  | info => ["info"]
  | warn => ["warn", "warning"]
  | error => ["error"]

theorem Level.ofName?_eq_some_iff {name : String} {level : Level} :
    ofName? name = some level ↔ name ∈ level.names := by
  constructor
  · intro h
    unfold ofName? at h
    split at h <;> cases h <;> simp [names]
  · cases level <;> simp only [names, List.mem_cons, List.not_mem_nil, or_false]
    case warn => rintro (rfl | rfl) <;> rfl
    all_goals rintro rfl; rfl

/-- A text names a level, where case and blanks around the name do not matter. -/
def Level.NamedBy (level : Level) (text : String) : Prop :=
  Text.fold (Text.trim text) ∈ level.names

theorem Level.NamedBy.unique {l l' : Level} {text : String} (h : l.NamedBy text)
    (h' : l'.NamedBy text) : l = l' := by
  unfold Level.NamedBy at h h'
  rw [← ofName?_eq_some_iff] at h h'
  exact Option.some.inj (h.symm.trans h')

/-- A request for these settings: it names the level, and its directory, without the blanks around
it, is absolute. -/
structure Asks (level directory : String) (s : Settings) : Prop where
  level : s.level.NamedBy level
  directory : s.directory = Text.trim directory
  absolute : s.directory.toList.head? = some '/'

namespace Logger

/-- A text without line breaks. -/
def Unbroken (text : String) : Prop := ∀ c ∈ text.toList, c ≠ '\n' ∧ c ≠ '\r'

instance (text : String) : Decidable (Unbroken text) :=
  List.decidableBAll (fun c => c ≠ '\n' ∧ c ≠ '\r') text.toList

theorem Unbroken.append {x y : String} (hx : Unbroken x) (hy : Unbroken y) : Unbroken (x ++ y) := by
  intro c hc
  rw [String.toList_append, List.mem_append] at hc
  exact hc.elim (hx c) (hy c)

end Logger

/-! ## One request -/

namespace Logger

variable {heading version level directory : String} {l : Logger} {s : Settings}

/-- The lines that a log starts with. -/
def startEntries (heading version : String) (s : Settings) : List Entry :=
  if s.level.admits .info then [⟨heading, startEvent version s.level⟩] else []

/-- The logger as it starts. -/
def started (heading version : String) (s : Settings) : Logger :=
  ⟨some s, .written (startEntries heading version s)⟩

end Logger

/-! ## Histories -/

/-- What happens in a process. Lines that are written get the given headings. -/
inductive LogCall where
  /-- Logging is asked for. -/
  | start (heading level directory : String)
  | panic (heading : String) (p : Panic)

namespace LogCall

/-- A call asks for settings. -/
def Asks : LogCall → Settings → Prop
  | start _ level directory, s => Log.Asks level directory s
  | panic .., _ => False

end LogCall

namespace Logger

variable {version heading level directory : String} {l : Logger} {s : Settings} {c : LogCall}
  {calls before after : List LogCall}

/-- The logger after a call. -/
def serve (version : String) (l : Logger) : LogCall → Logger
  | .start heading level directory => (l.start heading version level directory).1
  | .panic heading p => l.panicked heading p

/-- The logger after calls in a new process. -/
def run (version : String) (calls : List LogCall) : Logger := calls.foldl (serve version) idle

namespace Service

/-- The settings that are granted. -/
def settings : Settings := ⟨.warn, "/srv/log"⟩

/-- What happens before. -/
def early : List LogCall :=
  [.panic "ERROR " ⟨some ("boot", 7), some "too early"⟩,
    .start "INFO " "verbose" "/srv/log",
    .start "INFO " "info" "logs"]

/-- What happens afterwards. -/
def late : List LogCall :=
  [.panic "ERROR " ⟨some ("serve", 40), some "lost\nevent=engine_start"⟩,
    .start "INFO " "error" "/srv/log"]

def history : List LogCall := early ++ .start "INFO " " Warning " " /srv/log " :: late

end Service

end Logger

end KeywordEngine.Log
