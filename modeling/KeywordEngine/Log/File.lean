import KeywordEngine.Log.Event

/-!
# The log file

A log is written line by line, each line with an event after a heading. The file rolls: before a
line is added to a file of more than `maxBytes` bytes, that file is put aside and a new one is
begun. Of the files put aside the newest `keptFiles` are kept and the others deleted.
-/

namespace KeywordEngine.Log

/-- A line of a log. -/
structure Entry where
  /-- What stands before the event: the time, the level and the place in the program. -/
  heading : String
  event : Event
  deriving DecidableEq, Repr

namespace Entry

/-- The line as it stands in a file. -/
def line (e : Entry) : String := e.heading ++ e.event.text

/-- The bytes that the line takes, with the line break after it. -/
def bytes (e : Entry) : Nat := e.line.utf8ByteSize + 1

end Entry

/-- The size of a file with these lines. -/
def fileBytes : List Entry → Nat
  | [] => 0
  | e :: rest => e.bytes + fileBytes rest

/-- The files of a log. -/
structure RollingFile where
  /-- The files put aside and not deleted, the oldest first. -/
  closed : List (List Entry)
  /-- The file that is written to. -/
  current : List Entry
  deriving DecidableEq, Repr

namespace RollingFile

/-- The size, in bytes, beyond which a file is not written to. -/
def maxBytes : Nat := 8 * 1024 * 1024

/-- The number of files put aside that are kept. -/
def keptFiles : Nat := 4

/-- A log in a new directory. -/
def empty : RollingFile := ⟨[], []⟩

/-- Puts the file aside that is written to, deletes the oldest ones beyond `keptFiles`, and begins a
new file. -/
def roll (f : RollingFile) : RollingFile :=
  let closed := f.closed ++ [f.current]
  ⟨closed.drop (closed.length - keptFiles), []⟩

/-- Adds a line. -/
def write (f : RollingFile) (e : Entry) : RollingFile :=
  let f := if fileBytes f.current > maxBytes then f.roll else f
  { f with current := f.current ++ [e] }

/-- The lines in all files, the oldest first. -/
def entries (f : RollingFile) : List Entry := f.closed.flatten ++ f.current

end RollingFile

end KeywordEngine.Log
