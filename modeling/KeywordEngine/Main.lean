import KeywordEngine.CommandLine
import KeywordEngine.Store.File

/-!
# The program

Reads the arguments and the store file, prints the response and writes the log. What it prints and
logs is decided in `CommandLine`.
-/

open KeywordEngine

/-- Reads the store in a file; a file that does not exist is made, with a new store. -/
def readStoreFile (path : String) : IO (Except String MetadataStore) := do
  try
    let text ← IO.FS.readFile path
    match MetadataStore.ofFileText? text with
    | some store => return .ok store
    | none => return .error ("file is not a metadata store: " ++ path)
  catch
    | .noFileOrDirectory .. =>
      IO.FS.writeFile path MetadataStore.empty.fileText
      return .ok MetadataStore.empty
    | e => return .error (toString e)

/-- The path of a file of the log in a directory. -/
def logPath (directory part : String) : String :=
  directory ++ "/" ++ CommandLine.programName ++ "_r" ++ part ++ ".log"

/-- Whether a file can be read. -/
def isReadable (path : String) : IO Bool := do
  try
    let _ ← IO.FS.Handle.mk path .read
    return true
  catch _ => return false

/-- Puts the file aside that is written to, as `RollingFile.roll` does. -/
def rollLog (directory : String) : IO Unit := do
  let closed := fun (n : Nat) => logPath directory ("0000" ++ toString n)
  let kept := Log.RollingFile.keptFiles
  let taken ← (List.range kept).filterM fun n => isReadable (closed n)
  if taken.length < kept then
    IO.FS.rename (logPath directory "CURRENT") (closed taken.length)
  else
    -- the oldest file is overwritten
    for n in List.range (kept - 1) do
      IO.FS.rename (closed (n + 1)) (closed n)
    IO.FS.rename (logPath directory "CURRENT") (closed (kept - 1))

/-- Adds lines to the log in a directory. -/
def writeLog (log : CommandLine.LogLines) : IO Unit := do
  IO.FS.createDirAll log.directory
  let path := logPath log.directory "CURRENT"
  let mut bytes := 0
  if ← isReadable path then
    bytes := (← IO.FS.readFile path).utf8ByteSize
  for line in log.lines do
    if bytes > Log.RollingFile.maxBytes then
      rollLog log.directory
      bytes := 0
    let file ← IO.FS.Handle.mk path .append
    file.putStrLn line
    bytes := bytes + line.utf8ByteSize + 1

/-- Lists the store in a file. -/
def listStoreFile (path : String) (options : CommandLine.Options) :
    IO CommandLine.Response := do
  match ← readStoreFile path with
  | .error message => return CommandLine.refuse message
  | .ok store =>
    let response := CommandLine.respond store options
    if let some log := CommandLine.logLines? options response then
      try
        writeLog log
      catch e =>
        (← IO.getStderr).putStr (CommandLine.warningText (toString e))
    return response

/-- Lists the keywords of a store as the arguments say. -/
def main (arguments : List String) : IO UInt32 := do
  let response ← (CommandLine.Options.parse {} arguments).run listStoreFile
  (← IO.getStdout).putStr response.stdout
  (← IO.getStderr).putStr response.stderr
  return UInt32.ofNat response.exit
