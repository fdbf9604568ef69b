import AccuAsm.CommandLine.Inspector
import AccuAsm.CommandLine.Run

/-!
# The program

The outer layer: it looks at the files that the arguments name, runs the command on
what it found, prints, and writes the files that changed.  Sessions read one line at
a time.
-/

namespace AccuAsm.CommandLine

/-- The bytes of a text. -/
def toBytes (text : Text) : ByteArray := ⟨text.toArray⟩

/-- A text as a file name. -/
def fileName (path : Text) : String := (String.fromUTF8? (toBytes path)).getD ""

/-- The directories above a path, and the path itself. -/
def steps (path : Text) : List Text :=
  let parts := (path.splitOn Path.slash).filter (!·.isEmpty)
  (List.range parts.length).map fun n =>
    Path.slash :: Text.joinWith [Path.slash] (parts.take (n + 1))

/-- Add what stands at an absolute path to the files that are known. -/
def look (storage : Storage) (path : Text) : IO Storage := do
  try
    let content ← IO.FS.readBinFile (fileName path)
    return { storage with files := storage.files.insert path content.data.toList }
  catch
    | .inappropriateType .. => return { storage with directories := path :: storage.directories }
    | _ => return storage

/-- The files and directories that the arguments name, and the history. -/
def survey (workingDirectory home : Text) (arguments : List Text) : IO Storage := do
  let named := arguments.flatMap fun argument => [argument] ++ (splitValue argument).2.toList
  let paths := (workingDirectory :: historyPath home :: named).flatMap fun path =>
    steps (Path.absolute workingDirectory path)
  paths.foldlM look { workingDirectory }

/-- Print what a command printed and write the files that it changed. -/
def deliver (before : Storage) (exit : Exit) : IO UInt32 := do
  let stdout ← IO.getStdout
  let stderr ← IO.getStderr
  stdout.write (toBytes exit.console.out)
  stdout.flush
  stderr.write (toBytes exit.console.err)
  stderr.flush
  for (path, content) in exit.console.storage.files.entries do
    if before.files.find? path ≠ some content then
      IO.FS.writeBinFile (fileName path) (toBytes content)
  return UInt32.ofNat exit.code

/-- Answer lines until the input or the session ends. -/
partial def answerLines (d : Dialogue) : IO Dialogue := do
  let stdout ← IO.getStdout
  stdout.write (toBytes d.session.prompt)
  stdout.flush
  let line ← (← IO.getStdin).getLine
  if line.isEmpty then
    return d
  let (d, out, alive) := d.step (Text.ofString line)
  stdout.write (toBytes out)
  if alive then answerLines d else return d

/-- A session at the terminal. -/
def runSession (o : Options) (home : Text) (storage : Storage) : IO UInt32 := do
  match ExceptT.run (openSession o) { storage } with
  | (.error message, console) =>
    deliver storage (Action.run (throw message) (!o.noColour) console)
  | (.ok session, console) =>
    IO.print (fileName greeting)
    let d ← answerLines ⟨session, pastHistory storage home⟩
    deliver storage ⟨{ console with storage := storeHistory storage home d.history }, 0⟩

/-- The working directory and the home directory. -/
def surroundings : IO (Text × Text) := do
  let workingDirectory := Text.ofString (← IO.currentDir).toString
  let home := Text.ofString ((← IO.getEnv "HOME").getD "/")
  return (workingDirectory, home)

/-- The inspector as a program of its own. -/
def inspectorMain (arguments : List String) : IO UInt32 := do
  let (workingDirectory, home) ← surroundings
  let arguments := arguments.map Text.ofString
  let storage ← survey workingDirectory home arguments
  deliver storage (Inspector.run arguments { storage })

end AccuAsm.CommandLine

open AccuAsm AccuAsm.CommandLine in
/-- The command line program. -/
def main (arguments : List String) : IO UInt32 := do
  let (workingDirectory, home) ← surroundings
  let arguments := arguments.map Text.ofString
  let storage ← survey workingDirectory home arguments
  match CommandLine.read arguments with
  | .ok (.run .interact o) => runSession o home storage
  | _ => deliver storage (CommandLine.run arguments home [] { storage })
