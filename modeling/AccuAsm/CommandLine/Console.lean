import AccuAsm.Storage
import AccuAsm.Style

/-!
# Consoles

What a command sees and changes: the files, and the two output streams.  An action
on a console either succeeds or ends with a message; what it did before stays done.
-/

namespace AccuAsm.CommandLine

/-- The surroundings of a command. -/
structure Console where
  /-- The files. -/
  storage : Storage
  /-- The texts that have been printed, the latest first. -/
  printed : List Text := []
  /-- The texts that have been printed on the error stream, the latest first. -/
  complaints : List Text := []
  deriving DecidableEq, Repr

namespace Console

/-- What has been printed. -/
def out (c : Console) : Text := c.printed.reverse.flatten

/-- What has been printed on the error stream. -/
def err (c : Console) : Text := c.complaints.reverse.flatten

/-- Print a text. -/
def print (c : Console) (text : Text) : Console := { c with printed := text :: c.printed }

/-- Print a text on the error stream. -/
def complain (c : Console) (text : Text) : Console := { c with complaints := text :: c.complaints }

end Console

/-- The end of a command: the console and the exit code. -/
structure Exit where
  /-- The console. -/
  console : Console
  /-- Zero for success. -/
  code : Nat
  deriving DecidableEq, Repr

/-- A step of a command: a result or a message, and the console behind it. -/
abbrev Action (α : Type) := ExceptT Text (StateM Console) α

namespace Action

/-- Print a text. -/
def print (text : Text) : Action Unit := modify (·.print text)

/-- Report progress on a line of its own, if that is wanted. -/
def log (verbose : Bool) (text : Text) : Action Unit :=
  let ending := if text.getLast? = some Text.newline then [] else [Text.newline]
  if verbose then modify (·.complain ("tcasm: " ++ text ++ ending)) else pure ()

/-- A result, or the message of a failure. -/
def ofExcept {ε α : Type} (message : ε → Text) : Except ε α → Action α
  | .ok a => pure a
  | .error e => throw (message e)

/-- Read a file. -/
def readFile (message : Text → Text) (path : Text) : Action Text := do
  let console ← get
  ofExcept (fun e : FileError => message e.message) (console.storage.read path)

/-- Write a file. -/
def writeFile (message : Text → Text) (path content : Text) : Action Unit := do
  let console ← get
  let storage ← ofExcept (fun e : FileError => message e.message)
    (console.storage.write path content)
  set { console with storage }

/-- Run an action to its end.  A failure is printed on the error stream. -/
def run (action : Action Unit) (colour : Bool) (console : Console) : Exit :=
  match ExceptT.run action console with
  | (.ok (), console) => ⟨console, 0⟩
  | (.error message, console) =>
    ⟨console.complain (Style.red.paint colour message ++ [Text.newline]), 1⟩

end Action

end AccuAsm.CommandLine
