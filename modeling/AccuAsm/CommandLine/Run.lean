import AccuAsm.CommandLine.Arguments
import AccuAsm.CommandLine.Console
import AccuAsm.CommandLine.History
import AccuAsm.InstructionSet.Document
import AccuAsm.Session

/-!
# Commands

What each command does to a console:

* `build` translates a source into a listing or an image;
* `pack` makes an image from a listing;
* `disasm` prints the listing of an image;
* `repl` translates the lines of the input one at a time.
-/

namespace AccuAsm.CommandLine

/-- The words for a file that could not be written. -/
def writeFailure (path message : Text) : Text :=
  "failed to write " ++ path.quoted ++ ": " ++ message

/-- The words for a source that could not be read. -/
def readFailure (path message : Text) : Text :=
  "failed to read input file " ++ path.quoted ++ ": " ++ message

/-- The configuration that the options ask for. -/
def configure (o : Options) : Action Config := do
  if o.instructionSet.isEmpty then
    return { annotate := o.annotate }
  let document ← Action.readFile id o.instructionSet
  let set ← Action.ofExcept (InstructionSet.loadMessage o.instructionSet)
    (InstructionSet.load document)
  Action.log o.verbose ("loaded instruction set from " ++ o.instructionSet)
  return { set, annotate := o.annotate }

/-- The absolute path of the input. -/
def inputPath (o : Options) : Action Text := do
  return Path.absolute (← get).storage.workingDirectory (o.positional.headD [])

/-- Write the source map of an image next to it. -/
def writeSourceMap (imagePath : Text) (map : SourceMap) : Action Text := do
  let path := Path.withExtension imagePath ".map"
  Action.writeFile (writeFailure path) path map.text
  return path

/-- The path of the output: the one that was asked for, or the input with another extension. -/
def outputPath (o : Options) (input wanted : Text) : Text :=
  if o.out.isEmpty then Path.withExtension input wanted else o.out

/-- Translate a source into a listing or an image. -/
def build (o : Options) : Action Unit := do
  if o.format ≠ "text" ∧ o.format ≠ "bin" then
    throw ("unknown format " ++ o.format.quoted ++ ", want text or bin")
  let config ← configure o
  let input ← inputPath o
  let source ← Action.readFile (readFailure input) input
  Action.log o.verbose ("translating " ++ input)
  let (t, words) ← Action.ofExcept (fun f : Fault => "translation failed: " ++ f.message)
    (compile config source)
  Action.log o.verbose (Numeral.ofNat words.length ++ " instructions, " ++
    Numeral.ofNat t.memory.used ++ " RAM cells, " ++ Numeral.ofNat t.definitions.all.length ++
    " definitions")
  let report (output : Text) : Action Unit :=
    Action.print ("translated " ++ Numeral.ofNat words.length ++ " instructions -> " ++
      Style.green.paint (!o.noColour) output ++ "\n")
  if o.format = "bin" then
    let image ← Action.ofExcept (fun f : ImageFault => "packing failed: " ++ f.message)
      (Image.pack words)
    let output := outputPath o input ".bin"
    Action.writeFile (writeFailure output) output image.bytes.toList
    report output
    let path ← writeSourceMap output image.map
    Action.log o.verbose ("source map -> " ++ path)
  else
    let output := outputPath o input ".tc"
    Action.writeFile (writeFailure output) output (words.flatMap (·.text ++ [Text.newline]))
    report output

/-- Make an image from a listing. -/
def pack (o : Options) : Action Unit := do
  let input ← inputPath o
  let listing ← Action.readFile (readFailure input) input
  let image ← Action.ofExcept (fun f : ImageFault => "packing failed: " ++ f.message)
    (Image.assemble listing)
  let output := outputPath o input ".bin"
  Action.writeFile (writeFailure output) output image.bytes.toList
  let path ← writeSourceMap output image.map
  Action.log o.verbose ("source map -> " ++ path)
  Action.print ("packed " ++ Numeral.ofNat image.bytes.size ++ " bytes -> " ++
    Style.green.paint (!o.noColour) output ++ "\n")

/-- Print the listing of an image. -/
def disassemble (o : Options) : Action Unit := do
  let path := o.positional.headD []
  let image ← Action.readFile
    (fun message => "failed to read image " ++ path.quoted ++ ": " ++ message) path
  Action.print (← Action.ofExcept ImageFault.message (Image.disassemble image))

/-! ## Sessions -/

/-- A session with its history. -/
structure Dialogue where
  /-- The session. -/
  session : Session
  /-- The lines so far. -/
  history : History
  deriving DecidableEq, Repr

/-- The words in front of the first prompt. -/
def greeting : Text := "tcasm repl, :quit to leave\n"

/-- One line of input: the dialogue behind it, what is printed, and whether it goes on. -/
def Dialogue.step (d : Dialogue) (line : Text) : Dialogue × Text × Bool :=
  let content := line.trim
  if content.isEmpty then (d, [], true)
  else
    let reply := d.session.handle content
    ({ session := reply.session, history := d.history.add content }, reply.out, reply.alive)

/-- Go through the lines of the input, with a prompt in front of each, and meet the end. -/
def converse (d : Dialogue) : List Text → Action Dialogue
  | [] => do
    Action.print d.session.prompt
    return d
  | line :: rest => do
    Action.print d.session.prompt
    let (d, out, alive) := d.step line
    Action.print out
    if alive then converse d rest else return d

/-- The path of the history. -/
def historyPath (home : Text) : Text := Path.clean (home ++ "/.tcasm_history")

/-- The history of earlier sessions; a file that cannot be read counts as empty. -/
def pastHistory (storage : Storage) (home : Text) : History :=
  match storage.read (historyPath home) with
  | .ok content => .ofText content
  | .error _ => {}

/-- Store the history, if that is possible. -/
def storeHistory (storage : Storage) (home : Text) (history : History) : Storage :=
  match storage.write (historyPath home) history.text with
  | .ok storage => storage
  | .error _ => storage

/-- A new session with the configuration that the options ask for. -/
def openSession (o : Options) : Action Session := do
  let config ← configure o
  Action.ofExcept Fault.message (Session.start config (!o.noColour))

/-- Translate the lines of the input one at a time. -/
def interact (o : Options) (home input : Text) : Action Unit := do
  let session ← openSession o
  let dialogue : Dialogue := { session, history := pastHistory (← get).storage home }
  Action.print greeting
  let dialogue ← converse dialogue ((inputLines input).map (·.content))
  modify fun c => { c with storage := storeHistory c.storage home dialogue.history }

/-! ## The program -/

/-- Run a command. -/
def perform (command : Command) (o : Options) (home input : Text) : Action Unit :=
  match command with
  | .build => build o
  | .pack => pack o
  | .disassemble => disassemble o
  | .interact => interact o home input

/-- Run the program.  Faults in the arguments are reported in colour whatever the arguments say. -/
def run (arguments : List Text) (home input : Text) (console : Console) : Exit :=
  match read arguments with
  | .error e => Action.run (throw e.message) true console
  | .ok .usage => ⟨console, 0⟩
  | .ok (.run command o) => Action.run (perform command o home input) (!o.noColour) console

end AccuAsm.CommandLine
