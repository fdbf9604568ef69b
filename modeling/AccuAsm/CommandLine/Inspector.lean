import AccuAsm.CommandLine.Arguments
import AccuAsm.CommandLine.Console
import AccuAsm.Translator.Run

/-!
# The inspector

A program that shows every stage of a translation: the source, its statements, the
instructions with their addresses and lines, the definitions, the RAM cells and the
scopes.
-/

namespace AccuAsm.CommandLine.Inspector

/-- The source that is shown when no file is named. -/
def sampleSource : Text :=
  "CONST limit 10\nSET $x 0\nDEF bump\nADD $x 1 $x\nENDDEF\nIF SM $x limit\nCALL bump\nENDIF\n"

/-- What the arguments ask for. -/
structure Options where
  /-- Whether the words are dumped at the end. -/
  dump : Bool := false
  /-- Whether output is plain. -/
  noColour : Bool := false
  /-- The file, if there is one. -/
  path : Option Text := none
  deriving DecidableEq, Repr

/-- Set one of the two switches. -/
def Options.assign (o : Options) (name : Text) (value : Bool) : Option Options :=
  if name = "dump" then some { o with dump := value }
  else if name = "no-color" then some { o with noColour := value }
  else none

/-- Read arguments: switches with one or two dashes, then the file. -/
def readArguments (o : Options) : List Text → Option Options
  | [] => some o
  | argument :: rest =>
    if argument = "--" then some { o with path := rest.head? }
    else if argument.length < 2 ∨ !isDashed argument then some { o with path := some argument }
    else
      let body := ((argument.stripPrefix? "--").or (argument.stripPrefix? "-")).getD []
      let (name, value) := splitValue body
      match (match value with
        | none => some true
        | some value => switchValue? value) with
      | none => none
      | some value => (o.assign name value).bind fun o => readArguments o rest

/-- A heading. -/
def heading (o : Options) (text : Text) : Text := Style.bold.paint (!o.noColour) text ++ "\n"

/-- The line of a statement. -/
def statementRow (line : Line) : Text :=
  "  " ++ (Numeral.decimal line.number).padLeft 3 ++ ":" ++
    (Numeral.decimal (line.column 0)).padRight 3 ++ " [" ++
    Text.joinWith " " (line.fields.map Text.quoted) ++ "]\n"

/-- The line of a word. -/
def wordRow (o : Options) (index : Nat) (w : Word) : Text :=
  "  " ++ Style.blue.paint (!o.noColour)
      ((Numeral.ofWord (address (Int64.ofNat index))).padLeft 4) ++
    "  " ++ Style.magenta.paint (!o.noColour) ("L" ++ (Numeral.decimal w.line).padRight 3) ++
    "  " ++ w.text ++ "\n"

/-- The line of a definition. -/
def definitionRow (t : Translator) (d : Definition) : Text :=
  let entry := Numeral.ofWord ((t.program.addressOf? d.entry).getD 0)
  "  " ++ d.name.padRight 16 ++ " entry " ++ entry.padRight 4 ++ " scope " ++
    t.scopes.nameOf d.scope ++ "\n"

/-- The words as a value. -/
def dump (words : List Word) : Text :=
  let size := Numeral.ofNat words.length
  let head : Text := if words.isEmpty then [] else "(len=" ++ size ++ " cap=" ++ size ++ ") "
  let rows : List Text := words.map fun w => Text.ofString " (compiler.Word) " ++ w.text
  let body : Text := if rows.isEmpty then [] else Text.joinWith ",\n" rows ++ "\n"
  "([]compiler.Word) " ++ head ++ "\x7b\n" ++ body ++ "\x7d\n"

/-- Show the stages of a translation. -/
def inspect (o : Options) (source : Text) : Action Unit := do
  Action.print ("Source:\n" ++ source ++ "\n")
  let lines := Line.tokenize source
  Action.print (heading o ("Statements (" ++ Numeral.ofNat lines.length ++ ")"))
  Action.print (lines.flatMap statementRow ++ "\n")
  let (t, words) ← Action.ofExcept (fun f : Fault => "translate error: " ++ f.message)
    (compile { annotate := true } source)
  Action.print (heading o "Instructions")
  Action.print (words.zipIdx.flatMap (fun (w, index) => wordRow o index w) ++ "\n")
  Action.print (heading o "Definitions")
  Action.print (t.definitions.all.flatMap (definitionRow t) ++ "\n")
  Action.print (heading o ("RAM (" ++ Numeral.ofNat t.memory.used ++ " used, " ++
    Numeral.ofNat t.memory.free ++ " free)"))
  Action.print ("\n" ++ t.scopes.dump)
  if o.dump then
    Action.print ("\n" ++ dump words)

/-- Run the inspector. -/
def run (arguments : List Text) (console : Console) : Exit :=
  match readArguments {} arguments with
  | none => ⟨console, 2⟩
  | some o =>
    match o.path with
    | none => Action.run (inspect o sampleSource) (!o.noColour) console
    | some path =>
      match console.storage.read path with
      | .ok source => Action.run (inspect o source) (!o.noColour) console
      | .error e => ⟨console.complain ("read error: " ++ e.message ++ "\n"), 1⟩

end AccuAsm.CommandLine.Inspector
