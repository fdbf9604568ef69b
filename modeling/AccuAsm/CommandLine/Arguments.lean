import AccuAsm.Text.LowerCase
import AccuAsm.Text.Quoted

/-!
# Arguments

The commands, their flags, and how a list of arguments selects them.  Flags may
stand anywhere.  A flag that takes a value takes it from behind `=` or from the next
argument; letters can be joined behind one dash, and `--` ends the flags.
-/

namespace AccuAsm.CommandLine

/-- The commands. -/
inductive Command where
  | build
  | pack
  | disassemble
  | interact
  deriving DecidableEq, Repr

/-- The name of the program. -/
def programName : Text := "tcasm"

namespace Command

/-- Every command, in the order in which suggestions list them. -/
def all : List Command := [.build, .pack, .disassemble, .interact]

/-- The word that selects a command. -/
def name : Command → Text
  | .build => "build"
  | .pack => "pack"
  | .disassemble => "disasm"
  | .interact => "repl"

/-- The command that a word selects. -/
def ofName? (word : Text) : Option Command := all.find? (·.name == word)

end Command

/-- The words that select a command of the argument reader itself. -/
def builtinNames : List Text := ["help", "completion"]

/-- The flags. -/
inductive Flag where
  | instructionSet
  | annotate
  | verbose
  | noColour
  | out
  | format
  | help
  deriving DecidableEq, Repr

namespace Flag

/-- The long name. -/
def name : Flag → Text
  | .instructionSet => "isa"
  | .annotate => "annotate"
  | .verbose => "verbose"
  | .noColour => "no-color"
  | .out => "out"
  | .format => "format"
  | .help => "help"

/-- The letter, if there is one. -/
def letter? : Flag → Option UInt8
  | .verbose => some (ascii 'v')
  | .out => some (ascii 'o')
  | .help => some (ascii 'h')
  | _ => none

/-- Whether the flag stands for itself and needs no value. -/
def isSwitch : Flag → Bool
  | .annotate | .verbose | .noColour | .help => true
  | .instructionSet | .out | .format => false

/-- How messages call the flag. -/
def title (flag : Flag) : Text :=
  match flag.letter? with
  | some letter => "-" ++ [letter] ++ ", --" ++ flag.name
  | none => "--" ++ flag.name

/-- The flags that stand with every command. -/
def shared : List Flag := [.instructionSet, .annotate, .verbose, .noColour]

/-- The flags of a command. -/
def ofCommand : Command → List Flag
  | .build => shared ++ [.out, .format, .help]
  | .pack => shared ++ [.out, .help]
  | .disassemble | .interact => shared ++ [.help]

/-- The flag with a long name among the given ones. -/
def named? (flags : List Flag) (name : Text) : Option Flag := flags.find? (·.name == name)

/-- The flag with a letter among the given ones. -/
def lettered? (flags : List Flag) (letter : UInt8) : Option Flag :=
  flags.find? (·.letter? == some letter)

end Flag

/-- What the arguments ask for, beside the command. -/
structure Options where
  /-- The document of the instruction set; empty for the reference CPU. -/
  instructionSet : Text := []
  /-- Whether statements become comments. -/
  annotate : Bool := false
  /-- Whether progress is reported. -/
  verbose : Bool := false
  /-- Whether output is plain. -/
  noColour : Bool := false
  /-- The path of the output; empty for the default. -/
  out : Text := []
  /-- The format of the output. -/
  format : Text := "text"
  /-- Whether help is asked for. -/
  help : Bool := false
  /-- The arguments that are no flags. -/
  positional : List Text := []
  deriving DecidableEq, Repr

/-- What is wrong with the arguments. -/
inductive UsageError where
  | badSyntax (argument : Text)
  | unknownFlag (name : Text)
  | unknownLetter (letter : UInt8) (letters : Text)
  | noValue (argument : Text)
  | noLetterValue (letter : UInt8) (letters : Text)
  | notSwitch (value : Text) (flag : Flag)
  | argumentCount (received : Nat)
  | unknownCommand (word program : Text) (suggestions : List Text)
  deriving DecidableEq, Repr

/-- The line of a suggestion. -/
def suggestionRow (name : Text) : Text := "\t" ++ name ++ "\n"

/-- The fault in words. -/
def UsageError.message : UsageError → Text
  | .badSyntax argument => "bad flag syntax: " ++ argument
  | .unknownFlag name => "unknown flag: --" ++ name
  | .unknownLetter letter letters =>
    "unknown shorthand flag: " ++ Text.quotedChar (Char.ofNat letter.toNat) ++ " in -" ++ letters
  | .noValue argument => "flag needs an argument: " ++ argument
  | .noLetterValue letter letters =>
    "flag needs an argument: " ++ Text.quotedChar (Char.ofNat letter.toNat) ++ " in -" ++ letters
  | .notSwitch value flag =>
    "invalid argument " ++ value.quoted ++ " for " ++ flag.title.quoted ++
      " flag: strconv.ParseBool: parsing " ++ value.quoted ++ ": invalid syntax"
  | .argumentCount received => "accepts 1 arg(s), received " ++ Numeral.ofNat received
  | .unknownCommand word program suggestions =>
    let hint : Text :=
      if suggestions.isEmpty then []
      else Text.ofString "\n\nDid you mean this?\n" ++ (suggestions.map suggestionRow).flatten
    "unknown command " ++ word.quoted ++ " for " ++ program.quoted ++ hint

/-! ## Reading flags -/

/-- The value of a switch that is given one. -/
def switchValue? (value : Text) : Option Bool :=
  if (["1", "t", "T", "true", "TRUE", "True"] : List Text).contains value then some true
  else if (["0", "f", "F", "false", "FALSE", "False"] : List Text).contains value then some false
  else none

/-- Set a switch. -/
def Options.switch (o : Options) (flag : Flag) (value : Bool) : Options :=
  match flag with
  | .annotate => { o with annotate := value }
  | .verbose => { o with verbose := value }
  | .noColour => { o with noColour := value }
  | .help => { o with help := value }
  | _ => o

/-- Give a flag a value. -/
def Options.assign (o : Options) (flag : Flag) (value : Text) : Except UsageError Options :=
  match flag with
  | .instructionSet => .ok { o with instructionSet := value }
  | .out => .ok { o with out := value }
  | .format => .ok { o with format := value }
  | .annotate | .verbose | .noColour | .help =>
    match switchValue? value with
    | some on => .ok (o.switch flag on)
    | none => .error (.notSwitch value flag)

/-- The parts in front of and behind the first `=`. -/
def splitValue (text : Text) : Text × Option Text :=
  match text.span (· ≠ ascii '=') with
  | (name, _ :: value) => (name, some value)
  | (name, []) => (name, none)

/-- A long flag without its dashes; `next` is the argument behind it.  The result tells whether
that argument was taken as the value. -/
def readLong (flags : List Flag) (o : Options) (body : Text) (next : Option Text) :
    Except UsageError (Options × Bool) :=
  let argument : Text := "--" ++ body
  if body.head? = some (ascii '-') ∨ body.head? = some (ascii '=') then
    .error (.badSyntax argument)
  else
    let (name, value) := splitValue body
    match Flag.named? flags name, value, next with
    | none, _, _ => .error (.unknownFlag name)
    | some flag, some value, _ => return (← o.assign flag value, false)
    | some flag, none, next =>
      if flag.isSwitch then .ok (o.switch flag true, false)
      else match next with
        | some value => return (← o.assign flag value, true)
        | none => .error (.noValue argument)

/-- What starts the letters that are meant for a test runner. -/
def testMark : Text := "test."

/-- Letters behind one dash; `next` is the argument behind them.  The result tells whether that
argument was taken as the value of the last letter.  What is meant for a test runner is passed
over. -/
def readLetters (flags : List Flag) (o : Options) (letters : Text) (next : Option Text) :
    Except UsageError (Options × Bool) :=
  match letters with
  | [] => .ok (o, false)
  | letter :: rest =>
    if testMark.isPrefixOf letters then .ok (o, false)
    else match Flag.lettered? flags letter with
      | none => .error (.unknownLetter letter letters)
      | some flag =>
        match rest with
        | mark :: first :: more =>
          if mark = ascii '=' then return (← o.assign flag (first :: more), false)
          else if flag.isSwitch then readLetters flags (o.switch flag true) rest next
          else return (← o.assign flag rest, false)
        | _ =>
          if flag.isSwitch then readLetters flags (o.switch flag true) rest next
          else if rest.isEmpty then
            match next with
            | some value => return (← o.assign flag value, true)
            | none => .error (.noLetterValue letter letters)
          else return (← o.assign flag rest, false)

/-- Read arguments into options. -/
def readArguments (flags : List Flag) (o : Options) :
    List Text → Except UsageError Options
  | [] => .ok o
  | argument :: rest =>
    if argument = "--" then .ok { o with positional := o.positional ++ rest }
    else
      let read : Option (Except UsageError (Options × Bool)) :=
        match argument.stripPrefix? "--" with
        | some body => some (readLong flags o body rest.head?)
        | none =>
          match argument.stripPrefix? "-" with
          | some [] | none => none
          | some letters => some (readLetters flags o letters rest.head?)
      match read, rest with
      | none, rest =>
        readArguments flags { o with positional := o.positional ++ [argument] } rest
      | some (.error e), _ => .error e
      | some (.ok (o, true)), _ :: rest => readArguments flags o rest
      | some (.ok (o, _)), rest => readArguments flags o rest

/-! ## Selecting a command -/

/-- Whether an argument is a flag that takes the next argument as its value, as far as can be told
from the flags that stand with every command.  An unknown flag counts as one that does. -/
def takesNext (argument : Text) : Bool :=
  if argument.contains (ascii '=') then false
  else match argument.stripPrefix? "--" with
    | some body => !((Flag.named? Flag.shared body).map Flag.isSwitch).getD false
    | none =>
      match argument.stripPrefix? "-" with
      | some [letter] => !((Flag.lettered? Flag.shared letter).map Flag.isSwitch).getD false
      | _ => false

/-- Whether an argument starts with a dash. -/
def isDashed (argument : Text) : Bool := argument.head? = some (ascii '-')

/-- The arguments that are neither flags nor values of flags.  A flag that would take the last
argument ends the search. -/
def bareWords : List Text → List Text
  | [] => []
  | argument :: rest =>
    if argument = "--" then []
    else if takesNext argument then
      match rest with
      | _ :: next :: more => bareWords (next :: more)
      | _ => []
    else if argument.isEmpty ∨ isDashed argument then bareWords rest
    else argument :: bareWords rest

/-- The arguments without the first bare occurrence of a word. -/
def dropWord (word : Text) : List Text → List Text
  | [] => []
  | argument :: rest =>
    if argument = "--" then argument :: rest
    else if takesNext argument then
      match rest with
      | value :: more => argument :: value :: dropWord word more
      | [] => [argument]
    else if argument = word then rest
    else argument :: dropWord word rest

/-- One more row of the table of edit distances: the distances of the beginnings of `target` from
a text that is one byte longer. -/
def distanceRow (byte : UInt8) (target : Text) (row : List Nat) : List Nat :=
  match row with
  | [] => []
  | first :: rest =>
    ((target.zip (row.zip rest)).foldl
      (fun (done : List Nat × Nat) (letter, diagonal, above) =>
        let left := done.2
        let here := min (min (left + 1) (above + 1)) (diagonal + if letter = byte then 0 else 1)
        (here :: done.1, here))
      ([first + 1], first + 1)).1.reverse

/-- The number of bytes to insert, drop or replace to get from one text to another. -/
def distance (source target : Text) : Nat :=
  (source.foldl (fun row byte => distanceRow byte target row)
    (List.range (target.length + 1))).getLastD 0

/-- The commands that a mistyped word may have meant. -/
def suggestions (word : Text) : List Text :=
  (Command.all.map Command.name ++ [Text.ofString "completion"]).filter fun name =>
    distance word.lower name ≤ 2 || word.lower.isPrefixOf name

/-- What a list of arguments asks for. -/
inductive Request where
  /-- Run a command. -/
  | run (command : Command) (options : Options)
  /-- Show how the program is used. -/
  | usage
  deriving DecidableEq, Repr

/-- The arguments of a command, checked against what it takes. -/
def readCommand (command : Command) (arguments : List Text) : Except UsageError Request := do
  let options ← readArguments (Flag.ofCommand command) {} arguments
  if options.help then
    return .usage
  match command, options.positional with
  | .interact, [] => return .run command options
  | .interact, word :: _ =>
    throw (.unknownCommand word (programName ++ " " ++ command.name) [])
  | _, [_] => return .run command options
  | _, words => throw (.argumentCount words.length)

/-- What a list of arguments asks for, or what is wrong with it. -/
def read (arguments : List Text) : Except UsageError Request :=
  match bareWords arguments with
  | [] => do
    let _ ← readArguments (Flag.shared ++ [.help]) {} arguments
    return .usage
  | word :: _ =>
    match Command.ofName? word with
    | some command => readCommand command (dropWord word arguments)
    | none =>
      if builtinNames.contains word then .ok .usage
      else .error (.unknownCommand word programName (suggestions word))

end AccuAsm.CommandLine
