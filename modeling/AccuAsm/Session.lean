import AccuAsm.Style
import AccuAsm.Translator.Run

/-!
# Interactive sessions

A session translates one line at a time and shows the instructions that it produced.
Lines that start with a colon are commands to the session itself.  Addresses that
depend on an open block are shown as `?`.
-/

namespace AccuAsm

/-- A session between two lines. -/
structure Session where
  /-- The translation so far. -/
  translator : Translator
  /-- The number of the last statement. -/
  line : Int := 0
  /-- Whether output is coloured. -/
  colour : Bool := false
  deriving DecidableEq, Repr

/-- What a session answers to a line. -/
structure Reply where
  /-- The session behind the line. -/
  session : Session
  /-- The text that is printed. -/
  out : Text := []
  /-- Whether the session goes on. -/
  alive : Bool := true
  deriving DecidableEq, Repr

namespace Session

/-- A new session. -/
def new (config : Config) (colour : Bool) : Session where
  translator := .new config
  colour := colour

/-- A new session, if the instruction set leaves a rule for names. -/
def start (config : Config) (colour : Bool) : Except Fault Session := do
  return { translator := ← Translator.start config, colour }

/-- The prompt: the current scope and, inside conditions, their number. -/
def prompt (s : Session) : Text :=
  let depth := s.translator.conditions.depth
  let conditions : Text := if depth = 0 then [] else " if" ++ Numeral.ofNat depth
  s.translator.scopes.currentName ++ conditions ++ "> "

/-- A line with the address of an instruction and what is known of it. -/
def row (s : Session) (index : Nat) (content : Text) : Text :=
  let address := (Numeral.ofWord (address (Int64.ofNat index))).padLeft 4
  Style.blue.paint s.colour address ++ "  " ++ content ++ "\n"

/-- The lines of some instructions of the program. -/
def rows (s : Session) (instrs : List Instr) : Text :=
  let program := s.translator.program
  instrs.flatMap fun i => s.row ((program.indexOf? i.serial).getD 0) (program.format i)

/-- The lines of the whole program. -/
def list (s : Session) : Text := s.rows s.translator.program.code.toList

/-- The line of one definition. -/
def definitionRow (s : Session) (d : Definition) : Text :=
  let entry : Text := match s.translator.program.addressOf? d.entry with
    | some address => Numeral.ofWord address
    | none => "?"
  let state : Text := if d.closed then "closed" else "open"
  d.name.padRight 16 ++ " entry " ++ entry.padRight 4 ++ " " ++
    Style.magenta.paint s.colour state ++ "\n"

/-- The lines of all definitions. -/
def definitions (s : Session) : Text := s.translator.definitions.all.flatMap s.definitionRow

/-- The line that tells how many jumps over a block were placed. -/
def insertedRow (s : Session) (inserted : Nat) : Text :=
  if inserted = 0 then []
  else Style.magenta.paint s.colour ("  " ++ Numeral.ofNat inserted ++
    " skip jump inserted, addresses after it moved; :list shows the program") ++ "\n"

/-- A line for the translator. -/
def statement (s : Session) (content : Text) : Reply :=
  let number := s.line + 1
  match s.translator.feed (Line.single number content) with
  | (.ok instrs, translator) =>
    let session := { s with translator, line := number }
    let inserted := translator.program.size - s.translator.program.size - instrs.length
    { session, out := session.rows instrs ++ session.insertedRow inserted }
  | (.error fault, translator) =>
    { session := { s with translator, line := number }
      out := Style.red.paint s.colour fault.message ++ "\n" }

/-- One line of input. -/
def handle (s : Session) (content : Text) : Reply :=
  if content = ":quit" ∨ content = ":q" then { session := s, alive := false }
  else if content = ":list" then { session := s, out := s.list }
  else if content = ":scopes" then { session := s, out := s.translator.scopes.dump }
  else if content = ":defs" then { session := s, out := s.definitions }
  else if content = ":reset" then
    { session := new s.translator.config s.colour
      out := Style.bold.paint s.colour "program cleared" ++ "\n" }
  else if content.head? = some (ascii ':') then
    { session := s, out := Style.red.paint s.colour ("unknown command " ++ content) ++ "\n" }
  else s.statement content

end Session

end AccuAsm
