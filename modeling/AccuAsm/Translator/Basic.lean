import AccuAsm.Block
import AccuAsm.Keyword
import AccuAsm.Line
import AccuAsm.Lowering
import AccuAsm.Memory
import AccuAsm.NamePattern
import AccuAsm.Program.Basic
import AccuAsm.Scope

/-!
# Translators

Everything that is known between two statements: the names in scope, the RAM cells
in use, the blocks, and the program so far.
-/

namespace AccuAsm

/-- What a translation depends on beside the source. -/
structure Config where
  /-- The instruction set. -/
  set : InstructionSet := .standard
  /-- Whether each statement becomes a comment of its first instruction. -/
  annotate : Bool := false
  deriving DecidableEq, Repr

/-- Why a source was not translated. -/
inductive Fault where
  /-- There is no rule for names. -/
  | nameless (u : NamePattern.Unreadable)
  /-- A statement was refused. -/
  | rejected (d : Diagnostic)
  /-- The place of a jump over a block lies outside the program. -/
  | misplaced (m : Misplacement)
  deriving DecidableEq, Repr

/-- The fault in words. -/
def Fault.message : Fault → Text
  | .nameless u => u.message
  | .rejected d => d.message
  | .misplaced m => m.message

/-- The state between two statements. -/
structure Translator where
  /-- What the translation depends on. -/
  config : Config
  /-- The names in scope. -/
  scopes : ScopeTable
  /-- The RAM cells in use. -/
  memory : Memory := {}
  /-- The definitions. -/
  definitions : Definitions := {}
  /-- The open conditions. -/
  conditions : Conditions := {}
  /-- The program so far. -/
  program : Program := {}
  /-- The serial number of the next instruction. -/
  nextSerial : Nat := 0
  deriving DecidableEq, Repr

namespace Translator

/-- The names of the registers. -/
def registerNames (r : Registers) : List (Text × Int64) :=
  [("RAM", r.ram), ("STACK", r.stack), ("CLK", r.counter), ("RAMADR", r.latch),
    ("TMP0", r.scratch0), ("TMP1", r.scratch1), ("RESL", r.resultLow), ("RESH", r.resultHigh),
    ("SGTGL", r.segmentToggle), ("CNT", r.segmentToggle), ("USTACK", r.userStack), ("IO", r.io)]

/-- The outermost scope with the registers bound to their names. -/
def initialScopes (set : InstructionSet) : ScopeTable :=
  (registerNames set.registers).foldl
    (fun scopes (name, number) => scopes.declare ScopeTable.root name (.register number))
    .initial

/-- The state in front of the first statement. -/
def new (config : Config) : Translator where
  config := config
  scopes := initialScopes config.set

/-- The state in front of the first statement, if the keywords of the instruction set leave a
rule for names. -/
def start (config : Config) : Except Fault Translator :=
  match NamePattern.check config.set.conditionKeywords with
  | .ok () => .ok (new config)
  | .error u => .error (.nameless u)

/-- The instruction set. -/
def set (t : Translator) : InstructionSet := t.config.set

/-- The current scope. -/
def scope (t : Translator) : Nat := t.scopes.current

/-- The value of an operand in the current scope. -/
def resolve (t : Translator) (token : Text) : Except Diagnostic Value :=
  t.scopes.resolve t.scope token true

/-- Whether the current scope or one around it binds the name. -/
def visible (t : Translator) (name : Text) : Bool := t.scopes.bound t.scope name true

/-- Refuse a name that may not be introduced. -/
def checkName (t : Translator) (name : Text) : Except Diagnostic Unit :=
  Name.check t.set.conditionKeywords name

/-- Bind a name in the current scope. -/
def bind (t : Translator) (name : Text) (value : Value) : Translator :=
  { t with scopes := t.scopes.declare t.scope name value }

/-- The comment, if comments are wanted. -/
def annotation (t : Translator) (comment : Text) : Text := if t.config.annotate then comment else []

/-- The jump over a block that the statement at `line` opens. -/
def skip (t : Translator) (line : Int) (comment : Text) : Instr :=
  t.set.skipOp.toInstr t.nextSerial line (t.annotation comment)

/-- Operations as instructions with consecutive serial numbers; the comment goes to the first. -/
def number (serial : Nat) (line : Int) (comment : Text) : List Op → List Instr
  | [] => []
  | op :: rest => op.toInstr serial line comment :: number (serial + 1) line [] rest

/-- Put the operations of a statement at the end of the program. -/
def emit (t : Translator) (line : Line) (ops : List Op) : List Instr × Translator :=
  let instrs := number t.nextSerial line.number (t.annotation line.text) ops
  (instrs, { t with
    program := t.program.append instrs
    nextSerial := t.nextSerial + ops.length })

end Translator

end AccuAsm
