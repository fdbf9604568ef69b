import AccuAsm.Program.Instr

/-!
# Programs

The instruction buffer.  It grows at the end, except for the jumps over a block,
which are put in front of the block's body when the block closes.  Operands name
instructions, not positions, so they stay right when that happens.

* `Program.resolve`: the words of a finished program, or what is missing in it;
* `Program.format`: one instruction as far as its addresses are known.

An instruction may be placed more than once: `indexOf?` finds its first place, and
addresses count from its last one.
-/

namespace AccuAsm

/-- The bytes of one instruction. -/
def instructionWidth : Nat := 4

/-- The address of the instruction at an index. -/
def address (index : Int64) : Int64 := index * Int64.ofNat instructionWidth

/-- An attempt to put an instruction outside the program. -/
structure Misplacement where
  /-- Where it should have gone. -/
  site : Int
  /-- The number of instructions. -/
  size : Nat
  deriving DecidableEq, Repr

/-- The attempt in words. -/
def Misplacement.message (m : Misplacement) : Text :=
  "insert at " ++ Numeral.decimal m.site ++ " outside program of " ++ Numeral.ofNat m.size ++
    " instructions"

/-- A program that is being built. -/
structure Program where
  /-- The instructions in order. -/
  code : Array Instr := #[]
  deriving DecidableEq, Repr

namespace Program

/-- The number of instructions. -/
def size (p : Program) : Nat := p.code.size

/-- The instruction at an index. -/
def at? (p : Program) (index : Int) : Option Instr :=
  if 0 ≤ index then p.code[index.toNat]? else none

/-- The last instruction. -/
def last? (p : Program) : Option Instr := p.code.back?

/-- The first index of the instruction with a serial number. -/
def indexOf? (p : Program) (serial : Nat) : Option Nat :=
  p.code.findIdx? (·.serial == serial)

/-- Put instructions at the end. -/
def append (p : Program) (instrs : List Instr) : Program := { code := p.code ++ instrs }

/-- Put an instruction at an index; those from there on move up by one. -/
def insert (p : Program) (site : Int) (i : Instr) : Except Misplacement Program :=
  if h : 0 ≤ site ∧ site.toNat ≤ p.code.size then
    .ok { code := p.code.insertIdx site.toNat i h.2 }
  else .error ⟨site, p.size⟩

/-- Fill in the missing addresses of the instruction with a serial number. -/
def fill (p : Program) (serial : Nat) (place : Target) : Program :=
  { code := p.code.map fun i => if i.serial = serial then i.fill place else i }

/-- The last index below a bound that holds the instruction with a serial number. -/
def lastBelow (code : Array Instr) (serial : Nat) : Nat → Option Nat
  | 0 => none
  | index + 1 =>
    match code[index]? with
    | some i => if i.serial = serial then some index else lastBelow code serial index
    | none => lastBelow code serial index

/-- The last index of the instruction with a serial number. -/
def place? (p : Program) (serial : Nat) : Option Nat := lastBelow p.code serial p.code.size

/-- The address of a place in the program as it stands. -/
def addressOf? (p : Program) (place : Target) : Option Int64 :=
  (p.place? place.anchor).map fun index => address (Int64.ofNat index + place.offset)

/-- The number that an operand of the instruction at `index` stands for. -/
def resolveOperand (p : Program) (index : Nat) (line : Int) : Operand → Except Diagnostic Int64
  | .literal n => .ok n
  | .pending => .error { complaint := .unfilled index, line }
  | .target place =>
    match p.addressOf? place with
    | some n => .ok n
    | none => .error { complaint := .unplaced index, line }

/-- The word of the instruction at `index`. -/
def resolveInstr (p : Program) (i : Instr) (index : Nat) : Except Diagnostic Word := do
  let args ← i.args.mapM (p.resolveOperand index i.line)
  return { opcode := i.opcode, args, line := i.line, comment := i.comment }

/-- The words of the program, or the first operand that has no number. -/
def resolve (p : Program) : Except Diagnostic (List Word) :=
  p.code.toList.zipIdx.mapM fun (i, index) => p.resolveInstr i index

/-- The lines of the listing. -/
def lines (p : Program) : Except Diagnostic (List Text) :=
  (·.map Word.text) <$> p.resolve

/-- An operand as far as it is known in the program as it stands. -/
def formatOperand (p : Program) : Operand → Text
  | .literal n => Numeral.ofWord n
  | .pending => "?"
  | .target place =>
    match p.addressOf? place with
    | some n => Numeral.ofWord n
    | none => "?"

/-- An instruction as far as its operands are known in the program as it stands. -/
def format (p : Program) (i : Instr) : Text :=
  renderFields i.opcode (i.args.map p.formatOperand) i.comment

/-- Every instruction as far as its operands are known. -/
def formatAll (p : Program) : List Text := p.code.toList.map p.format

/-- The source line of every address, in the order of the addresses. -/
def sourceMap (p : Program) : List (Int64 × Int) :=
  p.code.toList.zipIdx.map fun (i, index) => (address (Int64.ofNat index), i.line)

end Program

end AccuAsm
