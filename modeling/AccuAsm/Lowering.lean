import AccuAsm.InstructionSet.Basic
import AccuAsm.Program.Instr
import AccuAsm.Value

/-!
# Instruction sequences

Which instructions a statement becomes, once its operands are known.  The machine
reads RAM through one register, and a latch register selects the cell, so every
access to a cell is a latch followed by a move.  Sources that come from RAM are
moved to a scratch register of their own first.
-/

namespace AccuAsm

/-- An instruction before it is placed: no serial number, line or comment yet. -/
structure Op where
  /-- The operation. -/
  opcode : Int64
  /-- The operands. -/
  args : Args Operand
  deriving DecidableEq, Repr

namespace Op

/-- The operation with every missing address filled in. -/
def fill (op : Op) (place : Target) : Op := { op with args := op.args.map (·.fill place) }

/-- The instruction made from an operation. -/
def toInstr (op : Op) (serial : Nat) (line : Int) (comment : Text) : Instr where
  serial := serial
  opcode := op.opcode
  args := op.args
  line := line
  comment := comment

end Op

namespace InstructionSet

variable (set : InstructionSet)

/-- Copy a source to a register; the source is a constant or the number of a register. -/
def moveOp (source : Operand) (constant : Bool) (dest : Int64) : Op where
  opcode := set.alu + set.move + if constant then set.immediate0 else 0
  args := ⟨source, .literal 0, .literal dest⟩

/-- Select a RAM cell. -/
def latchOp (cell : Int64) : Op := set.moveOp (.literal cell) true set.registers.latch

/-- Set the program counter. -/
def jumpOp (place : Operand) (constant : Bool) : Op :=
  set.moveOp place constant set.registers.counter

/-- Copy one register to another. -/
def copyOp (source dest : Int64) : Op := set.moveOp (.literal source) false dest

/-- A source in the form that the ALU reads: the instructions that bring it there, its operand
field, and its flag. -/
structure Source where
  /-- The instructions in front. -/
  code : List Op
  /-- The operand field. -/
  arg : Int64
  /-- The flag in the opcode, zero if there is none. -/
  flag : Int64
  deriving DecidableEq, Repr

/-- Bring a source into the form that the ALU reads.  A RAM cell goes to the scratch register, a
constant is passed through and flagged. -/
def stageSource (scratch flag : Int64) (v : Value) : Source :=
  match v.kind with
  | .ram => ⟨[set.latchOp v.payload, set.copyOp set.registers.ram scratch], scratch, 0⟩
  | .immediate => ⟨[], v.payload, flag⟩
  | .register | .other _ => ⟨[], v.payload, 0⟩

/-- The first source. -/
def stageLeft (v : Value) : Source := set.stageSource set.registers.scratch0 set.immediate0 v

/-- The second source. -/
def stageRight (v : Value) : Source := set.stageSource set.registers.scratch1 set.immediate1 v

/-- Prepare a destination: the instructions in front, and the register to write.  A RAM cell is
written through the RAM register. -/
def stageDest (v : Value) : List Op × Int64 :=
  match v.kind with
  | .ram => ([set.latchOp v.payload], set.registers.ram)
  | _ => ([], v.payload)

/-- Two sources, an operation, and a destination operand. -/
def binaryOps (opcode : Int64) (a b : Value) (front : List Op) (dest : Operand) : List Op :=
  let left := set.stageLeft a
  let right := set.stageRight b
  left.code ++ right.code ++ front ++
    [⟨opcode + left.flag + right.flag, ⟨.literal left.arg, .literal right.arg, dest⟩⟩]

/-- An operation on two sources whose result is stored. -/
def storeOps (opcode : Int64) (a b dest : Value) : List Op :=
  let (front, register) := set.stageDest dest
  set.binaryOps opcode a b front (.literal register)

/-- An ALU operation. -/
def arithmeticOps (operation word : Int64) (a b dest : Value) : List Op :=
  set.storeOps (set.alu + operation + word) a b dest

/-- A comparison whose result is stored. -/
def compareOps (code : Int64) (a b dest : Value) : List Op :=
  set.storeOps (set.condition + code) a b dest

/-- A comparison that jumps to a place when it holds. -/
def branchOps (code : Int64) (a b : Value) (place : Operand) : List Op :=
  set.binaryOps (set.condition + code + set.jump) a b [] place

/-- An assignment. -/
def assignOps (dest source : Value) : List Op :=
  let r := set.registers
  let constant : Bool := source.kind = .immediate
  match dest.kind, source.kind with
  | .ram, .ram =>
    [set.latchOp source.payload, set.copyOp r.ram r.scratch0, set.latchOp dest.payload,
      set.copyOp r.scratch0 r.ram]
  | .ram, _ => [set.latchOp dest.payload, set.moveOp (.literal source.payload) constant r.ram]
  | _, .ram => [set.latchOp source.payload, set.copyOp r.ram dest.payload]
  | _, _ => [set.moveOp (.literal source.payload) constant dest.payload]

/-- A call: store the return address, then jump.  `serial` is that of the first instruction. -/
def callOps (serial : Nat) (entry : Target) : List Op :=
  [set.moveOp (.target (.after (serial + 1))) true set.registers.stack,
    set.jumpOp (.target entry) true]

/-- The return from a call. -/
def returnOp : Op := set.jumpOp (.literal set.registers.stack) false

/-- The jump over a block whose end is not known yet. -/
def skipOp : Op := set.jumpOp .pending true

end InstructionSet

end AccuAsm
