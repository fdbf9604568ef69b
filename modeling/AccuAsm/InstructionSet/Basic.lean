import AccuAsm.Dictionary
import AccuAsm.Numeral

/-!
# Instruction sets

The numbers from which opcodes are composed: flag bits, the codes of the ALU
operations, the codes of the comparisons under their keywords, and the registers
with a fixed role.  An opcode is a sum of one group, one code and some flags.
-/

namespace AccuAsm

/-- The registers with a fixed role. -/
structure Registers where
  /-- Reads and writes the RAM cell that the latch selects. -/
  ram : Int64
  /-- Holds the return address of a call. -/
  stack : Int64
  /-- The program counter. -/
  counter : Int64
  /-- Selects the RAM cell. -/
  latch : Int64
  /-- Holds the first source when it comes from RAM. -/
  scratch0 : Int64
  /-- Holds the second source when it comes from RAM. -/
  scratch1 : Int64
  /-- The low word of a result. -/
  resultLow : Int64
  /-- The high word of a result. -/
  resultHigh : Int64
  /-- Switches segments. -/
  segmentToggle : Int64
  /-- The stack of the user. -/
  userStack : Int64
  /-- Input and output. -/
  io : Int64
  deriving DecidableEq, Repr

/-- The numbers that describe a CPU. -/
structure InstructionSet where
  /-- The first source is a constant. -/
  immediate0 : Int64
  /-- The second source is a constant. -/
  immediate1 : Int64
  /-- The high word of the result is wanted. -/
  wordHigh : Int64
  /-- The group of the ALU operations. -/
  alu : Int64
  /-- The group of the comparisons. -/
  condition : Int64
  /-- The comparison jumps. -/
  jump : Int64
  /-- Copies the first source. -/
  move : Int64
  /-- Adds. -/
  add : Int64
  /-- Subtracts. -/
  subtract : Int64
  /-- Multiplies. -/
  multiply : Int64
  /-- Divides. -/
  divide : Int64
  /-- The comparisons by keyword. -/
  conditions : Dictionary Int64
  /-- The registers. -/
  registers : Registers
  deriving DecidableEq, Repr

namespace InstructionSet

/-- The comparisons of the reference CPU. -/
def standardConditions : Dictionary Int64 :=
  .ofList [("EQ", 0), ("NEQ", 1), ("SM", 2), ("SMEQ", 3), ("GR", 4), ("GREQ", 5), ("ALW", 6),
    ("NVR", 7)]

/-- The registers of the reference CPU. -/
def standardRegisters : Registers where
  ram := 0
  stack := 1
  counter := 2
  latch := 3
  scratch0 := 4
  scratch1 := 5
  resultLow := 6
  resultHigh := 7
  segmentToggle := 8
  userStack := 11
  io := 12

/-- The reference CPU. -/
def standard : InstructionSet where
  immediate0 := 128
  immediate1 := 64
  wordHigh := 32
  alu := 0
  condition := 16
  jump := 8
  move := 0
  add := 1
  subtract := 2
  multiply := 3
  divide := 4
  conditions := standardConditions
  registers := standardRegisters

/-- The code of a comparison keyword. -/
def conditionCode? (set : InstructionSet) (keyword : Text) : Option Int64 :=
  set.conditions.find? keyword

/-- The comparison keywords in ascending order. -/
def conditionKeywords (set : InstructionSet) : List Text := set.conditions.names

/-- The flags that must not overlap, with the names that messages use. -/
def flags (set : InstructionSet) : List (Text × Int64) :=
  [("immediate0", set.immediate0), ("immediate1", set.immediate1), ("word_high", set.wordHigh),
    ("condition", set.condition), ("jump", set.jump)]

/-- The ALU operations in the order of their names. -/
def operations (set : InstructionSet) : List (Text × Int64) :=
  [("add", set.add), ("divide", set.divide), ("move", set.move), ("multiply", set.multiply),
    ("subtract", set.subtract)]

end InstructionSet

end AccuAsm
