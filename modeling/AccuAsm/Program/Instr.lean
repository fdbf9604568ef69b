import AccuAsm.Diagnostic

/-!
# Instructions

An instruction is an opcode with two sources and a destination.  While a program
is being built an operand may name another instruction instead of a number: jumps
over a block that is not closed yet cannot know its address.  Every instruction
therefore carries a serial number that stays with it wherever it moves.

A `Word` is an instruction whose operands are all numbers.
-/

namespace AccuAsm

/-- The operand fields of an instruction: two sources and a destination. -/
structure Args (α : Type) where
  /-- The first source. -/
  left : α
  /-- The second source. -/
  right : α
  /-- The destination. -/
  dest : α
  deriving DecidableEq, Repr

namespace Args

variable {α β : Type}

/-- Change every field. -/
def map (f : α → β) (args : Args α) : Args β := ⟨f args.left, f args.right, f args.dest⟩

/-- The fields in order. -/
def toList (args : Args α) : List α := [args.left, args.right, args.dest]

/-- Change every field, from left to right, if all changes succeed. -/
def mapM {ε : Type} (f : α → Except ε β) (args : Args α) : Except ε (Args β) := do
  let left ← f args.left
  let right ← f args.right
  let dest ← f args.dest
  return ⟨left, right, dest⟩

end Args

/-- A place in the program: so many instructions behind the one with a serial number. -/
structure Target where
  /-- The serial number of the instruction to count from. -/
  anchor : Nat
  /-- How many instructions behind it. -/
  offset : Int64
  deriving DecidableEq, Repr

/-- The place right behind an instruction. -/
def Target.after (serial : Nat) : Target := ⟨serial, 1⟩

/-- An operand of an instruction that is being built. -/
inductive Operand where
  /-- A number. -/
  | literal (n : Int64)
  /-- The address of a place in the program. -/
  | target (place : Target)
  /-- An address that is not known yet. -/
  | pending
  deriving DecidableEq, Repr

namespace Operand

/-- Whether an address is still missing. -/
def isPending : Operand → Bool
  | .pending => true
  | _ => false

/-- The operand with a place filled in where an address is missing. -/
def fill (place : Target) : Operand → Operand
  | .pending => .target place
  | operand => operand

end Operand

/-- One line of output: numbers in text, and a comment if there is one. -/
def renderFields (opcode : Int64) (args : Args Text) (comment : Text) : Text :=
  Numeral.ofWord opcode ++ args.toList.flatMap (Text.space :: ·) ++
    (if comment.isEmpty then [] else Text.ofString " ; " ++ comment)

/-- An instruction of a program that is being built. -/
structure Instr where
  /-- The number by which other instructions refer to it. -/
  serial : Nat
  /-- The operation. -/
  opcode : Int64
  /-- The operands. -/
  args : Args Operand
  /-- The source line that it came from. -/
  line : Int := 0
  /-- A remark for the listing. -/
  comment : Text := []
  deriving DecidableEq, Repr

namespace Instr

/-- Whether an address is still missing. -/
def isPending (i : Instr) : Bool := i.args.toList.any Operand.isPending

/-- The instruction with every missing address filled in. -/
def fill (i : Instr) (place : Target) : Instr := { i with args := i.args.map (·.fill place) }

end Instr

/-- A finished instruction. -/
structure Word where
  /-- The operation. -/
  opcode : Int64
  /-- The operands. -/
  args : Args Int64
  /-- The source line that it came from. -/
  line : Int := 0
  /-- A remark for the listing. -/
  comment : Text := []
  deriving DecidableEq, Repr

namespace Word

/-- The four numbers of a word in the order of the image. -/
def fields (w : Word) : List Int64 := w.opcode :: w.args.toList

/-- The line of a listing. -/
def text (w : Word) : Text := renderFields w.opcode (w.args.map Numeral.ofWord) w.comment

end Word

end AccuAsm
