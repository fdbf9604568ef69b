import AccuAsm.Numeral

/-!
# Operand values

Where an operand lives and the number that goes with it: the constant itself, or
the index of a register or a RAM cell.
-/

namespace AccuAsm

/-- The addressing modes. -/
inductive Kind where
  /-- The number is the operand. -/
  | immediate
  /-- The number of a register. -/
  | register
  /-- The number of a RAM cell. -/
  | ram
  /-- A code that no mode has; it is handled like a register. -/
  | other (code : Int64)
  deriving DecidableEq, Repr

namespace Kind

/-- The mode with a code. -/
def ofCode (code : Int64) : Kind :=
  if code = 0 then .immediate
  else if code = 1 then .register
  else if code = 2 then .ram
  else .other code

/-- The short name of a mode. -/
def label : Kind → Text
  | .immediate => "imm"
  | .register => "reg"
  | .ram => "ram"
  | .other code => "Kind(" ++ Numeral.ofWord code ++ ")"

/-- The mark in front of the number in the source. -/
def sigil : Kind → Text
  | .register => "~"
  | .ram => "&"
  | .immediate | .other _ => ""

end Kind

/-- An operand: its addressing mode and its number. -/
structure Value where
  /-- The addressing mode. -/
  kind : Kind
  /-- The constant, or the index of the register or cell. -/
  payload : Int64
  deriving DecidableEq, Repr

namespace Value

/-- A constant. -/
def immediate (n : Int64) : Value := ⟨.immediate, n⟩

/-- A register. -/
def register (n : Int64) : Value := ⟨.register, n⟩

/-- A RAM cell. -/
def cell (n : Int64) : Value := ⟨.ram, n⟩

/-- Whether a result can be stored there. -/
def writable (v : Value) : Bool := v.kind ≠ .immediate

/-- The operand as it is written in the source. -/
def token (v : Value) : Text := v.kind.sigil ++ Numeral.ofWord v.payload

/-- The operand with its mode spelled out. -/
def describe (v : Value) : Text := v.kind.label ++ "(" ++ Numeral.ofWord v.payload ++ ")"

end Value

end AccuAsm
