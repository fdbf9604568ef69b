import AccuAsm.InstructionSet.Basic

/-!
# Valid instruction sets

Flags and codes are summed, so they must not share bits: the flags are positive and
pairwise disjoint, neither the ALU group nor any code touches a flag, and codes of
one family differ.  `InstructionSet.validate` checks this in a fixed order and
reports the first thing that is wrong.
-/

namespace AccuAsm

/-- The two families of codes. -/
inductive CodeFamily where
  | operation
  | comparison
  deriving DecidableEq, Repr

/-- The name of a family in messages. -/
def CodeFamily.label : CodeFamily → Text
  | .operation => "alu operation"
  | .comparison => "condition"

/-- What is wrong with an instruction set. -/
inductive SetFault where
  /-- A flag is zero or negative. -/
  | flagNotPositive (flag : Text) (value : Int64)
  /-- A flag shares a bit with one before it. -/
  | flagOverlap (flag : Text) (value : Int64)
  /-- The ALU group shares a bit with a flag. -/
  | groupOverlap (value : Int64)
  /-- A code is negative. -/
  | negativeCode (family : CodeFamily) (name : Text) (code : Int64)
  /-- A code shares a bit with a flag. -/
  | codeOverlap (family : CodeFamily) (name : Text) (code : Int64)
  /-- Two names have the same code. -/
  | sharedCode (family : CodeFamily) (name : Text) (code : Int64) (other : Text)
  /-- There is no comparison. -/
  | noConditions
  deriving DecidableEq, Repr

/-- The fault in words. -/
def SetFault.message : SetFault → Text
  | .flagNotPositive flag value =>
    "flag " ++ flag ++ " must be a positive bit mask, got " ++ Numeral.ofWord value
  | .flagOverlap flag value =>
    "flag " ++ flag ++ " (" ++ Numeral.binary value ++ ") overlaps another flag"
  | .groupOverlap value => "alu group " ++ Numeral.binary value ++ " overlaps a flag"
  | .negativeCode family name code =>
    family.label ++ " " ++ name ++ " has negative code " ++ Numeral.ofWord code
  | .codeOverlap family name code =>
    family.label ++ " " ++ name ++ " (" ++ Numeral.binary code ++ ") overlaps a flag bit"
  | .sharedCode family name code other =>
    family.label ++ " " ++ name ++ " shares code " ++ Numeral.ofWord code ++ " with " ++ other
  | .noConditions => "condition table is empty"

namespace InstructionSet

/-- Check one flag against the bits of those before it; the result is all bits so far. -/
def checkFlag (used : Int64) (flag : Text × Int64) : Except SetFault Int64 :=
  if flag.2 ≤ 0 then .error (.flagNotPositive flag.1 flag.2)
  else if used &&& flag.2 ≠ 0 then .error (.flagOverlap flag.1 flag.2)
  else .ok (used ||| flag.2)

/-- Check the codes of a family in order against the flags and against those before them, which
`seen` lists with their names, the latest first. -/
def checkCodes (family : CodeFamily) (bits : Int64) (seen : List (Int64 × Text)) :
    List (Text × Int64) → Except SetFault Unit
  | [] => .ok ()
  | (name, code) :: rest =>
    if code < 0 then .error (.negativeCode family name code)
    else if code &&& bits ≠ 0 then .error (.codeOverlap family name code)
    else match seen.lookup code with
      | some other => .error (.sharedCode family name code other)
      | none => checkCodes family bits ((code, name) :: seen) rest

/-- Whether opcodes can be composed from the set, or the first thing that is wrong. -/
def validate (set : InstructionSet) : Except SetFault Unit := do
  let bits ← set.flags.foldlM checkFlag 0
  if set.alu &&& bits ≠ 0 then
    throw (.groupOverlap set.alu)
  checkCodes .operation bits [] set.operations
  if set.conditions.entries.isEmpty then
    throw .noConditions
  checkCodes .comparison bits [] set.conditions.entries

end InstructionSet

end AccuAsm
