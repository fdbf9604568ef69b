import AccuAsm.Program.Basic

/-!
# Workbench

Instructions are often written before it is known where they go.  A workbench
holds the drafts beside the program they are placed into; filling in an address of
a draft also fills it in wherever the draft has been placed.
-/

namespace AccuAsm

/-- Drafts, each under its serial number, and the program that they are placed into. -/
structure Workbench where
  /-- The drafts; the position is the serial number. -/
  drafts : Array Instr := #[]
  /-- The program. -/
  program : Program := {}
  deriving DecidableEq, Repr

namespace Workbench

/-- Add a draft; its serial number is the old number of drafts. -/
def draft (w : Workbench) (opcode : Int64) (args : Args Operand) (line : Int) (comment : Text) :
    Workbench :=
  { w with drafts := w.drafts.push { serial := w.drafts.size, opcode, args, line, comment } }

/-- Place drafts at the end of the program. -/
def append (w : Workbench) (serials : List Nat) : Workbench :=
  { w with program := w.program.append (serials.filterMap (w.drafts[·]?)) }

/-- Place a draft at an index. -/
def insert (w : Workbench) (site : Int) (i : Instr) : Except Misplacement Workbench := do
  let program ← w.program.insert site i
  return { w with program }

/-- Fill in the missing addresses of a draft and of its places in the program. -/
def fill (w : Workbench) (serial : Nat) (place : Target) : Workbench where
  drafts := w.drafts.modify serial (·.fill place)
  program := w.program.fill serial place

end Workbench

end AccuAsm
