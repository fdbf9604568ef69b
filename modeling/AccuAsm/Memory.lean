import AccuAsm.Diagnostic
import AccuAsm.Value

/-!
# RAM cells

Variables live in a pool of RAM cells.  A new variable gets the lowest cell that
nobody holds, and cells are never given back.
-/

namespace AccuAsm

/-- The RAM cells that have been handed out, the latest first. -/
structure Memory where
  /-- The indices of the cells in use. -/
  taken : List Nat := []
  deriving DecidableEq, Repr

namespace Memory

/-- The number of cells in the pool. -/
def capacity : Nat := 255

/-- The number of cells in use. -/
def used (m : Memory) : Nat := m.taken.length

/-- The number of cells left. -/
def free (m : Memory) : Nat := capacity - m.used

/-- Whether a cell is in use; nothing outside the pool ever is. -/
def occupied (m : Memory) (index : Int) : Bool := 0 ≤ index && m.taken.contains index.toNat

/-- The lowest cell that is not in use; with all cells handed out there is nothing to look for. -/
def lowestFree? (m : Memory) : Option Nat :=
  if capacity ≤ m.used then none
  else (List.range capacity).find? fun index => !m.taken.contains index

/-- The cell that the next variable gets. -/
def next (m : Memory) : Except Diagnostic Nat :=
  match m.lowestFree? with
  | some index => .ok index
  | none => .error { complaint := .memoryFull capacity }

/-- The memory after a cell has been handed out. -/
def take (m : Memory) (index : Nat) : Memory := { taken := index :: m.taken }

/-- The value of a cell. -/
def cell (index : Nat) : Value := .cell (Int64.ofNat index)

end Memory

end AccuAsm
