import AccuAsm.Program.Instr

/-!
# Open and closed blocks

DEF opens a definition and IF a condition.  Both are closed in the reverse order,
each kind on a stack of its own.  A definition stays known after it is closed, so
that it can be called; a condition is forgotten.

The jump over a block is written when the block opens and placed when it closes.
-/

namespace AccuAsm

/-- A callable block. -/
structure Definition where
  /-- The name that CALL uses. -/
  name : Text
  /-- The index where the jump over the body goes when the block closes. -/
  site : Int
  /-- The jump over the body. -/
  skip : Instr
  /-- Where a call enters: right behind the jump. -/
  entry : Target
  /-- The line of the DEF. -/
  line : Int := 0
  /-- Whether ENDDEF has been met. -/
  closed : Bool := false
  /-- The position of the body's scope. -/
  scope : Nat := 0
  /-- The number of conditions that were open at the DEF. -/
  conditionDepth : Nat := 0
  deriving DecidableEq, Repr

/-- A block that has just been opened. -/
def Definition.new (name : Text) (site : Int) (skip : Instr) : Definition where
  name := name
  site := site
  skip := skip
  entry := .after skip.serial

/-- All definitions in the order of their DEFs, and the open ones among them. -/
structure Definitions where
  /-- The definitions. -/
  records : Array Definition := #[]
  /-- The positions of the open ones, the innermost first. -/
  stack : List Nat := []
  deriving DecidableEq, Repr

namespace Definitions

/-- The number of open definitions. -/
def depth (ds : Definitions) : Nat := ds.stack.length

/-- The definitions in order. -/
def all (ds : Definitions) : List Definition := ds.records.toList

/-- The innermost open definition. -/
def current? (ds : Definitions) : Option Definition := ds.stack.head? >>= (ds.records[·]?)

/-- The definition with a name, open or closed. -/
def find (ds : Definitions) (name : Text) : Except Diagnostic Definition :=
  match ds.records.find? (·.name == name) with
  | some d => .ok d
  | none => .error { complaint := .unknownDefinition, token := name }

/-- Whether a definition has the name. -/
def contains (ds : Definitions) (name : Text) : Bool := ds.records.any (·.name == name)

/-- Open a definition.  A name can be defined once only. -/
def enter (ds : Definitions) (d : Definition) : Except Diagnostic Definitions :=
  if ds.contains d.name then .error { complaint := .definitionExists, token := d.name }
  else .ok { records := ds.records.push d, stack := ds.records.size :: ds.stack }

/-- The words for closing a definition that is not there. -/
def noneOpen : Diagnostic := { complaint := .noOpenDefinition, token := "ENDDEF" }

/-- Close the innermost open definition. -/
def leave (ds : Definitions) : Except Diagnostic (Definition × Definitions) :=
  match ds.stack, ds.current? with
  | position :: rest, some d =>
    let d := { d with closed := true }
    .ok (d, { records := ds.records.modify position fun _ => d, stack := rest })
  | _, _ => .error noneOpen

end Definitions

/-- A conditional block that is open. -/
structure Condition where
  /-- The index where the jump over the body goes when the block closes. -/
  site : Int
  /-- The jump over the body. -/
  skip : Instr
  /-- The line of the IF. -/
  line : Int
  /-- The number of definitions that were open at the IF. -/
  definitionDepth : Nat := 0
  deriving DecidableEq, Repr

/-- Where the body of a condition starts: right behind the jump over it. -/
def Condition.body (c : Condition) : Target := .after c.skip.serial

/-- The open conditions, the innermost first. -/
structure Conditions where
  /-- The conditions. -/
  stack : List Condition := []
  deriving DecidableEq, Repr

namespace Conditions

/-- The number of open conditions. -/
def depth (cs : Conditions) : Nat := cs.stack.length

/-- The innermost open condition. -/
def current? (cs : Conditions) : Option Condition := cs.stack.head?

/-- Open a condition. -/
def enter (cs : Conditions) (c : Condition) : Conditions := { stack := c :: cs.stack }

/-- The words for closing a condition that is not there. -/
def noneOpen : Diagnostic := { complaint := .noOpenCondition, token := "ENDIF" }

/-- Close the innermost open condition. -/
def leave (cs : Conditions) : Except Diagnostic (Condition × Conditions) :=
  match cs.stack with
  | c :: rest => .ok (c, { stack := rest })
  | [] => .error noneOpen

end Conditions

end AccuAsm
