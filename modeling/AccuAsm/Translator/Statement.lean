import AccuAsm.Translator.Basic

/-!
# Statements

What each statement does, step by step, and the operations that it emits.  A step may
refuse the statement, and what the steps in front of it have changed stays changed then.
Checks run in a fixed order, which decides what is reported when several things are
wrong.
-/

namespace AccuAsm

/-- A step of a statement: a result or a fault, and the state behind it.  A fault does not undo the
changes that were made before it. -/
abbrev Step (α : Type) := ExceptT Fault (StateM Translator) α

namespace Step

variable {α : Type}

/-- The result of a step on a state, and the state behind it. -/
def on (step : Step α) (t : Translator) : Except Fault α × Translator := ExceptT.run step t

/-- Refuse the statement. -/
def refuse (d : Diagnostic) : Step α := throw (.rejected d)

/-- Go on with the result of a check, or refuse the statement. -/
def check : Except Diagnostic α → Step α
  | .ok a => pure a
  | .error d => refuse d

/-- Go on if something holds, or refuse the statement. -/
def require (c : Bool) (d : Diagnostic) : Step Unit := if c then pure () else refuse d

/-- Bind a name in the current scope. -/
def declare (name : Text) (value : Value) : Step Unit := modify (·.bind name value)

/-- Hand out a RAM cell. -/
def allocate : Step Value := do
  let t ← get
  let index ← check t.memory.next
  modify ({ · with memory := t.memory.take index })
  return Memory.cell index

/-- Write the jump over a block that the statement at `line` opens. -/
def draftSkip (line : Int) (comment : Text) : Step Instr := do
  let t ← get
  modify ({ · with nextSerial := t.nextSerial + 1 })
  return t.skip line comment

/-- Open a definition. -/
def enterDefinition (d : Definition) : Step Unit := do
  let t ← get
  let definitions ← check (t.definitions.enter d)
  modify ({ · with definitions })

/-- Close the innermost definition. -/
def leaveDefinition : Step Definition := do
  let t ← get
  let (definition, definitions) ← check t.definitions.leave
  modify ({ · with definitions })
  return definition

/-- Open a condition. -/
def enterCondition (c : Condition) : Step Unit :=
  modify fun t => { t with conditions := t.conditions.enter c }

/-- Close the innermost condition. -/
def leaveCondition : Step Condition := do
  let t ← get
  let (condition, conditions) ← check t.conditions.leave
  modify ({ · with conditions })
  return condition

/-- Open a scope inside the current one. -/
def addScope (name : Text) : Step Unit := do
  let t ← get
  let scopes ← check (t.scopes.add name (some t.scope))
  modify ({ · with scopes })

/-- Make another scope the current one. -/
def selectScope (scope : Nat) : Step Unit :=
  modify fun t => { t with scopes := t.scopes.select scope }

/-- Put an instruction at an index of the program. -/
def place (site : Int) (i : Instr) : Step Unit := do
  let t ← get
  match t.program.insert site i with
  | .ok program => modify ({ · with program })
  | .error m => throw (.misplaced m)

end Step

namespace Translator

open Step

/-- Too few operands behind a keyword. -/
def tooFew (keyword : Text) (expected : Nat) (operands : List Text) : Diagnostic where
  complaint := .tooFewOperands expected operands.length
  token := keyword

/-- The value of an operand that a result is written to. -/
def destination (t : Translator) (token : Text) : Except Diagnostic Value := do
  let value ← t.resolve token
  if value.writable then return value
  else throw { complaint := .constantDestination, token }

/-! ## Names -/

/-- `CONST name literal` -/
def constant (keyword : Text) (operands : List Text) : Step (List Op) :=
  match operands with
  | name :: literal :: _ => do
    let t ← get
    check (t.checkName name)
    let n ← check (Literal.parse literal)
    require (!t.visible name) { complaint := .constantExists name, token := name }
    declare name (.immediate (Int64.ofInt n))
    return []
  | _ => refuse (tooFew keyword 2 operands)

/-- The destination of an assignment.  A variable that is not visible is created: it gets a RAM
cell and is bound in the current scope. -/
def assignee (token : Text) : Step Value := do
  let t ← get
  match token.stripPrefix? "$" with
  | none => check (t.destination token)
  | some name =>
    if t.visible name then check (t.destination token)
    else do
      check (t.checkName name)
      let value ← allocate
      declare name value
      return value

/-- `SET dest src` -/
def assign (keyword : Text) (operands : List Text) : Step (List Op) :=
  match operands with
  | dest :: source :: _ => do
    let t ← get
    let value ← check (t.resolve source)
    let place ← assignee dest
    return t.set.assignOps place value
  | _ => refuse (tooFew keyword 2 operands)

/-- Refuse a name that may not be introduced, unless the current scope itself binds it already. -/
def checkAlias (t : Translator) (name : Text) : Except Diagnostic Unit :=
  if t.scopes.bound t.scope name false then .ok () else t.checkName name

/-- `SETADR $dest src` makes `dest` another name for the place of `src`. -/
def setAddress (keyword : Text) (operands : List Text) : Step (List Op) :=
  match operands with
  | dest :: source :: _ =>
    match dest.stripPrefix? "$" with
    | none => refuse { complaint := .aliasTarget, token := dest }
    | some name => do
      let t ← get
      let value ← check (t.resolve source)
      require (value.kind ≠ .immediate) { complaint := .aliasConstant, token := source }
      check (t.checkAlias name)
      declare name value
      return []
  | _ => refuse (tooFew keyword 2 operands)

/-- The name of a variable that the current scope itself binds. -/
def localName (t : Translator) (token : Text) : Except Diagnostic Text :=
  match token.stripPrefix? "$" with
  | none => .error { complaint := .unsetOperand, token }
  | some name =>
    if t.scopes.bound t.scope name false then .ok name
    else .error { complaint := .undeclaredIn name t.scopes.currentName, token }

/-- Drop a binding of the current scope. -/
def unbind (t : Translator) (name : Text) : Translator :=
  { t with scopes := t.scopes.remove t.scope name }

/-- `UNSET $a $b ...` drops bindings of the current scope. -/
def unset (keyword : Text) (operands : List Text) : Step (List Op) :=
  if operands.isEmpty then refuse (tooFew keyword 1 operands)
  else do
    let t ← get
    let names ← check (operands.mapM t.localName)
    names.forM fun name => modify (·.unbind name)
    return []

/-! ## Arithmetic and comparisons -/

/-- The values of two sources and a destination. -/
def operands3 (t : Translator) (a b dest : Text) : Except Diagnostic (Value × Value × Value) := do
  let left ← t.resolve a
  let right ← t.resolve b
  return (left, right, ← t.destination dest)

/-- `ADD a b dest` and `SUB a b dest` -/
def arithmetic (t : Translator) (keyword : Text) (operation : Int64) (operands : List Text) :
    Except Diagnostic (List Op) :=
  match operands with
  | a :: b :: dest :: _ => do
    let (left, right, place) ← t.operands3 a b dest
    return t.set.arithmeticOps operation 0 left right place
  | _ => .error (tooFew keyword 3 operands)

/-- `MUL LOW|HIGH a b dest` and `DIV LOW|HIGH a b dest` -/
def wideArithmetic (t : Translator) (keyword : Text) (operation : Int64) (operands : List Text) :
    Except Diagnostic (List Op) :=
  match operands with
  | selector :: a :: b :: dest :: _ => do
    let high ← Selector.parse selector
    let (left, right, place) ← t.operands3 a b dest
    return t.set.arithmeticOps operation (if high then t.set.wordHigh else 0) left right place
  | _ => .error (tooFew keyword 4 operands)

/-- A comparison as a statement: the result is stored. -/
def comparison (t : Translator) (keyword : Text) (code : Int64) (operands : List Text) :
    Except Diagnostic (List Op) :=
  match operands with
  | a :: b :: dest :: _ => do
    let (left, right, place) ← t.operands3 a b dest
    return t.set.compareOps code left right place
  | _ => .error (tooFew keyword 3 operands)

/-- A comparison as the head of an IF: a jump to a place when it holds. -/
def branch (t : Translator) (keyword : Text) (code : Int64) (operands : List Text)
    (place : Operand) : Except Diagnostic (List Op) :=
  match operands with
  | a :: b :: _ => do
    let left ← t.resolve a
    let right ← t.resolve b
    return t.set.branchOps code left right place
  | _ => .error (tooFew keyword 2 operands)

/-! ## Blocks -/

/-- The definition that the statement at `line` opens. -/
def newDefinition (t : Translator) (line : Int) (name : Text) (skip : Instr) : Definition :=
  { Definition.new name t.program.size skip with
    line
    scope := t.scopes.size
    conditionDepth := t.conditions.depth }

/-- The name of the scope that a definition opens. -/
def bodyName (t : Translator) (name : Text) : Text :=
  ScopeTable.childName (some t.scopes.currentName) name

/-- `DEF name` opens a callable block and a scope for its body. -/
def define (line : Line) (keyword : Text) (operands : List Text) : Step (List Op) :=
  match operands with
  | name :: _ => do
    let t ← get
    check (t.checkName name)
    require (!t.definitions.contains name) { complaint := .definitionExists, token := name }
    require (t.scopes.find? (t.bodyName name)).isNone
      { complaint := .scopeExists, token := t.bodyName name }
    let skip ← draftSkip line.number ("skip DEF " ++ name)
    enterDefinition (t.newDefinition line.number name skip)
    addScope (t.bodyName name)
    selectScope t.scopes.size
    return []
  | _ => refuse (tooFew keyword 1 operands)

/-- The place of the scope around a definition's body. -/
def outerScope (t : Translator) (d : Definition) : Nat :=
  (t.scopes.scopes[d.scope]? >>= (·.parent)).getD ScopeTable.root

/-- `ENDDEF` returns from the body through the stack register.  The jump over the block lands
behind the return. -/
def endDefine : Step (List Op) := do
  let t ← get
  match t.definitions.current? with
  | none => refuse Definitions.noneOpen
  | some d =>
    require (t.conditions.depth = d.conditionDepth)
      { complaint := .conditionOpen d.name, token := Keyword.endDefine.spelling }
    let definition ← leaveDefinition
    place definition.site (definition.skip.fill (.after t.nextSerial))
    selectScope (t.outerScope definition)
    return [t.set.returnOp]

/-- `CALL name` stores the return address and jumps into the block. -/
def call (t : Translator) (keyword : Text) (operands : List Text) : Except Diagnostic (List Op) :=
  match operands with
  | name :: _ => do
    let definition ← t.definitions.find name
    return t.set.callOps t.nextSerial definition.entry
  | _ => .error (tooFew keyword 1 operands)

/-- The condition that the statement at `line` opens, `size` being the length of its head. -/
def newCondition (t : Translator) (line : Int) (size : Nat) (skip : Instr) : Condition where
  site := t.program.size + size
  skip := skip
  line := line
  definitionDepth := t.definitions.depth

/-- `IF comparison a b` opens a conditional block.  The head jumps behind the jump over the block,
which is placed when the block closes. -/
def condition (line : Line) (keyword : Text) (operands : List Text) : Step (List Op) :=
  match operands with
  | [] => refuse { complaint := .noComparison, token := keyword }
  | comparison :: operands => do
    let t ← get
    match t.set.conditionCode? comparison with
    | none => refuse { complaint := .notComparison t.set.conditionKeywords, token := comparison }
    | some code =>
      let head ← check (t.branch comparison code operands .pending)
      let skip ← draftSkip line.number "skip IF"
      enterCondition (t.newCondition line.number head.length skip)
      return head.map (·.fill (.after skip.serial))

/-- The instruction behind which a condition ends: the last one of the program, or the jump over the
block if the body is empty. -/
def lastOf (t : Translator) (c : Condition) : Nat :=
  if c.site = t.program.size then c.skip.serial
  else (t.program.last?.map (·.serial)).getD c.skip.serial

/-- `ENDIF`.  The jump over the block lands behind the last instruction of the program, which is
the jump itself if the body is empty. -/
def endCondition : Step (List Op) := do
  let t ← get
  match t.conditions.current? with
  | none => refuse Conditions.noneOpen
  | some c =>
    require (t.definitions.depth = c.definitionDepth)
      { complaint := .definitionOpen c.line, token := Keyword.endCondition.spelling }
    let condition ← leaveCondition
    place condition.site (condition.skip.fill (.after (t.lastOf condition)))
    return []

/-! ## Dispatch -/

/-- The operations of a statement that changes nothing but the program. -/
def plain (outcome : Translator → Except Diagnostic (List Op)) : Step (List Op) := do
  check (outcome (← get))

/-- Translate a statement that starts with a keyword. -/
def perform (line : Line) (keyword : Text) (operands : List Text) : Keyword → Step (List Op)
  | .constant => constant keyword operands
  | .assign => assign keyword operands
  | .setAddress => setAddress keyword operands
  | .unset => unset keyword operands
  | .add => plain fun t => t.arithmetic keyword t.set.add operands
  | .subtract => plain fun t => t.arithmetic keyword t.set.subtract operands
  | .multiply => plain fun t => t.wideArithmetic keyword t.set.multiply operands
  | .divide => plain fun t => t.wideArithmetic keyword t.set.divide operands
  | .define => define line keyword operands
  | .endDefine => endDefine
  | .call => plain (·.call keyword operands)
  | .condition => condition line keyword operands
  | .endCondition => endCondition

/-- Translate a statement by its first field.  Comparisons of the instruction set come first;
a line that starts with an unknown word does nothing. -/
def process (line : Line) : Step (List Op) := do
  let t ← get
  match line.fields with
  | [] => return []
  | keyword :: operands =>
    match t.set.conditionCode? keyword with
    | some code => plain (·.comparison keyword code operands)
    | none =>
      match Keyword.ofText? keyword with
      | some k => perform line keyword operands k
      | none => return []

end Translator

end AccuAsm
