import AccuAsm.Dictionary
import AccuAsm.Literal
import AccuAsm.Value

/-!
# Scopes

The names that are bound at each place of a program.  A scope belongs to the
program itself or to one definition; it sees the names of the scope around it.
Scopes are never removed, so a scope is known by its position in creation order.

* `ScopeTable.chain`: a scope and the scopes around it, the nearest first;
* `ScopeTable.lookup`: the nearest binding of a name;
* `ScopeTable.resolve`: the value of an operand token.
-/

namespace AccuAsm

/-- The value that an operand token other than a variable denotes. -/
def Value.ofToken (token : Text) : Except Diagnostic Value :=
  match token.stripPrefix? "&" with
  | some number => return .cell (Int64.ofInt (← Literal.parse number))
  | none =>
    match token.stripPrefix? "~" with
    | some number => return .register (Int64.ofInt (← Literal.parse number))
    | none => return .immediate (Int64.ofInt (← Literal.parse token))

/-- One scope: its name, the scope around it, and the names bound directly in it. -/
structure Scope where
  /-- The name, unique in a table. -/
  name : Text
  /-- The position of the scope around it. -/
  parent : Option Nat
  /-- The names bound directly in it. -/
  bindings : Dictionary Value := {}
  /-- The checksum of the name.  Names of nested scopes are long and start alike, so a search
  looks at this first. -/
  checksum : Nat := name.checksum
  /-- The checksum belongs to the name. -/
  checksum_eq : checksum = name.checksum := by rfl
  deriving DecidableEq, Repr

/-- A scope in which nothing is bound yet. -/
def Scope.fresh (name : Text) (parent : Option Nat) : Scope where
  name := name
  parent := parent

/-- A scope with the checksum of another name has another name. -/
theorem Scope.checksum_beq_and (s : Scope) (name : Text) :
    (s.checksum == name.checksum && s.name == name) = (s.name == name) := by
  by_cases h : s.name = name
  · simp [s.checksum_eq, h]
  · simp [h]

/-- All scopes of a program in creation order, and the one that statements work in. -/
structure ScopeTable where
  /-- The scopes. -/
  scopes : Array Scope
  /-- The position of the current scope. -/
  current : Nat
  deriving DecidableEq, Repr

namespace ScopeTable

/-- The name of the outermost scope. -/
def globalName : Text := "global"

/-- The position of the outermost scope. -/
def root : Nat := 0

/-- The table with the outermost scope alone. -/
def initial : ScopeTable where
  scopes := #[.fresh globalName none]
  current := root

/-- The number of scopes. -/
def size (t : ScopeTable) : Nat := t.scopes.size

/-- The name of a scope. -/
def nameOf (t : ScopeTable) (scope : Nat) : Text := (t.scopes[scope]?.map (·.name)).getD []

/-- The name of the current scope. -/
def currentName (t : ScopeTable) : Text := t.nameOf t.current

/-- The position of the scope with a name. -/
def find? (t : ScopeTable) (name : Text) : Option Nat :=
  let checksum := name.checksum
  t.scopes.findIdx? fun s => s.checksum == checksum && s.name == name

theorem find?_eq (t : ScopeTable) (name : Text) :
    t.find? name = t.scopes.findIdx? (·.name == name) := by
  simp only [find?, Scope.checksum_beq_and]

/-- The name of the scope that a definition opens inside another scope. -/
def childName (parent : Option Text) (name : Text) : Text :=
  match parent with
  | some outer => outer ++ "." ++ name
  | none => name

/-- Open a scope inside `parent`; its position is the old size of the table. -/
def add (t : ScopeTable) (name : Text) (parent : Option Nat) : Except Diagnostic ScopeTable :=
  match t.find? name with
  | some _ => .error { complaint := .scopeExists, token := name }
  | none => .ok { t with scopes := t.scopes.push (.fresh name parent) }

/-- Make another scope the current one. -/
def select (t : ScopeTable) (scope : Nat) : ScopeTable := { t with current := scope }

/-- The scope at a position and those around it, the nearest first. -/
def chain (t : ScopeTable) (scope : Nat) : List Nat :=
  match t.scopes[scope]? with
  | none => []
  | some s =>
    scope :: match s.parent with
      | none => []
      | some outer => if outer < scope then t.chain outer else []
termination_by scope

/-- The binding of a name in one scope alone. -/
def lookupIn (t : ScopeTable) (scope : Nat) (name : Text) : Option Value :=
  t.scopes[scope]? >>= (·.bindings.find? name)

/-- The binding of a name in a scope; with `parents`, the nearest one of its chain. -/
def lookup (t : ScopeTable) (scope : Nat) (name : Text) (parents : Bool) : Option Value :=
  if parents then (t.chain scope).findSome? (t.lookupIn · name) else t.lookupIn scope name

/-- Whether a look-up finds the name. -/
def bound (t : ScopeTable) (scope : Nat) (name : Text) (parents : Bool) : Bool :=
  (t.lookup scope name parents).isSome

/-- Change the bindings of one scope. -/
def modifyBindings (t : ScopeTable) (scope : Nat)
    (change : Dictionary Value → Dictionary Value) : ScopeTable :=
  { t with scopes := t.scopes.modify scope fun s => { s with bindings := change s.bindings } }

/-- Bind a name in one scope, over a binding it may have there. -/
def declare (t : ScopeTable) (scope : Nat) (name : Text) (value : Value) : ScopeTable :=
  t.modifyBindings scope (·.insert name value)

/-- Drop a name from one scope. -/
def remove (t : ScopeTable) (scope : Nat) (name : Text) : ScopeTable :=
  t.modifyBindings scope (·.erase name)

/-- The names bound directly in a scope, in ascending order. -/
def names (t : ScopeTable) (scope : Nat) : List Text :=
  (t.scopes[scope]?.map (·.bindings.names)).getD []

/-- The value that an operand token denotes in a scope. -/
def resolve (t : ScopeTable) (scope : Nat) (token : Text) (parents : Bool) :
    Except Diagnostic Value :=
  match token.stripPrefix? "$" with
  | some name =>
    match t.lookup scope name parents with
    | some value => .ok value
    | none => .error { complaint := .undeclared name, token }
  | none => Value.ofToken token

/-- One line of a dump: a name, padded, and its value. -/
def dumpEntry (entry : Text × Value) : Text :=
  "  " ++ entry.1.padRight 20 ++ "  " ++ entry.2.kind.label.padRight 4 ++ " " ++
    Numeral.ofWord entry.2.payload ++ "\n"

/-- The lines of one scope in a dump; the current scope carries a mark. -/
def dumpScope (t : ScopeTable) (scope : Scope) (position : Nat) : Text :=
  let outer : Text := match scope.parent with
    | some parent => t.nameOf parent
    | none => "-"
  let mark : Text := if position = t.current then " *" else ""
  let rows : Text :=
    if scope.bindings.entries.isEmpty then "  (empty)\n"
    else scope.bindings.entries.flatMap dumpEntry
  "Scope " ++ scope.name ++ " (parent: " ++ outer ++ ")" ++ mark ++ "\n" ++ rows

/-- All scopes in creation order, with their names in ascending order. -/
def dump (t : ScopeTable) : Text :=
  t.scopes.toList.zipIdx.flatMap fun (scope, position) => t.dumpScope scope position

end ScopeTable

end AccuAsm
