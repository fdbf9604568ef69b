import AccuAsm.Json.Token

/-!
# Reading JSON

The tokens of a text are run through a machine with a stack: one frame for each
array or object that is open.  The depth of the stack is limited.
-/

namespace AccuAsm.Json

/-- An array or object that is open; what it holds so far is in reverse. -/
inductive Frame where
  | items (done : List Json)
  | members (done : List (Text × Json))
  /-- An object in front of the value of `key`. -/
  | member (done : List (Text × Json)) (key : Text)

/-- What the machine waits for. -/
inductive Stage where
  /-- A value. -/
  | value
  /-- A value, or the end of an array that has just been opened. -/
  | firstItem
  /-- A key, or the end of an object that has just been opened. -/
  | firstKey
  /-- A key. -/
  | key
  /-- The colon behind a key. -/
  | colon (key : Text)
  /-- A separator or the end of the innermost array or object. -/
  | separator
  /-- Nothing: the value is complete. -/
  | complete (value : Json)

/-- The machine between two tokens. -/
structure Reader where
  /-- The open arrays and objects, the innermost first. -/
  stack : List Frame := []
  /-- What comes next. -/
  stage : Stage := .value

namespace Reader

/-- How many arrays and objects may be open at once. -/
def depthLimit : Nat := 10000

/-- Put a complete value into the innermost open array or object. -/
def put (stack : List Frame) (value : Json) : Option Reader :=
  match stack with
  | [] => some { stack := [], stage := .complete value }
  | .items done :: rest => some { stack := .items (value :: done) :: rest, stage := .separator }
  | .member done key :: rest =>
    some { stack := .members ((key, value) :: done) :: rest, stage := .separator }
  | .members _ :: _ => none

/-- Open an array or object. -/
def push (stack : List Frame) (frame : Frame) (stage : Stage) : Option Reader :=
  if stack.length < depthLimit then some { stack := frame :: stack, stage } else none

/-- Close the innermost array. -/
def closeArray : List Frame → Option Reader
  | .items done :: rest => put rest (.array done.reverse)
  | _ => none

/-- Close the innermost object. -/
def closeObject : List Frame → Option Reader
  | .members done :: rest => put rest (.object done.reverse)
  | _ => none

/-- A token where a value is wanted. -/
def value (stack : List Frame) : Token → Option Reader
  | .scalar v => put stack v
  | .string content => put stack (.string content)
  | .openBracket => push stack (.items []) .firstItem
  | .openBrace => push stack (.members []) .firstKey
  | _ => none

/-- The machine after one token. -/
def step (r : Reader) (token : Token) : Option Reader :=
  match r.stage, token with
  | .value, token => value r.stack token
  | .firstItem, .closeBracket => closeArray r.stack
  | .firstItem, token => value r.stack token
  | .firstKey, .closeBrace => closeObject r.stack
  | .firstKey, .string key => some { r with stage := .colon key }
  | .key, .string key => some { r with stage := .colon key }
  | .colon key, .colon =>
    match r.stack with
    | .members done :: rest => some { stack := .member done key :: rest, stage := .value }
    | _ => none
  | .separator, .comma =>
    match r.stack with
    | .items _ :: _ => some { r with stage := .value }
    | .members _ :: _ => some { r with stage := .key }
    | _ => none
  | .separator, .closeBracket => closeArray r.stack
  | .separator, .closeBrace => closeObject r.stack
  | _, _ => none

end Reader

/-- The value of a JSON text. -/
def parse? (text : Text) : Option Json := do
  let tokens ← Token.readAll text
  let final ← tokens.foldlM Reader.step {}
  match final.stage with
  | .complete value => some value
  | _ => none

end AccuAsm.Json
