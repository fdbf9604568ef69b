import AccuAsm.Text.Quoted

/-!
# Diagnostics

Why a statement or a program was refused.  A `Complaint` is the cause, a
`Diagnostic` adds the token and the place in the source, and `Report.text` is the
one place where the wording of a whole message is decided.

The category of a complaint is what callers tell failures apart by; its note is
for the reader.
-/

namespace AccuAsm

/-- The kinds of failure. -/
inductive Category where
  | duplicateDefinition
  | duplicateScope
  | duplicateSymbol
  | unresolvedSymbol
  | malformedLiteral
  | outOfMemory
  | invalidDestination
  | notInDefinition
  | notInCondition
  | invalidContext
  | missingOperand
  | unterminatedBlock
  | invalidName
  deriving DecidableEq, Repr

namespace Category

/-- Every category. -/
def all : List Category :=
  [.duplicateDefinition, .duplicateScope, .duplicateSymbol, .unresolvedSymbol,
    .malformedLiteral, .outOfMemory, .invalidDestination, .notInDefinition, .notInCondition,
    .invalidContext, .missingOperand, .unterminatedBlock, .invalidName]

/-- The words for a category. -/
def label : Category → Text
  | .duplicateDefinition => "duplicate definition"
  | .duplicateScope => "duplicate scope"
  | .duplicateSymbol => "duplicate symbol"
  | .unresolvedSymbol => "unresolved symbol"
  | .malformedLiteral => "malformed literal"
  | .outOfMemory => "out of memory"
  | .invalidDestination => "invalid destination"
  | .notInDefinition => "not in definition"
  | .notInCondition => "not in condition"
  | .invalidContext => "invalid context"
  | .missingOperand => "missing operand"
  | .unterminatedBlock => "unterminated block"
  | .invalidName => "invalid name"

/-- The category with the given words. -/
def ofLabel? (text : Text) : Option Category := all.find? (·.label == text)

end Category

/-- The causes of a failure. -/
inductive Complaint where
  /-- A literal has no digits behind its base mark. -/
  | emptyLiteral
  /-- A sign stands in front of binary or hexadecimal digits. -/
  | signedLiteral (base : Nat)
  /-- The text is no number of the base, or too large. -/
  | notInteger (base : Nat)
  /-- No scope of the chain binds the variable. -/
  | undeclared (name : Text)
  /-- The current scope itself does not bind the variable. -/
  | undeclaredIn (name scope : Text)
  /-- UNSET was given something else than a variable. -/
  | unsetOperand
  /-- No definition has the name. -/
  | unknownDefinition
  /-- A definition with the name exists. -/
  | definitionExists
  /-- A scope with the name exists. -/
  | scopeExists
  /-- The name of a constant is already visible. -/
  | constantExists (name : Text)
  /-- Every RAM cell has been handed out. -/
  | memoryFull (cells : Nat)
  /-- A constant stands where a result is written. -/
  | constantDestination
  /-- SETADR was given something else than a variable to alias. -/
  | aliasTarget
  /-- SETADR was given a constant to point at. -/
  | aliasConstant
  /-- The name is no identifier, or a reserved word. -/
  | badName
  /-- The word selector of MUL or DIV is neither LOW nor HIGH. -/
  | badSelector
  /-- The statement has too few fields. -/
  | tooFewOperands (expected got : Nat)
  /-- ENDDEF without a DEF. -/
  | noOpenDefinition
  /-- ENDIF without an IF. -/
  | noOpenCondition
  /-- ENDDEF while an IF of the definition's body is open. -/
  | conditionOpen (definition : Text)
  /-- ENDIF while a DEF of the body is open; the IF stands on `line`. -/
  | definitionOpen (line : Int)
  /-- IF alone on its line. -/
  | noComparison
  /-- IF in front of something else than a comparison. -/
  | notComparison (keywords : List Text)
  /-- The source ends inside a definition. -/
  | definitionNotClosed
  /-- The source ends inside a condition. -/
  | conditionNotClosed
  /-- A placeholder is left in the instruction at `index`. -/
  | unfilled (index : Nat)
  /-- The instruction at `index` refers to one that is not in the program. -/
  | unplaced (index : Nat)
  deriving DecidableEq, Repr

namespace Complaint

/-- The category that a complaint belongs to. -/
def category : Complaint → Category
  | .emptyLiteral | .signedLiteral _ | .notInteger _ => .malformedLiteral
  | .undeclared _ | .undeclaredIn _ _ | .unsetOperand | .unknownDefinition => .unresolvedSymbol
  | .definitionExists => .duplicateDefinition
  | .scopeExists => .duplicateScope
  | .constantExists _ => .duplicateSymbol
  | .memoryFull _ => .outOfMemory
  | .constantDestination | .aliasTarget | .aliasConstant => .invalidDestination
  | .badName => .invalidName
  | .tooFewOperands _ _ => .missingOperand
  | .noOpenDefinition => .notInDefinition
  | .noOpenCondition => .notInCondition
  | .badSelector | .conditionOpen _ | .definitionOpen _ | .noComparison | .notComparison _ =>
    .invalidContext
  | .definitionNotClosed | .conditionNotClosed | .unfilled _ | .unplaced _ => .unterminatedBlock

/-- The cause in words. -/
def note : Complaint → Text
  | .emptyLiteral => "empty literal"
  | .signedLiteral base => "signed base " ++ Numeral.ofNat base ++ " literal"
  | .notInteger base => "not a base " ++ Numeral.ofNat base ++ " integer"
  | .undeclared name => "variable " ++ name ++ " is not declared"
  | .undeclaredIn name scope => "variable " ++ name ++ " is not declared in scope " ++ scope
  | .unsetOperand => "UNSET takes variables"
  | .unknownDefinition => "definition not found"
  | .definitionExists => "definition already exists"
  | .scopeExists => "scope already exists"
  | .constantExists name => "CONST " ++ name ++ " already exists"
  | .memoryFull cells => "all " ++ Numeral.ofNat cells ++ " RAM cells are in use"
  | .constantDestination => "cannot write to a constant"
  | .aliasTarget => "SETADR needs a variable to alias"
  | .aliasConstant => "cannot alias a constant"
  | .badName => "names must be identifiers and not keywords"
  | .badSelector => "expected LOW or HIGH"
  | .tooFewOperands expected got =>
    "expected " ++ Numeral.ofNat expected ++ " operands, got " ++ Numeral.ofNat got
  | .noOpenDefinition => "no definition is open"
  | .noOpenCondition => "no IF is open"
  | .conditionOpen definition => "IF opened inside DEF " ++ definition ++ " is still open"
  | .definitionOpen line => "DEF opened inside IF on line " ++ Numeral.decimal line ++ " is still open"
  | .noComparison => "IF needs a comparison"
  | .notComparison keywords => "IF expects one of [" ++ Text.joinWith " " keywords ++ "]"
  | .definitionNotClosed => "DEF without ENDDEF"
  | .conditionNotClosed => "IF without ENDIF"
  | .unfilled index => "instruction " ++ Numeral.ofNat index ++ " still has a placeholder operand"
  | .unplaced index =>
    "instruction " ++ Numeral.ofNat index ++ " jumps to a block that was never closed"

end Complaint

/-- The parts of a message, in words. -/
structure Report where
  /-- The kind of failure. -/
  category : Category
  /-- The line of the source, zero if there is none. -/
  line : Int := 0
  /-- The column in that line. -/
  column : Int := 0
  /-- The offending token, empty if there is none. -/
  token : Text := []
  /-- The cause in words, empty if the category says it all. -/
  note : Text := []
  deriving DecidableEq, Repr

namespace Report

/-- The note and the category. -/
def cause (report : Report) : Text :=
  if report.note.isEmpty then report.category.label
  else report.note ++ ": " ++ report.category.label

/-- The cause with the quoted token behind it, if there is one. -/
def body (report : Report) : Text :=
  if report.token.isEmpty then report.cause
  else report.cause ++ " (" ++ report.token.quoted ++ ")"

/-- The whole message; the place leads if the line is known. -/
def text (report : Report) : Text :=
  if 0 < report.line then
    "line " ++ Numeral.decimal report.line ++ ":" ++ Numeral.decimal report.column ++ ": " ++
      report.body
  else report.body

end Report

/-- A complaint about a token at a place of the source.  Line zero means that the place is
not known. -/
structure Diagnostic where
  /-- The cause. -/
  complaint : Complaint
  /-- The offending token, empty if there is none. -/
  token : Text := []
  /-- The line of the source. -/
  line : Int := 0
  /-- The column in that line. -/
  column : Int := 0
  deriving DecidableEq, Repr

namespace Diagnostic

/-- The kind of failure. -/
def category (d : Diagnostic) : Category := d.complaint.category

/-- The diagnostic at a place, unless it has one already. -/
def locate (d : Diagnostic) (line column : Int) : Diagnostic :=
  if d.line = 0 then { d with line, column } else d

/-- The parts of the message. -/
def report (d : Diagnostic) : Report where
  category := d.category
  line := d.line
  column := d.column
  token := d.token
  note := d.complaint.note

/-- The message. -/
def message (d : Diagnostic) : Text := d.report.text

end Diagnostic

end AccuAsm
