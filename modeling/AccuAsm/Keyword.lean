import AccuAsm.Diagnostic

/-!
# Keywords and names

The words that start a statement, the names that a program may introduce, and the
selector of MUL and DIV.  Comparisons are not listed here: their keywords come with
the instruction set.
-/

namespace AccuAsm

/-- The statements. -/
inductive Keyword where
  /-- `CONST name literal` -/
  | constant
  /-- `SET dest src` -/
  | assign
  /-- `SETADR $dest src` -/
  | setAddress
  /-- `UNSET $a $b ...` -/
  | unset
  /-- `ADD a b dest` -/
  | add
  /-- `SUB a b dest` -/
  | subtract
  /-- `MUL LOW|HIGH a b dest` -/
  | multiply
  /-- `DIV LOW|HIGH a b dest` -/
  | divide
  /-- `DEF name` -/
  | define
  /-- `ENDDEF` -/
  | endDefine
  /-- `CALL name` -/
  | call
  /-- `IF comparison a b` -/
  | condition
  /-- `ENDIF` -/
  | endCondition
  deriving DecidableEq, Repr

namespace Keyword

/-- Every statement. -/
def all : List Keyword :=
  [.constant, .assign, .setAddress, .unset, .add, .subtract, .multiply, .divide, .define, .endDefine,
    .call, .condition, .endCondition]

/-- The word that starts a statement. -/
def spelling : Keyword → Text
  | .constant => "CONST"
  | .assign => "SET"
  | .setAddress => "SETADR"
  | .unset => "UNSET"
  | .add => "ADD"
  | .subtract => "SUB"
  | .multiply => "MUL"
  | .divide => "DIV"
  | .define => "DEF"
  | .endDefine => "ENDDEF"
  | .call => "CALL"
  | .condition => "IF"
  | .endCondition => "ENDIF"

/-- The statement that a word starts. -/
def ofText? (word : Text) : Option Keyword := all.find? (·.spelling == word)

end Keyword

/-- How a comparison is read. -/
inductive Mode where
  /-- As a statement that stores its result. -/
  | normal
  /-- As the head of an IF. -/
  | conditionHead
  deriving DecidableEq, Repr

namespace Mode

/-- The mode with a code; all codes but one are plain statements. -/
def ofCode (code : Int) : Mode := if code = 1 then .conditionHead else .normal

/-- The name of a mode. -/
def label : Mode → Text
  | .normal => "normal"
  | .conditionHead => "condition-head"

end Mode

/-! ## Names -/

namespace Name

/-- A letter or an underscore. -/
def isStart (byte : UInt8) : Bool :=
  (ascii 'A' ≤ byte && byte ≤ ascii 'Z') || (ascii 'a' ≤ byte && byte ≤ ascii 'z') ||
    byte == ascii '_'

/-- A letter, an underscore or a digit. -/
def isPart (byte : UInt8) : Bool := isStart byte || (ascii '0' ≤ byte && byte ≤ ascii '9')

/-- A letter or underscore, then letters, underscores and digits. -/
def isIdentifier : Text → Bool
  | first :: rest => isStart first && rest.all isPart
  | [] => false

/-- The name without a line end behind it. -/
def body (name : Text) : Text :=
  if name.getLast? = some Text.newline then name.dropLast else name

/-- The selectors of MUL and DIV. -/
def lowWord : Text := "LOW"

@[inherit_doc lowWord] def highWord : Text := "HIGH"

/-- The words that cannot be names: those of the statements and the keywords of the comparisons. -/
def reserved (comparisons : List Text) : List Text :=
  Keyword.all.map Keyword.spelling ++ [lowWord, highWord] ++ comparisons

/-- Whether a program may introduce the name.  One line end behind it is not looked at. -/
def isAllowed (comparisons : List Text) (name : Text) : Bool :=
  isIdentifier (body name) && !(reserved comparisons).contains name &&
    !(reserved comparisons).contains (body name)

/-- Refuse a name that a program may not introduce. -/
def check (comparisons : List Text) (name : Text) : Except Diagnostic Unit :=
  if isAllowed comparisons name then .ok () else .error { complaint := .badName, token := name }

end Name

/-! ## Word selectors -/

namespace Selector

/-- A character in upper case, as far as the letters of the selectors are concerned: beside the
letters of ASCII, the dotless i has one of them as its upper case. -/
def upperChar (c : Char) : Char := if c = 'ı' then 'I' else c.toUpper

/-- A token in upper case. -/
def upper (token : Text) : Text :=
  token.glyphs.flatMap fun
    | .char c => String.utf8EncodeChar (upperChar c)
    | .stray byte => [byte]

/-- Whether a selector asks for the high word of the result. -/
def parse (token : Text) : Except Diagnostic Bool :=
  if upper token = Name.lowWord then .ok false
  else if upper token = Name.highWord then .ok true
  else .error { complaint := .badSelector, token }

end Selector

end AccuAsm
