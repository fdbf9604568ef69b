import AccuAsm.Keyword

/-!
# The pattern of names

The names that a program may introduce, written as one pattern that spells out every
reserved word.  Characters that mean something in a pattern get a backslash, and those
that cannot be shown are given by number.

`\u` takes four hexadecimal digits, but a number is spelled with as few as it has, so a
keyword can make the pattern unreadable.  Then there is no rule for names, and no
program can be translated: `NamePattern.check` finds that out beforehand.
-/

namespace AccuAsm.NamePattern

/-- The characters that mean something in a pattern. -/
def marks : List Char := "\\.+*?()|[]\x7b\x7d^$# ".toList

/-- The letter of the escape for a control character that has one.  A backspace has none,
because its letter means the end of a word. -/
def escapeLetter? (code : Nat) : Option Char :=
  if code = 8 then none else Text.escapeLetter? code

/-- The digits of a character that is given by number. -/
def digits (c : Char) : Text := Numeral.inBase 16 c.toNat

/-- Whether a character is given by `\u` and its number. -/
def isNumbered (c : Char) : Bool := !Text.isPrintable c && 0x100 ≤ c.toNat

/-- A character in a pattern. -/
def spellChar (c : Char) : Text :=
  if Text.isPrintable c then
    if marks.contains c then ascii '\\' :: String.utf8EncodeChar c else String.utf8EncodeChar c
  else match escapeLetter? c.toNat with
    | some letter => [ascii '\\', ascii letter]
    | none => if isNumbered c then "\\u" ++ digits c else "\\x" ++ Numeral.hex 2 c.toNat

/-- The characters of a word. -/
def chars (word : Text) : List Char := word.glyphs.map (·.charD '\uFFFD')

/-- A word in a pattern. -/
def spell (word : Text) : Text := (chars word).flatMap spellChar

/-- The pattern of the names beside the reserved words. -/
def text (comparisons : List Text) : Text :=
  "^(?!(?:" ++ Text.joinWith "|" ((Name.reserved comparisons).map spell) ++
    ")$)[A-Za-z_][A-Za-z0-9_]*$"

/-! ## Reading a pattern -/

/-- A hexadecimal digit. -/
def isHexDigit (c : Char) : Bool :=
  ('0' ≤ c && c ≤ '9') || ('a' ≤ c && c ≤ 'f') || ('A' ≤ c && c ≤ 'F')

/-- How many digits `\u` takes. -/
def numberWidth : Nat := 4

/-- Whether every number in the spelling of a word has enough digits.  Digits that follow it in
the word are read as part of it. -/
def isReadable : List Char → Bool
  | [] => true
  | c :: rest =>
    (!isNumbered c || numberWidth ≤ (digits c).length + (rest.takeWhile isHexDigit).length) &&
      isReadable rest

/-- A pattern that cannot be read. -/
structure Unreadable where
  /-- The pattern. -/
  pattern : Text
  deriving DecidableEq, Repr

/-- The quote around a pattern. -/
def backquote : UInt8 := 0x60

/-- A pattern between quotes; those of a text if it holds the other ones itself. -/
def quoted (pattern : Text) : Text :=
  if pattern.contains backquote then pattern.quoted else backquote :: pattern ++ [backquote]

/-- The fault in words. -/
def Unreadable.message (u : Unreadable) : Text :=
  "regexp2: Compile(" ++ quoted u.pattern ++
    "): error parsing regexp: insufficient hexadecimal digits in `" ++ u.pattern ++ "`"

/-- Whether the pattern of the names can be read. -/
def check (comparisons : List Text) : Except Unreadable Unit :=
  if (Name.reserved comparisons).all (isReadable <| chars ·) then .ok ()
  else .error ⟨text comparisons⟩

end AccuAsm.NamePattern
