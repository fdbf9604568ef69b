import AccuAsm.Numeral
import AccuAsm.Text.Glyph
import AccuAsm.Text.Printable

/-!
# Quoted text

How a message shows a text that may hold anything: between quotes, on one line,
in printable characters only.  The usual escapes stand for the controls that have
one; other characters that cannot be shown are written by number, and a byte that
belongs to no character as `\xNN`.
-/

namespace AccuAsm.Text

/-- The quote around a text. -/
def doubleQuote : Char := Char.ofNat 34

/-- The quote around a character. -/
def singleQuote : Char := Char.ofNat 39

/-- The letter of the escape for a control character that has one. -/
def escapeLetter? (code : Nat) : Option Char :=
  [(7, 'a'), (8, 'b'), (9, 't'), (10, 'n'), (11, 'v'), (12, 'f'), (13, 'r')].lookup code

/-- A character inside quotes. -/
def quoteChar (quote c : Char) : Text :=
  if c = quote ∨ c = '\\' then ascii '\\' :: String.utf8EncodeChar c
  else if isPrintable c then String.utf8EncodeChar c
  else match escapeLetter? c.toNat with
    | some letter => [ascii '\\', ascii letter]
    | none =>
      if c.toNat < 0x20 ∨ c.toNat = 0x7F then "\\x" ++ Numeral.hex 2 c.toNat
      else if c.toNat < 0x10000 then "\\u" ++ Numeral.hex 4 c.toNat
      else "\\U" ++ Numeral.hex 8 c.toNat

/-- A glyph inside quotes. -/
def quoteGlyph (quote : Char) : Glyph → Text
  | .char c => quoteChar quote c
  | .stray byte => "\\x" ++ Numeral.hex 2 byte.toNat

/-- A text between double quotes. -/
def quoted (text : Text) : Text :=
  ascii doubleQuote :: text.glyphs.flatMap (quoteGlyph doubleQuote) ++ [ascii doubleQuote]

/-- A character between single quotes. -/
def quotedChar (c : Char) : Text :=
  ascii singleQuote :: quoteChar singleQuote c ++ [ascii singleQuote]

end AccuAsm.Text
