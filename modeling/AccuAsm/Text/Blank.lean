import AccuAsm.Text.Glyph

/-!
# Blanks

The characters that separate the fields of a listing line and that a prompt line
is trimmed of: the white space of Unicode.
-/

namespace AccuAsm.Text

/-- White space in the sense of Unicode. -/
def isBlankChar (c : Char) : Bool :=
  let code := c.toNat
  (0x09 ≤ code && code ≤ 0x0D) || code == 0x20 || code == 0x85 || code == 0xA0 ||
    code == 0x1680 || (0x2000 ≤ code && code ≤ 0x200A) || code == 0x2028 || code == 0x2029 ||
    code == 0x202F || code == 0x205F || code == 0x3000

/-- A glyph that is a blank; a stray byte never is one. -/
def isBlank : Glyph → Bool := Glyph.isChar isBlankChar

/-- The runs of glyphs between blanks. -/
def words (text : Text) : List Text :=
  ((text.glyphs.splitOnP isBlank).filter (!·.isEmpty)).map encode

/-- The text without the blanks at either end. -/
def trim (text : Text) : Text :=
  encode (((text.glyphs.dropWhile isBlank).reverse.dropWhile isBlank).reverse)

end AccuAsm.Text
