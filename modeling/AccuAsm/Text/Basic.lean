/-!
# Text as bytes

Source files, listings and messages are sequences of bytes.  They are usually
UTF-8, but a name copied from a damaged file must come out as it went in, so
nothing here assumes it.

* `Text.ofString`: the bytes of a string literal, also as a coercion;
* `Text.lines`, `Text.before`, `Text.joinWith`: cutting and joining;
* `Text.stripPrefix?`: what follows a given beginning.
-/

namespace AccuAsm

/-- A sequence of bytes, read as text. -/
abbrev Text := List UInt8

/-- The byte of an ASCII character. -/
@[reducible] def ascii (c : Char) : UInt8 := c.toUInt8

namespace Text

/-- The UTF-8 bytes of a string. -/
def ofString (s : String) : Text := s.toList.flatMap String.utf8EncodeChar

instance : Coe String Text := ⟨ofString⟩

/-- The byte that ends a line. -/
def newline : UInt8 := ascii '\n'

/-- The space byte. -/
def space : UInt8 := ascii ' '

/-- The parts between line ends; a text without one is a single line. -/
def lines (text : Text) : List Text := text.splitOn newline

/-- The texts one after the other, with `separator` between neighbours. -/
def joinWith (separator : Text) (parts : List Text) : Text := separator.intercalate parts

/-- What follows `beginning` in a text that starts with it. -/
def stripPrefix? (text beginning : Text) : Option Text := beginning.isPrefixOf? text

/-- The part in front of the first occurrence of `mark`, put behind the bytes of
`passed`, which are held in reverse. -/
def beforeFrom (mark : Text) (passed : Text) : Text → Text
  | [] => passed.reverse
  | byte :: rest =>
    if mark.isPrefixOf (byte :: rest) then passed.reverse
    else beforeFrom mark (byte :: passed) rest

/-- The part in front of the first occurrence of `mark`; all of the text if there is none. -/
def before (text mark : Text) : Text := beforeFrom mark [] text

/-- A number that tells most texts apart. -/
def checksum (text : Text) : Nat :=
  text.foldl (fun sum byte => (sum * 31 + byte.toNat) % 4294967296) 0

/-- Every occurrence of one byte replaced by another. -/
def replaceByte (old new : UInt8) (text : Text) : Text :=
  text.map fun byte => if byte = old then new else byte

theorem beforeFrom_eq_append (mark passed text : Text) :
    beforeFrom mark passed text = passed.reverse ++ beforeFrom mark [] text := by
  induction text generalizing passed with
  | nil => simp [beforeFrom]
  | cons byte rest ih =>
    simp only [beforeFrom]
    split
    · simp
    · rw [ih (byte :: passed), ih [byte]]
      simp

@[simp] theorem length_replaceByte (old new : UInt8) (text : Text) :
    (replaceByte old new text).length = text.length := by
  simp [replaceByte]

end Text

end AccuAsm
