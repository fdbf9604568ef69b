import AccuAsm.Text.Glyph

/-!
# Source lines

A source is read as lines of fields.  Fields are the maximal runs of bytes other
than space, tab, form feed and carriage return; each keeps its column, counted in
glyphs from one.  Lines without a field are dropped, and the others keep their
number.
-/

namespace AccuAsm

/-- A statement: its fields, where each one starts, and its line number. -/
structure Line where
  /-- The line number. -/
  number : Int
  /-- The fields, the keyword first. -/
  fields : List Text := []
  /-- The columns of the fields. -/
  columns : List Int := []
  deriving DecidableEq, Repr

namespace Line

/-- The bytes that separate fields. -/
def isSeparator (byte : UInt8) : Bool :=
  byte == ascii ' ' || byte == ascii '\t' || byte == ascii '\n' || byte == 12 ||
    byte == ascii '\r'

/-- The statement with single spaces between its fields. -/
def text (line : Line) : Text := Text.joinWith " " line.fields

/-- The column of the field at an index, or of the first one if there is none there. -/
def column (line : Line) (index : Int) : Int :=
  if 0 ≤ index then
    (line.columns[index.toNat]?).getD (line.columns.headD 1)
  else line.columns.headD 1

/-- The fields of a line with their columns; `column` is that of the first byte. -/
def scan (column : Nat) (text : Text) : List (Nat × Text) :=
  match text with
  | [] => []
  | byte :: rest =>
    if isSeparator byte then scan (column + 1) rest
    else
      let field : Text := byte :: rest.takeWhile (!isSeparator ·)
      (column, field) :: scan (column + field.width) (rest.dropWhile (!isSeparator ·))
termination_by text.length
decreasing_by
  · simp
  · have := (List.dropWhile_sublist (l := rest) (!isSeparator ·)).length_le
    simp
    omega

/-- The line with the given number and content. -/
def ofText (number : Int) (text : Text) : Line :=
  let found := scan 1 text
  { number, fields := found.map (·.2), columns := found.map fun f => (f.1 : Int) }

/-- The statements of a source text. -/
def tokenize (source : Text) : List Line :=
  (source.lines.zipIdx.map fun (content, index) => ofText (index + 1) content).filter
    (!·.fields.isEmpty)

/-- A single statement with a given number; a line end inside it counts as a space. -/
def single (number : Int) (content : Text) : Line :=
  ofText number (content.replaceByte Text.newline Text.space)

end Line

end AccuAsm
