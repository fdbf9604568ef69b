import AccuAsm.Text.Glyph

/-!
# Input lines and history

How input is cut into lines, and the lines that a session remembers.  Input is read
through a buffer: a line that does not fit is cut, and the rest counts as the next
line.
-/

namespace AccuAsm.CommandLine

/-- The size of the input buffer. -/
def bufferSize : Nat := 4096

/-- The byte that may stand in front of a line end. -/
def carriageReturn : UInt8 := ascii '\r'

/-- A text without a carriage return at its end. -/
def dropReturn (text : Text) : Text :=
  if text.getLast? = some carriageReturn then text.dropLast else text

/-- A line of input, and whether it was cut because it did not fit. -/
structure InputLine where
  /-- The line without its end. -/
  content : Text
  /-- Whether the rest of the line follows. -/
  cut : Bool
  deriving DecidableEq, Repr

/-- The first line of an input and how many bytes it takes. -/
def firstLine (input : Text) : InputLine × Nat :=
  let buffer := input.take bufferSize
  let (content, tail) := buffer.span (· ≠ Text.newline)
  if !tail.isEmpty then (⟨dropReturn content, false⟩, content.length + 1)
  else if buffer.length < bufferSize then (⟨content, false⟩, content.length)
  else
    let content := dropReturn content
    (⟨content, true⟩, content.length)

/-- The lines of an input behind those of `done`, which are held in reverse.  Every line takes a
byte at least, so the length of the input is fuel enough. -/
def inputLinesFrom (done : List InputLine) : Nat → Text → List InputLine
  | 0, _ => done.reverse
  | fuel + 1, input =>
    if input.isEmpty then done.reverse
    else
      let (line, size) := firstLine input
      inputLinesFrom (line :: done) fuel (input.drop size)

/-- The lines of an input. -/
def inputLines (input : Text) : List InputLine := inputLinesFrom [] input.length input

/-- The lines that a session remembers, the oldest first. -/
structure History where
  /-- The lines. -/
  entries : List Text := []
  deriving DecidableEq, Repr

namespace History

/-- How many lines are remembered. -/
def limit : Nat := 1000

/-- Remember one more line and forget the oldest one if there are too many. -/
def push (h : History) (entry : Text) : History :=
  let entries := h.entries ++ [entry]
  { entries := if limit < entries.length then entries.drop 1 else entries }

/-- Remember a line unless it is the same as the last one. -/
def add (h : History) (entry : Text) : History :=
  if h.entries.getLast? = some entry then h else h.push entry

/-- The history in a file.  Reading stops at a line that does not fit or is no UTF-8. -/
def ofText (text : Text) : History :=
  ((inputLines text).takeWhile fun line => !line.cut && line.content.isUtf8).foldl
    (fun h line => h.push line.content) {}

/-- The history as a file. -/
def text (h : History) : Text := h.entries.flatMap (· ++ [Text.newline])

end History

end AccuAsm.CommandLine
