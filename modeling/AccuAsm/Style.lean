import AccuAsm.Text.Basic

/-!
# Terminal styles

Coloured output: an escape sequence in front of a text and one behind it.
-/

namespace AccuAsm

/-- The styles in use. -/
inductive Style where
  | bold
  | red
  | green
  | blue
  | magenta
  deriving DecidableEq, Repr

namespace Style

/-- The number that selects a style. -/
def code : Style → Text
  | .bold => "1"
  | .red => "31"
  | .green => "32"
  | .blue => "34"
  | .magenta => "35"

/-- The byte that starts an escape sequence. -/
def escape : UInt8 := 27

/-- A text in a style, or as it is if colours are off. -/
def paint (style : Style) (colour : Bool) (text : Text) : Text :=
  if colour then escape :: ("[" ++ style.code ++ "m" ++ text) ++ escape :: "[0m" else text

end Style

end AccuAsm
