import AccuAsm.Diagnostic

/-!
# Number literals of the statement language

`0b` and `0x` mark binary and hexadecimal digits, `0d` or no mark decimal ones.
Only decimal literals carry a sign, the marks are lower case, and a value has 32
bits.
-/

namespace AccuAsm.Literal

/-- The base that the beginning of a literal selects, and what stands behind the mark. -/
def split (text : Text) : Nat × Text :=
  match text.stripPrefix? "0b" with
  | some body => (2, body)
  | none =>
    match text.stripPrefix? "0x" with
    | some body => (16, body)
    | none =>
      match text.stripPrefix? "0d" with
      | some body => (10, body)
      | none => (10, text)

/-- Whether a text starts with a sign. -/
def hasSign : Text → Bool
  | byte :: _ => byte = ascii '-' || byte = ascii '+'
  | [] => false

/-- The value of a literal. -/
def parse (text : Text) : Except Diagnostic Int :=
  let (base, body) := split text
  if body.isEmpty then .error { complaint := .emptyLiteral, token := text }
  else if base ≠ 10 ∧ hasSign body then
    .error { complaint := .signedLiteral base, token := text }
  else match Numeral.signed? base body with
    | some n => .ok n
    | none => .error { complaint := .notInteger base, token := text }

end AccuAsm.Literal
