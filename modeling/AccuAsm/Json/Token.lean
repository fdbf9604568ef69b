import AccuAsm.Json.Basic
import AccuAsm.Text.Glyph

/-!
# JSON tokens

A text is cut into brackets, separators, names of constants, numbers and strings.
Strings come out decoded: escapes are replaced, and whatever is no character
(damaged bytes, halves of surrogate pairs) becomes U+FFFD.
-/

namespace AccuAsm.Json

/-- The smallest parts of a JSON text. -/
inductive Token where
  | openBrace
  | closeBrace
  | openBracket
  | closeBracket
  | colon
  | comma
  /-- A constant or a number. -/
  | scalar (value : Json)
  /-- A string, decoded. -/
  | string (content : Text)

namespace Token

/-- The bytes between tokens. -/
def isSpace (byte : UInt8) : Bool :=
  byte == ascii ' ' || byte == ascii '\t' || byte == ascii '\n' || byte == ascii '\r'

/-- A decimal digit. -/
def isDigit (byte : UInt8) : Bool := ascii '0' ≤ byte && byte ≤ ascii '9'

/-! ## Numbers -/

/-- At least one digit, and the rest. -/
def digits? (text : Text) : Option (Text × Text) :=
  match text.span isDigit with
  | ([], _) => none
  | found => some found

/-- The digits in front of the fraction: a lone zero, or digits without a leading zero. -/
def whole? : Text → Option (Text × Text)
  | byte :: rest => if byte = ascii '0' then some ([byte], rest) else digits? (byte :: rest)
  | [] => none

/-- A fraction, if there is a point. -/
def fraction? : Text → Option (Text × Text)
  | byte :: rest =>
    if byte = ascii '.' then (digits? rest).map fun (found, rest) => (byte :: found, rest)
    else some ([], byte :: rest)
  | [] => some ([], [])

/-- A sign, if there is one. -/
def sign : Text → Text × Text
  | byte :: rest =>
    if byte = ascii '-' ∨ byte = ascii '+' then ([byte], rest) else ([], byte :: rest)
  | [] => ([], [])

/-- An exponent, if there is a mark for it. -/
def exponent? : Text → Option (Text × Text)
  | byte :: rest =>
    if byte = ascii 'e' ∨ byte = ascii 'E' then
      let (sign, rest) := sign rest
      (digits? rest).map fun (found, rest) => (byte :: sign ++ found, rest)
    else some ([], byte :: rest)
  | [] => some ([], [])

/-- The spelling of a number at the head of a text, and the rest. -/
def number? (text : Text) : Option (Text × Text) := do
  let (minus, rest) := match text with
    | byte :: rest => if byte = ascii '-' then ([byte], rest) else ([], text)
    | [] => ([], [])
  let (whole, rest) ← whole? rest
  let (fraction, rest) ← fraction? rest
  let (exponent, rest) ← exponent? rest
  return (minus ++ whole ++ fraction ++ exponent, rest)

/-! ## Strings -/

/-- The bytes up to the closing quote, and what follows it.  The passed bytes are held in
reverse; `escaped` tells that the byte before was a backslash. -/
def quotedFrom (passed : Text) (escaped : Bool) : Text → Option (Text × Text)
  | [] => none
  | byte :: rest =>
    if byte < 0x20 then none
    else if escaped then quotedFrom (byte :: passed) false rest
    else if byte = 34 then some (passed.reverse, rest)
    else quotedFrom (byte :: passed) (byte = ascii '\\') rest

/-- A part of a string: a character, or a unit that was given by number. -/
inductive Piece where
  | char (c : Char)
  | unit (code : Nat)

/-- What a one-letter escape stands for. -/
def escape? (letter : Char) : Option Char :=
  [(Char.ofNat 34, Char.ofNat 34), ('\\', '\\'), ('/', '/'), ('b', Char.ofNat 8),
    ('f', Char.ofNat 12), ('n', '\n'), ('r', '\r'), ('t', '\t')].lookup letter

/-- The value of a hexadecimal digit. -/
def hexValue? (c : Char) : Option Nat := do
  if c.toNat < 0x80 then
    let value ← Numeral.digitValue? (ascii c)
    if value < 16 then some value else none
  else none

/-- The pieces of a string body behind those of `done`, which are held in reverse. -/
def piecesFrom (done : List Piece) : List Glyph → Option (List Piece)
  | [] => some done.reverse
  | .stray _ :: rest => piecesFrom (.char '�' :: done) rest
  | .char c :: rest =>
    if c ≠ '\\' then piecesFrom (.char c :: done) rest
    else match rest with
      | .char letter :: rest =>
        if letter = 'u' then
          match rest with
          | .char h₃ :: .char h₂ :: .char h₁ :: .char h₀ :: rest =>
            match hexValue? h₃, hexValue? h₂, hexValue? h₁, hexValue? h₀ with
            | some d₃, some d₂, some d₁, some d₀ =>
              piecesFrom (.unit (((d₃ * 16 + d₂) * 16 + d₁) * 16 + d₀) :: done) rest
            | _, _, _, _ => none
          | _ => none
        else match escape? letter with
          | some meant => piecesFrom (.char meant :: done) rest
          | none => none
      | _ => none

/-- The first half of a surrogate pair. -/
def isHigh (code : Nat) : Bool := 0xD800 ≤ code && code < 0xDC00

/-- The second half of a surrogate pair. -/
def isLow (code : Nat) : Bool := 0xDC00 ≤ code && code < 0xE000

/-- The character of a unit that is no half of a pair. -/
def unitChar (code : Nat) : Char := if isHigh code || isLow code then '�' else Char.ofNat code

/-- The characters of the pieces behind those of `done`, which are held in reverse. -/
def charsFrom (done : List Char) : List Piece → List Char
  | [] => done.reverse
  | .char c :: rest => charsFrom (c :: done) rest
  | .unit high :: .unit low :: rest =>
    if isHigh high && isLow low then
      charsFrom (Char.ofNat (0x10000 + (high - 0xD800) * 0x400 + (low - 0xDC00)) :: done) rest
    else charsFrom (unitChar high :: done) (.unit low :: rest)
  | .unit code :: rest => charsFrom (unitChar code :: done) rest

/-- A string whose opening quote has been passed, and the rest. -/
def string? (text : Text) : Option (Text × Text) := do
  let (body, rest) ← quotedFrom [] false text
  let pieces ← piecesFrom [] body.glyphs
  return ((charsFrom [] pieces).flatMap String.utf8EncodeChar, rest)

/-! ## Tokens -/

/-- The token of a single byte. -/
def mark? (byte : UInt8) : Option Token :=
  if byte = 0x7B then some .openBrace
  else if byte = 0x7D then some .closeBrace
  else if byte = ascii '[' then some .openBracket
  else if byte = ascii ']' then some .closeBracket
  else if byte = ascii ':' then some .colon
  else if byte = ascii ',' then some .comma
  else none

/-- A constant by name, and the rest. -/
def constant? (text : Text) : Option (Json × Text) :=
  (text.stripPrefix? "null").map (Json.null, ·) <|>
    (text.stripPrefix? "true").map (Json.bool true, ·) <|>
    (text.stripPrefix? "false").map (Json.bool false, ·)

/-- The token at the head of a text that does not start with space, and the rest. -/
def read? : Text → Option (Token × Text)
  | [] => none
  | byte :: rest =>
    match mark? byte with
    | some token => some (token, rest)
    | none =>
      if byte = 34 then (string? rest).map fun (content, rest) => (.string content, rest)
      else match constant? (byte :: rest) with
        | some (value, rest) => some (.scalar value, rest)
        | none => (number? (byte :: rest)).map fun (spelling, rest) =>
            (.scalar (.number spelling), rest)

/-- The tokens of a text behind those of `done`, which are held in reverse.  Every token takes a
byte at least, so the length of the text is fuel enough. -/
def readAllFrom (done : List Token) : Nat → Text → Option (List Token)
  | 0, text => if text.all isSpace then some done.reverse else none
  | fuel + 1, text =>
    match text.dropWhile isSpace with
    | [] => some done.reverse
    | byte :: rest => do
      let (token, rest) ← read? (byte :: rest)
      readAllFrom (token :: done) fuel rest

/-- The tokens of a text. -/
def readAll (text : Text) : Option (List Token) := readAllFrom [] text.length text

end Token

end AccuAsm.Json
