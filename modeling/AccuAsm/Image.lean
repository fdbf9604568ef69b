import Std.Data.TreeMap
import AccuAsm.Program.Basic
import AccuAsm.Text.Blank

/-!
# Images

The bytes that the CPU loads: four per instruction, the opcode first.  An image is
made from a text listing (`Image.assemble`) or straight from words (`Image.pack`),
and `Image.disassemble` writes the listing of an image.  Both ways also give a
source map, from byte addresses to line numbers.
-/

namespace AccuAsm

/-- Line numbers by byte address. -/
abbrev SourceMap := Std.TreeMap UInt16 Int

/-- One `address line` pair per instruction, in the order of the addresses. -/
def SourceMap.text (map : SourceMap) : Text :=
  map.toList.flatMap fun (address, line) =>
    Numeral.ofNat address.toNat ++ " " ++ Numeral.decimal line ++ "\n"

/-- The source map of a list of pairs; the last pair of an address counts. -/
def SourceMap.ofPairs (pairs : List (UInt16 × Int)) : SourceMap :=
  pairs.foldl (fun map (address, line) => map.insert address line) ∅

/-- Why no image could be made or read. -/
inductive ImageFault where
  /-- A listing line has a wrong number of fields. -/
  | fieldCount (line got : Nat)
  /-- The listing has more instructions than there are addresses. -/
  | listingTooLarge (line : Nat)
  /-- A field of a listing line is no number. -/
  | badNumber (token : Text) (line : Nat)
  /-- A number of a listing line does not fit in a byte. -/
  | listingByte (value : Int) (line : Nat)
  /-- There are more words than addresses. -/
  | wordsTooLarge (index : Nat)
  /-- A number of a word does not fit in a byte. -/
  | wordByte (value : Int64) (index : Nat) (line : Int)
  /-- An image ends inside an instruction. -/
  | brokenLength (length : Nat)
  deriving DecidableEq, Repr

namespace ImageFault

/-- A number that is too large for its byte, in words. -/
def misfit (value : Int) : Text := "value " ++ Numeral.decimal value ++ " does not fit in a byte"

/-- The cause in words. -/
def message : ImageFault → Text
  | .fieldCount line got =>
    "expected " ++ Numeral.ofNat instructionWidth ++ " fields on line " ++ Numeral.ofNat line ++
      ", got " ++ Numeral.ofNat got
  | .listingTooLarge line => "program too large near line " ++ Numeral.ofNat line
  | .badNumber token line => "invalid number '" ++ token ++ "' on line " ++ Numeral.ofNat line
  | .listingByte value line => misfit value ++ " on line " ++ Numeral.ofNat line
  | .wordsTooLarge index => "program too large at instruction " ++ Numeral.ofNat index
  | .wordByte value index line =>
    misfit value.toInt ++ " in instruction " ++ Numeral.ofNat index ++ " (source line " ++
      Numeral.decimal line ++ ")"
  | .brokenLength length =>
    "image length " ++ Numeral.ofNat length ++ " is not a multiple of " ++
      Numeral.ofNat instructionWidth

end ImageFault

/-- Bytes and the lines that they came from. -/
structure Image where
  /-- The bytes. -/
  bytes : Array UInt8 := #[]
  /-- The line of each instruction, by address. -/
  map : SourceMap := ∅

namespace Image

/-- The highest byte address. -/
def lastAddress : Nat := 0xFFFF

/-- The byte of a number: unsigned, or negative in two's complement. -/
def byte? (n : Int) : Option UInt8 :=
  if -128 ≤ n ∧ n ≤ 255 then some (UInt8.ofNat (n % 256).toNat) else none

/-! ## Numbers of a listing -/

/-- Whether the letter behind a leading zero selects a base. -/
def markedBase? (letter : UInt8) : Option Nat :=
  if letter = ascii 'b' ∨ letter = ascii 'B' then some 2
  else if letter = ascii 'o' ∨ letter = ascii 'O' then some 8
  else if letter = ascii 'x' ∨ letter = ascii 'X' then some 16
  else none

/-- The base of an unsigned number, whether a mark stands in front of the digits, and the
digits.  A leading zero without a mark means octal and is itself a digit. -/
def splitBase (text : Text) : Nat × Bool × Text :=
  match text with
  | zero :: letter :: first :: rest =>
    if zero = ascii '0' then
      match markedBase? letter with
      | some base => (base, true, first :: rest)
      | none => (8, false, text)
    else (10, false, text)
  | zero :: _ => if zero = ascii '0' then (8, false, text) else (10, false, text)
  | [] => (10, false, [])

/-- The digits without the underscores between them.  An underscore stands between two digits,
or between the mark of the base and a digit. -/
def dropUnderscores? (marked : Bool) (digits : Text) : Option Text :=
  match digits.splitOn (ascii '_') with
  | first :: rest =>
    if (marked && !rest.isEmpty || !first.isEmpty) && rest.all (!·.isEmpty) then
      some (first ++ rest.flatten)
    else none
  | [] => none

/-- A number of a listing: signed, in any base, of 32 bits. -/
def number? (text : Text) : Option Int :=
  let (negative, unsigned) := Numeral.splitSign text
  let (base, marked, digits) := splitBase unsigned
  dropUnderscores? marked digits >>= Numeral.ofDigits? base >>= Numeral.signed32? negative

/-- The byte of a field on a listing line. -/
def fieldByte (line : Nat) (field : Text) : Except ImageFault UInt8 :=
  match number? field with
  | none => .error (.badNumber field line)
  | some n =>
    match byte? n with
    | some byte => .ok byte
    | none => .error (.listingByte n line)

/-! ## Listings -/

/-- The fields of a listing line; everything from the first `;` or `//` on is commentary. -/
def listingFields (line : Text) : List Text :=
  (Text.before (line.takeWhile (· ≠ ascii ';')) "//").words

/-- Continue an image with one line of a listing. -/
def addLine (image : Image) (line : Nat) (content : Text) : Except ImageFault Image :=
  let fields := listingFields content
  if fields.isEmpty then .ok image
  else if fields.length ≠ instructionWidth then .error (.fieldCount line fields.length)
  else if lastAddress < image.bytes.size then .error (.listingTooLarge line)
  else do
    let bytes ← fields.mapM (fieldByte line)
    return {
      bytes := image.bytes ++ bytes
      map := image.map.insert (UInt16.ofNat image.bytes.size) line }

/-- The image of a text listing.  Its map holds the lines of the listing. -/
def assemble (listing : Text) : Except ImageFault Image :=
  (listing.lines.zipIdx 1).foldlM (fun image (content, line) => image.addLine line content) {}

/-! ## Words -/

/-- The byte of a field of the word at `index`. -/
def wordByte (index : Nat) (line : Int) (n : Int64) : Except ImageFault UInt8 :=
  match byte? n.toInt with
  | some byte => .ok byte
  | none => .error (.wordByte n index line)

/-- Continue an image with the word at `index`. -/
def addWord (image : Image) (index : Nat) (w : Word) : Except ImageFault Image :=
  let start := index * instructionWidth
  if lastAddress < start then .error (.wordsTooLarge index)
  else do
    let bytes ← w.fields.mapM (wordByte index w.line)
    return { bytes := image.bytes ++ bytes, map := image.map.insert (UInt16.ofNat start) w.line }

/-- The image of a list of words.  Its map holds the source lines of the words. -/
def pack (words : List Word) : Except ImageFault Image :=
  words.zipIdx.foldlM (fun image (w, index) => image.addWord index w) {}

/-! ## Reading images -/

/-- The lines for complete groups of four bytes. -/
def listingLines : List UInt8 → List Text
  | a :: b :: c :: d :: rest =>
    (Text.joinWith " " ([a, b, c, d].map fun byte => Numeral.ofNat byte.toNat) ++ "\n") ::
      listingLines rest
  | _ => []

/-- The listing of the bytes of an image. -/
def disassemble (bytes : List UInt8) : Except ImageFault Text :=
  if bytes.length % instructionWidth ≠ 0 then .error (.brokenLength bytes.length)
  else .ok (listingLines bytes).flatten

end Image

end AccuAsm
