import AccuAsm.Text.Basic

/-!
# Glyphs

A text is read as a sequence of glyphs: the characters of its well-formed UTF-8
parts, and every byte that belongs to no character, one at a time.  Columns and
widths count glyphs, so a damaged byte takes one place.

`glyphs` never fails, and `encode` gives back the bytes of the glyphs.
-/

namespace AccuAsm

/-- One place of a text: a character, or a byte that belongs to none. -/
inductive Glyph where
  /-- A character in its UTF-8 form. -/
  | char (c : Char)
  /-- A byte outside every well-formed character. -/
  | stray (byte : UInt8)
  deriving DecidableEq, Repr

namespace Glyph

/-- The bytes that a glyph stands for. -/
def bytes : Glyph → Text
  | .char c => String.utf8EncodeChar c
  | .stray byte => [byte]

/-- The character of a glyph; `instead` stands for a byte that belongs to none. -/
def charD (instead : Char) : Glyph → Char
  | .char c => c
  | .stray _ => instead

/-- Whether a glyph is a character for which `p` holds. -/
def isChar (p : Char → Bool) : Glyph → Bool
  | .char c => p c
  | .stray _ => false

end Glyph

namespace Text

/-- A byte that can follow the first one of a character. -/
def isTail (byte : UInt8) : Bool := 0x80 ≤ byte && byte ≤ 0xBF

/-- Two bytes that form a character. -/
def isPair (a b : UInt8) : Bool := 0xC2 ≤ a && a ≤ 0xDF && isTail b

/-- Three bytes that form a character: no overlong form and no surrogate. -/
def isTriple (a b c : UInt8) : Bool :=
  0xE0 ≤ a && a ≤ 0xEF && isTail b && isTail c &&
    (a != 0xE0 || 0xA0 ≤ b) && (a != 0xED || b ≤ 0x9F)

/-- Four bytes that form a character: no overlong form and nothing above the last code point. -/
def isQuadruple (a b c d : UInt8) : Bool :=
  0xF0 ≤ a && a ≤ 0xF4 && isTail b && isTail c && isTail d &&
    (a != 0xF0 || 0x90 ≤ b) && (a != 0xF4 || b ≤ 0x8F)

/-- The payload bits of a tail byte. -/
def tailBits (byte : UInt8) : Nat := byte.toNat % 64

/-- The character at the head of a text and its width in bytes. -/
def headChar? : Text → Option (Char × Nat)
  | [] => none
  | a :: rest =>
    if a < 0x80 then some (Char.ofNat a.toNat, 1)
    else match rest with
      | [] => none
      | b :: rest =>
        if isPair a b then some (Char.ofNat (a.toNat % 32 * 64 + tailBits b), 2)
        else match rest with
          | [] => none
          | c :: rest =>
            if isTriple a b c then
              some (Char.ofNat ((a.toNat % 16 * 64 + tailBits b) * 64 + tailBits c), 3)
            else match rest with
              | [] => none
              | d :: _ =>
                if isQuadruple a b c d then
                  some (Char.ofNat
                    (((a.toNat % 8 * 64 + tailBits b) * 64 + tailBits c) * 64 + tailBits d), 4)
                else none

/-- The glyphs of a text behind those of `done`, which are held in reverse.  The first
`skip` bytes belong to a character that has been read already. -/
def glyphsFrom (done : List Glyph) : Nat → Text → List Glyph
  | _, [] => done.reverse
  | skip + 1, _ :: rest => glyphsFrom done skip rest
  | 0, byte :: rest =>
    match headChar? (byte :: rest) with
    | some (c, width) => glyphsFrom (.char c :: done) (width - 1) rest
    | none => glyphsFrom (.stray byte :: done) 0 rest

/-- The glyphs of a text, from left to right. -/
def glyphs (text : Text) : List Glyph := glyphsFrom [] 0 text

/-- The bytes of a sequence of glyphs. -/
def encode (parts : List Glyph) : Text := parts.flatMap Glyph.bytes

/-- The number of glyphs, which is what columns and widths count. -/
def width (text : Text) : Nat := text.glyphs.length

/-- Whether every byte belongs to a character. -/
def isUtf8 (text : Text) : Bool := text.glyphs.all (Glyph.isChar fun _ => true)

/-- The text with spaces behind it up to a width. -/
def padRight (size : Nat) (text : Text) : Text := text ++ List.replicate (size - text.width) space

/-- The text with spaces in front of it up to a width. -/
def padLeft (size : Nat) (text : Text) : Text := List.replicate (size - text.width) space ++ text

end Text

end AccuAsm
