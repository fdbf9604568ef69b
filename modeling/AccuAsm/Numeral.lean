import AccuAsm.Text.Basic

/-!
# Numerals

Writing numbers in a base and reading digits back.  Reading knows the digits
`0`-`9`, `a`-`z` and `A`-`Z`; writing uses lower case.
-/

namespace AccuAsm.Numeral

/-- The byte of a digit. -/
def digit (value : Nat) : UInt8 :=
  if value < 10 then UInt8.ofNat (48 + value) else UInt8.ofNat (87 + value)

/-- The value of a digit byte, in the largest base that has it. -/
def digitValue? (byte : UInt8) : Option Nat :=
  if ascii '0' ≤ byte && byte ≤ ascii '9' then some (byte.toNat - 48)
  else if ascii 'a' ≤ byte && byte ≤ ascii 'z' then some (byte.toNat - 87)
  else if ascii 'A' ≤ byte && byte ≤ ascii 'Z' then some (byte.toNat - 55)
  else none

/-- A number in a base of at least two, without leading zeros. -/
def inBase (base n : Nat) : Text :=
  if base < 2 ∨ n < base then [digit n]
  else inBase base (n / base) ++ [digit (n % base)]
termination_by n
decreasing_by
  apply Nat.div_lt_self <;> omega

/-- A signed number in decimal. -/
def decimal (n : Int) : Text :=
  if n < 0 then ascii '-' :: inBase 10 n.natAbs else inBase 10 n.natAbs

/-- A count in decimal. -/
def ofNat (n : Nat) : Text := inBase 10 n

/-- A machine number in decimal. -/
def ofWord (n : Int64) : Text := decimal n.toInt

/-- A machine number in binary, marked `0b`; the sign stands in front of the mark. -/
def binary (n : Int64) : Text :=
  (if n.toInt < 0 then "-0b" else "0b") ++ inBase 2 n.toInt.natAbs

/-- A number in hexadecimal, filled with zeros up to a number of digits. -/
def hex (digits n : Nat) : Text := (inBase 16 n).leftpad digits (ascii '0')

/-- Numbers are read up to here.  Anything larger is out of range wherever a number is wanted, so
it need not be told apart. -/
def ceiling : Nat := 18446744073709551616

/-- Continue a number with one more digit of the base. -/
def shiftIn (base : Nat) (soFar : Option Nat) (byte : UInt8) : Option Nat := do
  let value ← soFar
  let next ← digitValue? byte
  if next < base then some (min ceiling (value * base + next)) else none

/-- The number that a run of digits denotes, or `ceiling` if it is larger; `none` if a byte is no
digit of the base.  An empty run denotes zero. -/
def ofDigits? (base : Nat) (digits : Text) : Option Nat :=
  digits.foldl (shiftIn base) (some 0)

/-- A number that has reached the ceiling stays there. -/
theorem min_ceiling_step (value base next : Nat) (h : 0 < base) :
    min ceiling (min ceiling value * base + next) = min ceiling (value * base + next) := by
  by_cases small : value ≤ ceiling
  · rw [Nat.min_eq_right small]
  · have large : ceiling ≤ value := by omega
    have reached : ceiling * 1 ≤ ceiling * base := Nat.mul_le_mul_left ceiling h
    have above : ceiling * base ≤ value * base := Nat.mul_le_mul_right base large
    rw [Nat.min_eq_left large, Nat.min_eq_left (by omega), Nat.min_eq_left (by omega)]

/-- A sign and what follows it; no sign is a plus. -/
def splitSign : Text → Bool × Text
  | byte :: rest =>
    if byte = ascii '-' then (true, rest)
    else if byte = ascii '+' then (false, rest)
    else (false, byte :: rest)
  | [] => (false, [])

/-- The signed number with a given magnitude, if it fits in 32 bits. -/
def signed32? (negative : Bool) (magnitude : Nat) : Option Int :=
  let n : Int := if negative then -magnitude else magnitude
  if -2147483648 ≤ n ∧ n ≤ 2147483647 then some n else none

/-- An optional sign and at least one digit of the base, with a value of 32 bits. -/
def signed? (base : Nat) (text : Text) : Option Int :=
  match splitSign text with
  | (_, []) => none
  | (negative, digits) => ofDigits? base digits >>= signed32? negative

end AccuAsm.Numeral
