import AccuAsm.Numeral

/-!
# JSON values

The values of the documents that describe an instruction set.  Numbers keep their
spelling, because a document's numbers must be whole and written without fraction
or exponent, and objects keep their members in order, because the last one of a
name counts.
-/

namespace AccuAsm

/-- A JSON value. -/
inductive Json where
  | null
  | bool (value : Bool)
  /-- A number as it is spelled. -/
  | number (spelling : Text)
  | string (content : Text)
  | array (items : List Json)
  /-- An object; a name may occur several times. -/
  | object (members : List (Text × Json))

namespace Json

/-- The value of a spelling that is a whole number of 64 bits without fraction or exponent. -/
def integer? (spelling : Text) : Option Int64 :=
  match Numeral.splitSign spelling with
  | (_, []) => none
  | (negative, digits) => do
    let magnitude ← Numeral.ofDigits? 10 digits
    let n : Int := if negative then -magnitude else magnitude
    if -9223372036854775808 ≤ n ∧ n ≤ 9223372036854775807 then some (Int64.ofInt n) else none

end Json

end AccuAsm
