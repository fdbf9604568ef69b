import AccuAsm.InstructionSet.Validity
import AccuAsm.Json.Reader

/-!
# Instruction sets from documents

A JSON document overrides the reference CPU.  What it leaves out keeps its value;
a `conditions` member replaces the keywords, so that they can be renamed or dropped.

Names of members are matched without regard to case.  A member that occurs twice is
read twice: the last number counts, and objects add up.
-/

namespace AccuAsm

/-- Why a document gives no instruction set. -/
inductive DocumentFault where
  /-- The text is no JSON. -/
  | malformed
  /-- A value has the wrong type. -/
  | mistyped
  /-- The numbers do not go together. -/
  | invalid (fault : SetFault)
  deriving DecidableEq, Repr

/-- The fault in words. -/
def DocumentFault.message : DocumentFault → Text
  | .malformed => "not a JSON document"
  | .mistyped => "a value has the wrong type"
  | .invalid fault => fault.message

namespace InstructionSet

/-- A character without its case.  Two characters outside ASCII have a letter of ASCII as their
lower case: the long s and the Kelvin sign. -/
def foldChar (c : Char) : Char :=
  if c = 'ſ' then 's' else if c = 'K' then 'k' else c.toLower

/-- A member name without its case. -/
def foldName (name : Text) : Text :=
  name.glyphs.flatMap fun
    | .char c => String.utf8EncodeChar (foldChar c)
    | .stray byte => [byte]

/-- A number; `null` leaves the old one. -/
def readNumber (old : Int64) : Json → Except DocumentFault Int64
  | .null => .ok old
  | .number spelling =>
    match Json.integer? spelling with
    | some n => .ok n
    | none => .error .mistyped
  | _ => .error .mistyped

/-- A field of a record of numbers: how to read it and how to replace it. -/
structure NumberField (ρ : Type) where
  /-- The name in a document. -/
  name : Text
  /-- The value in a record. -/
  get : ρ → Int64
  /-- The record with another value. -/
  set : ρ → Int64 → ρ

/-- Put a member of a document into the record, if one of the fields has its name. -/
def readField {ρ : Type} (fields : List (NumberField ρ)) (record : ρ) (name : Text)
    (value : Json) : Except DocumentFault ρ :=
  match fields.find? (·.name == foldName name) with
  | some field => field.set record <$> readNumber (field.get record) value
  | none => .ok record

/-- The registers in a document. -/
def registerFields : List (NumberField Registers) :=
  [⟨"ram", (·.ram), fun r n => { r with ram := n }⟩,
    ⟨"stack", (·.stack), fun r n => { r with stack := n }⟩,
    ⟨"program_counter", (·.counter), fun r n => { r with counter := n }⟩,
    ⟨"ram_address", (·.latch), fun r n => { r with latch := n }⟩,
    ⟨"scratch0", (·.scratch0), fun r n => { r with scratch0 := n }⟩,
    ⟨"scratch1", (·.scratch1), fun r n => { r with scratch1 := n }⟩,
    ⟨"result_low", (·.resultLow), fun r n => { r with resultLow := n }⟩,
    ⟨"result_high", (·.resultHigh), fun r n => { r with resultHigh := n }⟩,
    ⟨"segment_toggle", (·.segmentToggle), fun r n => { r with segmentToggle := n }⟩,
    ⟨"user_stack", (·.userStack), fun r n => { r with userStack := n }⟩,
    ⟨"io", (·.io), fun r n => { r with io := n }⟩]

/-- The flags, groups and operations in a document. -/
def codeFields : List (NumberField InstructionSet) :=
  [⟨"immediate0", (·.immediate0), fun s n => { s with immediate0 := n }⟩,
    ⟨"immediate1", (·.immediate1), fun s n => { s with immediate1 := n }⟩,
    ⟨"word_high", (·.wordHigh), fun s n => { s with wordHigh := n }⟩,
    ⟨"alu", (·.alu), fun s n => { s with alu := n }⟩,
    ⟨"condition", (·.condition), fun s n => { s with condition := n }⟩,
    ⟨"jump", (·.jump), fun s n => { s with jump := n }⟩,
    ⟨"move", (·.move), fun s n => { s with move := n }⟩,
    ⟨"add", (·.add), fun s n => { s with add := n }⟩,
    ⟨"subtract", (·.subtract), fun s n => { s with subtract := n }⟩,
    ⟨"multiply", (·.multiply), fun s n => { s with multiply := n }⟩,
    ⟨"divide", (·.divide), fun s n => { s with divide := n }⟩]

/-- The registers with the members of an object put in; `null` leaves them. -/
def readRegisters (old : Registers) : Json → Except DocumentFault Registers
  | .null => .ok old
  | .object members =>
    members.foldlM (fun record (name, value) => readField registerFields record name value) old
  | _ => .error .mistyped

/-- The keywords with the members of an object put in; `null` leaves none.  A keyword whose code
is `null` has code zero. -/
def readConditions (old : Dictionary Int64) : Json → Except DocumentFault (Dictionary Int64)
  | .null => .ok {}
  | .object members =>
    members.foldlM (fun record (name, value) => record.insert name <$> readNumber 0 value) old
  | _ => .error .mistyped

/-- Put one member of a document into the set.  Members with unknown names are ignored. -/
def readMember (set : InstructionSet) (member : Text × Json) :
    Except DocumentFault InstructionSet :=
  let name := foldName member.1
  if name = "conditions" then
    (fun conditions => { set with conditions }) <$> readConditions set.conditions member.2
  else if name = "addresses" then
    (fun registers => { set with registers }) <$> readRegisters set.registers member.2
  else readField codeFields set member.1 member.2

/-- The set that a document starts from: the reference CPU, without its keywords if the document
has a member spelled exactly `conditions`. -/
def baseFor (members : List (Text × Json)) : InstructionSet :=
  if members.any (·.1 == ("conditions" : Text)) then { standard with conditions := {} }
  else standard

/-- The set of a document, not yet checked. -/
def ofJson : Json → Except DocumentFault InstructionSet
  | .null => .ok standard
  | .object members => members.foldlM readMember (baseFor members)
  | _ => .error .mistyped

/-- The set of a document. -/
def load (document : Text) : Except DocumentFault InstructionSet :=
  match Json.parse? document with
  | none => .error .malformed
  | some json => do
    let set ← ofJson json
    match set.validate with
    | .ok () => return set
    | .error fault => throw (.invalid fault)

/-- The words for a document at a path that gives no set. -/
def loadMessage (path : Text) (fault : DocumentFault) : Text :=
  "isa table " ++ path ++ ": " ++ fault.message

end InstructionSet

end AccuAsm
