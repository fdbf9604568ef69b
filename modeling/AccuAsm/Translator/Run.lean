import AccuAsm.Image
import AccuAsm.Translator.Statement

/-!
# Whole sources

Statements are fed one at a time.  `run` feeds the lines of a source up to the first
refusal, `finish` asks whether every block has been closed, and `compile` gives the
words of a whole source.
-/

namespace AccuAsm

namespace Translator

/-- Translate one statement.  The result is the instructions that it put at the end of the
program, or why it was refused; the state is the one behind the statement. -/
def feed (t : Translator) (line : Line) : Except Fault (List Instr) × Translator :=
  match (process line).on t with
  | (.ok ops, next) =>
    let (instrs, next) := next.emit line ops
    (.ok instrs, next)
  | (.error (.rejected d), next) =>
    (.error (.rejected (d.locate line.number (line.column 0))), next)
  | (.error fault, next) => (.error fault, next)

/-- Feed lines up to the first one that is refused. -/
def feedAll (t : Translator) : List Line → Except Fault Unit × Translator
  | [] => (.ok (), t)
  | line :: rest =>
    match t.feed line with
    | (.ok _, next) => next.feedAll rest
    | (.error fault, next) => (.error fault, next)

/-- Feed the statements of a source up to the first one that is refused. -/
def run (t : Translator) (source : Text) : Except Fault Unit × Translator :=
  t.feedAll (Line.tokenize source)

/-- Check that every block has been closed; the innermost open definition is reported first. -/
def finish (t : Translator) : Except Diagnostic Program :=
  match t.definitions.current? with
  | some d =>
    .error { complaint := .definitionNotClosed, token := d.name, line := d.line, column := 1 }
  | none =>
    match t.conditions.current? with
    | some c => .error { complaint := .conditionNotClosed, line := c.line, column := 1 }
    | none => .ok t.program

end Translator

/-- The state behind a whole source in which every block is closed. -/
def translate (config : Config) (source : Text) : Except Fault Translator := do
  let t ← Translator.start config
  match t.run source with
  | (.error fault, _) => .error fault
  | (.ok (), t) =>
    match t.finish with
    | .ok _ => .ok t
    | .error d => .error (.rejected d)

/-- The state behind a whole source, and its words. -/
def compile (config : Config) (source : Text) : Except Fault (Translator × List Word) := do
  let t ← translate config source
  match t.program.resolve with
  | .ok words => return (t, words)
  | .error d => throw (.rejected d)

/-- The listing of a whole source, line by line. -/
def listing (config : Config) (source : Text) : Except Fault (List Text) := do
  let (_, words) ← compile config source
  return words.map Word.text

end AccuAsm
