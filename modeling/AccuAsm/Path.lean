import AccuAsm.Text.Basic

/-!
# File paths

Paths as slash-separated text: cleaning, the directory part, and the name of an
output next to its input.
-/

namespace AccuAsm.Path

/-- The byte between the parts of a path. -/
def slash : UInt8 := ascii '/'

/-- Whether a path starts at the root. -/
def isAbsolute (path : Text) : Bool := path.head? = some slash

/-- Continue a cleaned list of parts, held in reverse, with one more part.  A part `..`
takes back the one before it; at the root there is nothing to take back. -/
def pushPart (rooted : Bool) (parts : List Text) (part : Text) : List Text :=
  if part = "" ∨ part = "." then parts
  else if part = ".." then
    match parts with
    | [] => if rooted then [] else [part]
    | last :: rest => if last = ".." then part :: last :: rest else rest
  else part :: parts

/-- The shortest path with the same meaning: no empty parts, no `.`, and `..` only in front. -/
def clean (path : Text) : Text :=
  let rooted := isAbsolute path
  let parts := (path.splitOn slash).foldl (pushPart rooted) []
  let joined := Text.joinWith "/" parts.reverse
  if rooted then slash :: joined
  else if joined.isEmpty then "."
  else joined

/-- The path seen from the root, for a working directory. -/
def absolute (workingDirectory path : Text) : Text :=
  if isAbsolute path then clean path
  else if path.isEmpty then clean workingDirectory
  else clean (workingDirectory ++ "/" ++ path)

/-- The directory that holds the file. -/
def directory (path : Text) : Text :=
  clean ((path.reverse.dropWhile (· ≠ slash)).reverse)

/-- The extension: from the last dot of the last part on, empty if that part has none. -/
def extension (path : Text) : Text :=
  let name := (path.reverse.takeWhile (· ≠ slash)).reverse
  match name.reverse.dropWhile (· ≠ ascii '.') with
  | [] => []
  | _ => ascii '.' :: (name.reverse.takeWhile (· ≠ ascii '.')).reverse

/-- The path with another extension.  A path that has none, or has the wanted one already,
gets it appended, so that the output never takes the place of the input. -/
def withExtension (path wanted : Text) : Text :=
  let old := extension path
  if old.isEmpty ∨ old = wanted then path ++ wanted
  else path.take (path.length - old.length) ++ wanted

end AccuAsm.Path
