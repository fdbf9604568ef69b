import AccuAsm.Dictionary
import AccuAsm.Path

/-!
# Files

A tree of files, as far as the commands see it: contents by absolute path.  The
directories are those that are listed and those that hold a file.  A path is
followed part by part, so `a/../b` needs `a` to be a directory.
-/

namespace AccuAsm

/-- A tree of files. -/
structure Storage where
  /-- The directory that relative paths start from. -/
  workingDirectory : Text := "/"
  /-- Directories that exist whether they hold a file or not. -/
  directories : List Text := []
  /-- The contents of the files, by absolute path. -/
  files : Dictionary Text := {}
  deriving DecidableEq, Repr

/-- Why a file could not be read or written. -/
inductive FileFault where
  | missing
  | isDirectory
  | notDirectory
  | tooLong
  deriving DecidableEq, Repr

/-- The fault in words. -/
def FileFault.label : FileFault → Text
  | .missing => "no such file or directory"
  | .isDirectory => "is a directory"
  | .notDirectory => "not a directory"
  | .tooLong => "file name too long"

/-- A failed attempt: what was done to which path. -/
structure FileError where
  /-- What was done. -/
  action : Text
  /-- The path as it was given. -/
  path : Text
  /-- What went wrong. -/
  fault : FileFault
  deriving DecidableEq, Repr

/-- The attempt in words. -/
def FileError.message (e : FileError) : Text := e.action ++ " " ++ e.path ++ ": " ++ e.fault.label

namespace Storage

/-- What a path leads to. -/
inductive Node where
  | directory
  /-- A file; `slash` tells that the path ends in a slash. -/
  | file (path content : Text) (slash : Bool)
  /-- Nothing, in a directory that exists. -/
  | absent (path : Text) (slash : Bool)
  /-- Nothing, because the last part is longer than a name can be. -/
  | unnameable (slash : Bool)

/-- The longest name of a file or directory, in bytes. -/
def nameLimit : Nat := 255

/-- The longest path, in bytes. -/
def pathLimit : Nat := 4095

/-- Whether a path, without a slash at its end, is that of a directory. -/
def isDirectory (s : Storage) (path : Text) : Bool :=
  let inside : Text := path ++ "/"
  path.isEmpty || s.directories.contains path || s.directories.any (inside.isPrefixOf ·) ||
    s.files.names.any (inside.isPrefixOf ·)

/-- The directory around another one; the root is its own. -/
def parent (directory : Text) : Text :=
  ((directory.reverse.dropWhile (· ≠ Path.slash)).drop 1).reverse

/-- Follow the parts of a path from a directory. -/
def walk (s : Storage) (directory : Text) : List Text → Except FileFault Node
  | [] => .ok .directory
  | part :: rest =>
    if part = "" ∨ part = "." then s.walk directory rest
    else if part = ".." then s.walk (parent directory) rest
    else
      let child : Text := directory ++ "/" ++ part
      let ends := rest.all (·.isEmpty)
      let slash := !rest.isEmpty
      if nameLimit < part.length then
        if ends then .ok (.unnameable slash) else .error .tooLong
      else if s.isDirectory child then s.walk child rest
      else match s.files.find? child with
        | some content => if ends then .ok (.file child content slash) else .error .notDirectory
        | none => if ends then .ok (.absent child slash) else .error .missing

/-- Follow a path. -/
def locate (s : Storage) (path : Text) : Except FileFault Node :=
  if path.isEmpty then .error .missing
  else if pathLimit < path.length then .error .tooLong
  else
    let start := if Path.isAbsolute path ∨ s.workingDirectory = "/" then [] else s.workingDirectory
    s.walk start (path.splitOn Path.slash)

/-- The content of a file. -/
def read (s : Storage) (path : Text) : Except FileError Text :=
  match s.locate path with
  | .ok (.file _ content false) => .ok content
  | .ok (.file _ _ true) => .error ⟨"open", path, .notDirectory⟩
  | .ok .directory => .error ⟨"read", path, .isDirectory⟩
  | .ok (.absent _ _) => .error ⟨"open", path, .missing⟩
  | .ok (.unnameable _) => .error ⟨"open", path, .tooLong⟩
  | .error fault => .error ⟨"open", path, fault⟩

/-- The tree with a file created or replaced. -/
def write (s : Storage) (path content : Text) : Except FileError Storage :=
  match s.locate path with
  | .ok (.file full _ false) | .ok (.absent full false) =>
    .ok { s with files := s.files.insert full content }
  | .ok (.unnameable false) => .error ⟨"open", path, .tooLong⟩
  | .ok _ => .error ⟨"open", path, .isDirectory⟩
  | .error fault => .error ⟨"open", path, fault⟩

end Storage

end AccuAsm
