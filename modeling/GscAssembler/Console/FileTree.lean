import GscAssembler.Console.Files
import GscAssembler.Text.Ascii

/-!
# File trees

A `FileTree` is a plain value that the command line can work on in place of the system's files.  It
knows the files of the working directory and those written elsewhere.  What lies around the working
directory is known only in part: above every directory there is another one, up to the root, and the
root holds the directories `dev` and `tmp` and the null device.
-/

namespace GscAssembler.Console

/-! ## Places -/

/-- A directory that can be reached without knowing the names of the directories above it. -/
inductive Anchor where
  /-- The directory so many levels above the working directory. -/
  | above (levels : Nat)
  /-- The root. -/
  | root
  deriving DecidableEq, Repr

/-- The directory above.  The root is above itself. -/
def Anchor.parent : Anchor → Anchor
  | .above levels => .above (levels + 1)
  | .root => .root

/-- A place for a file or a directory: the names that lead to it from an anchor. -/
structure Place where
  /-- Where the names start. -/
  anchor : Anchor := .above 0
  /-- The names. -/
  names : List String := []
  deriving DecidableEq, Repr

namespace Place

/-- The longest name in bytes. -/
def maxNameSize : Nat := 255

/-- The directory that a place is in. -/
def parent (p : Place) : Place :=
  match p.names with
  | [] => { anchor := p.anchor.parent }
  | names => { p with names := names.dropLast }

/-- The place that a name in a path leads to from a directory. -/
def step (p : Place) (name : String) : Except FileError Place :=
  if name = "" ∨ name = "." then .ok p
  else if name = ".." then .ok p.parent
  else if maxNameSize < name.utf8ByteSize then .error .nameTooLong
  else .ok { p with names := p.names ++ [name] }

/-- Whether a place is in a directory, at whatever depth. -/
def isBelow (p directory : Place) : Bool :=
  p.anchor = directory.anchor && directory.names.isPrefixOf p.names && p ≠ directory

end Place

/-- The device that takes everything and holds nothing. -/
def nullDevice : Place := { anchor := .root, names := ["dev", "null"] }

/-- The directory for temporary files. -/
def temporaryDirectory : Place := { anchor := .root, names := ["tmp"] }

/-! ## Trees -/

/-- Files by their places. -/
structure FileTree where
  /-- The files, the last written first. -/
  files : List (Place × List UInt8) := [(nullDevice, [])]
  deriving DecidableEq, Repr

namespace FileTree

/-- The longest path in bytes. -/
def maxPathSize : Nat := 4095

/-- The contents of a file. -/
def file? (t : FileTree) (place : Place) : Option (List UInt8) :=
  t.files.lookup place

/-- Whether there is a directory at a place.  Besides the anchors and the directory for temporary
files, directories are there for the files below them. -/
def isDirectory (t : FileTree) (place : Place) : Bool :=
  place.names.isEmpty || place = temporaryDirectory || t.files.any (·.1.isBelow place)

/-- Follows the names of a path.  A name can be followed only from a directory, even if it stands
for that directory. -/
def follow (t : FileTree) (place : Place) : List String → Except FileError Place
  | [] => .ok place
  | name :: rest =>
      if t.isDirectory place then do t.follow (← place.step name) rest
      else .error (if (t.file? place).isSome then .notADirectory else .notFound)

/-- The anchor of a path, which must have a proper size. -/
def start (path : String) : Except FileError Place :=
  if path.isEmpty then .error .notFound
  else if maxPathSize < path.utf8ByteSize then .error .nameTooLong
  else .ok { anchor := if path.startsWith "/" then .root else .above 0 }

/-- The contents of the file at a path. -/
def read (t : FileTree) (path : String) : Except FileError (List UInt8) := do
  let place ← t.follow (← start path) (path.splitOn "/")
  match t.file? place with
  | some contents => return contents
  | none => throw (if t.isDirectory place then .isADirectory else .notFound)

/-- The names of a path to write to.  Slashes at its end ask for a directory, whatever name stands
before them: the path then leads to the directory that this name would be in. -/
def writtenNames (path : String) : List String :=
  let names := (path.splitOn "/").reverse
  match names.dropWhile (· = "") with
  | [] => []
  | _ :: above => if path.endsWith "/" then (above.reverse ++ [""]) else names.reverse

/-- The tree with a file replaced or created. -/
def write (t : FileTree) (path : String) (contents : List UInt8) : Except FileError FileTree := do
  let place ← t.follow (← start path) (writtenNames path)
  if t.isDirectory place then throw .isADirectory
  if place = nullDevice then return t
  return { files := (place, contents) :: t.files.filter (·.1 ≠ place) }

/-- The tree with a text in a file of the working directory. -/
def withText (t : FileTree) (name text : String) : FileTree :=
  let names := (name.splitOn "/").filter fun part => part ≠ "" && part ≠ "."
  { files := ({ names }, Text.utf8 text) :: t.files }

/-- Access to the files of a tree that is carried along. -/
def access : FileAccess (StateM FileTree) where
  readText path := do
    match (← get).read path with
    | .error e => return .error e
    | .ok contents =>
        match String.fromUTF8? (ByteArray.mk contents.toArray) with
        | some text => return .ok text
        | none => return .error (.other "stream did not contain valid UTF-8")
  writeBytes path contents := do
    match (← get).write path contents with
    | .error e => return .error e
    | .ok t =>
        set t
        return .ok ()

end FileTree

end GscAssembler.Console
