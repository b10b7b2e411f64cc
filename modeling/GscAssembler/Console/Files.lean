/-!
# Files

The command line reads one file and writes at most two.  How it reaches them is left open by
`FileAccess`.
-/

namespace GscAssembler.Console

/-- Why a file could not be read or written. -/
inductive FileError where
  /-- There is no such file, or no such directory to put it into. -/
  | notFound
  /-- A file is used as a directory. -/
  | notADirectory
  /-- A directory is used as a file. -/
  | isADirectory
  /-- A path, or a name in it, is longer than the system allows. -/
  | nameTooLong
  /-- Anything else, in the system's words. -/
  | other (text : String)
  deriving DecidableEq, Repr

/-- The system's words for an error. -/
def FileError.message : FileError → String
  | .notFound => "No such file or directory (os error 2)"
  | .notADirectory => "Not a directory (os error 20)"
  | .isADirectory => "Is a directory (os error 21)"
  | .nameTooLong => "File name too long (os error 36)"
  | .other text => text

/-- How files are read and written. -/
structure FileAccess (m : Type → Type) where
  /-- The text of a file. -/
  readText : String → m (Except FileError String)
  /-- Replaces or creates a file. -/
  writeBytes : String → List UInt8 → m (Except FileError Unit)

end GscAssembler.Console
