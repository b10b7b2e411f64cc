import GscAssembler.Console.Run

/-!
# The command line

Runs a command on the files of the system.
-/

namespace GscAssembler.Console

/-- An error by the number and the words that the system has for it. -/
def FileError.ofCode (code : UInt32) (words : String) : FileError :=
  match code with
  | 2 => .notFound
  | 20 => .notADirectory
  | 21 => .isADirectory
  | 36 => .nameTooLong
  | _ => .other (words ++ " (os error " ++ toString code ++ ")")

/-- An error of the system. -/
def FileError.ofSystem : IO.Error → FileError
  | .alreadyExists _ code words | .invalidArgument _ code words | .permissionDenied _ code words
  | .resourceExhausted _ code words | .inappropriateType _ code words
  | .noSuchThing _ code words => .ofCode code words
  | .interrupted _ code words | .noFileOrDirectory _ code words => .ofCode code words
  | .otherError code words | .resourceBusy code words | .resourceVanished code words
  | .unsupportedOperation code words | .hardwareFault code words
  | .unsatisfiedConstraints code words | .illegalOperation code words
  | .protocolError code words | .timeExpired code words => .ofCode code words
  | .unexpectedEof => .other "unexpected end of file"
  | .userError words => .other words

/-- Access to the files of the system. -/
def systemFiles : FileAccess IO where
  readText path := do
    match ← (IO.FS.withFile path .read (·.readBinToEnd)).toBaseIO with
    | .error e => return .error (.ofSystem e)
    | .ok contents =>
        match String.fromUTF8? contents with
        | some text => return .ok text
        | none => return .error (.other "stream did not contain valid UTF-8")
  writeBytes path contents := do
    match ← (IO.FS.writeBinFile path (ByteArray.mk contents.toArray)).toBaseIO with
    | .error e => return .error (.ofSystem e)
    | .ok () => return .ok ()

end GscAssembler.Console

open GscAssembler.Console in
/-- Runs the command line. -/
def main (arguments : List String) : IO UInt32 := do
  let report ← runArguments systemFiles arguments
  report.output.forM fun line => IO.println line
  report.message.forM fun line => IO.eprintln line
  return UInt32.ofNat report.exit
