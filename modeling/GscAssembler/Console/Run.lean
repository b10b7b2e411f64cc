import GscAssembler.Console.Arguments
import GscAssembler.Console.Files
import GscAssembler.Console.Listing
import GscAssembler.Lowering.Script
import GscAssembler.SyntaxTree.Reader

/-!
# Running a command

A command reads its source, compiles it and writes or shows the result.  What it leaves behind is a
`Report`: an exit code, the lines for the standard output and at most one message.  A command that
fails shows nothing but its message.
-/

namespace GscAssembler.Console

/-- What a run leaves behind, besides the files it wrote. -/
structure Report where
  /-- The exit code; zero means success. -/
  exit : Nat := 0
  /-- The lines of the standard output. -/
  output : List String := []
  /-- The message on the standard error. -/
  message : Option String := none
  deriving DecidableEq, Repr

/-- Why a command failed. -/
inductive Failure where
  /-- The source cannot be read. -/
  | unreadable (path : String) (cause : FileError)
  /-- The source is no syntax tree. -/
  | noTree
  /-- The syntax tree cannot be compiled. -/
  | uncompilable (path : String) (cause : CompileError)
  /-- The game does not run on the platform. -/
  | unsupported (game : Game) (platform : Platform)
  /-- A result cannot be written. -/
  | unwritable (path : String) (cause : FileError)
  deriving DecidableEq, Repr

namespace Failure

/-- The exit code of a failure. -/
def exit : Failure → Nat
  | unreadable _ _ => 1
  | noTree | uncompilable _ _ => 2
  | unsupported _ _ => 3
  | unwritable _ _ => 4

/-- The message of a failure. -/
def message : Failure → String
  | unreadable path cause => "failed to read file '" ++ path ++ "': " ++ cause.message
  | noTree => CompileError.badTree.message
  | uncompilable path cause => "failed to compile '" ++ path ++ "': " ++ cause.message
  | unsupported game platform =>
      platform.label ++ " is not a supported platform for " ++ game.label
  | unwritable path cause => "failed to write '" ++ path ++ "': " ++ cause.message

/-- What a failed run leaves behind. -/
def report (f : Failure) : Report :=
  { exit := f.exit, message := some f.message }

end Failure

/-- The exit code of wrong usage. -/
def usageExit : Nat := 64

/-- The summary of the commands. -/
def helpLines : List String :=
  ["Compiles GSC syntax trees into script images",
   "",
   "gscc compile SRC [--game t7|t8] [--platform pc|ps4|xb1|ps3|xbox] [--name NAME]",
   "                 [--output FILE] [--hashmap FILE] [--dev-calls]",
   "gscc hash NAMES... [--game t7|t8]",
   "gscc dump SRC [--game t7|t8] [--platform pc|ps4|xb1|ps3|xbox]"]

/-- The line that shows the version. -/
def versionLine : String :=
  "gscc 0.3.0"

/-- What a run without a command leaves behind. -/
def Stop.report : Stop → Report
  | .usage => { exit := usageExit }
  | .help => { output := helpLines }
  | .version => { output := [versionLine] }

variable {m : Type → Type} [Monad m]

/-- The target of a game on a platform, which must be supported. -/
def requireTarget (game : Game) (platform : Platform) : ExceptT Failure m Target :=
  match target? game platform with
  | some target => return target
  | none => throw (.unsupported game platform)

/-- Reads and compiles a syntax tree. -/
def compileFile (files : FileAccess m) (source : String) (settings : Settings) :
    ExceptT Failure m CompiledScript := do
  match ← files.readText source with
  | .error cause => throw (.unreadable source cause)
  | .ok text =>
      match SyntaxTree.Node.read text with
      | .error _ => throw .noTree
      | .ok root =>
          match Lowering.compileTree settings root with
          | .error cause => throw (.uncompilable source cause)
          | .ok compiled => return compiled

/-- Writes a file. -/
def writeFile (files : FileAccess m) (path : String) (contents : List UInt8) :
    ExceptT Failure m Unit := do
  match ← files.writeBytes path contents with
  | .error cause => throw (.unwritable path cause)
  | .ok () => return

/-- The file for the image of a source, which differs from the source in its extension. -/
def defaultOutput (source : String) : String :=
  let stem := source.toList
  let extension := ".json".toList
  if extension.isSuffixOf stem then
    String.ofList (stem.take (stem.length - extension.length)) ++ ".gscc"
  else source ++ ".gscc"

/-- Compiles a syntax tree and writes the image. -/
def runCompile (files : FileAccess m) (request : CompileRequest) :
    ExceptT Failure m (List String) := do
  let target ← requireTarget request.game request.platform
  let compiled ← compileFile files request.source
    { target, scriptName := request.name, flagDeveloperCalls := request.developerCalls }
  let output := request.output.getD (defaultOutput request.source)
  writeFile files output compiled.image.toList
  request.hashMap.forM fun path =>
    writeFile files path (Text.utf8 (String.intercalate "\n" (hashMapLines compiled)))
  return ["wrote " ++ toString compiled.image.size ++ " bytes to '" ++ output ++ "'"]

/-- The machine of a game. -/
def Game.revision : Game → Revision
  | .t7 => .legacy
  | .t8 => .rev36

/-- Runs a command, and gives the lines it shows. -/
def Command.run (files : FileAccess m) : Command → ExceptT Failure m (List String)
  | .compile request => runCompile files request
  | .hash names game => return names.map (hashLine game.revision)
  | .dump source game platform => do
      let target ← requireTarget game platform
      return listing (← compileFile files source { target })

/-- Runs the command that the arguments ask for. -/
def runArguments (files : FileAccess m) (arguments : List String) : m Report := do
  match Command.ofArguments arguments with
  | .error stop => return stop.report
  | .ok command =>
      match ← (command.run files).run with
      | .error failure => return failure.report
      | .ok output => return { output }

end GscAssembler.Console
