import GscAssembler.Console.Command

/-!
# Command-line arguments

Arguments are read from left to right.  A command may have options with a value, written
`--option value` or `--option=value`, flags, and positional arguments; behind `--` every argument is
positional.  Nothing may be given twice, except that `--verbose` is known both before and behind the
name of the command.
-/

namespace GscAssembler.Console

/-- Why no command was read. -/
inductive Stop where
  /-- The arguments do not fit any command. -/
  | usage
  /-- A summary of the commands was asked for. -/
  | help
  /-- The version was asked for. -/
  | version
  deriving DecidableEq, Repr

/-- The arguments that a command takes. -/
structure Form where
  /-- The options with a value, and which values they accept. -/
  options : List (String × (String → Bool)) := []
  /-- The flags. -/
  flags : List String := []
  /-- The most positional arguments, if there is a limit. -/
  positionals : Option Nat := some 0

/-- The arguments read so far. -/
structure Reading where
  /-- The options with their values. -/
  values : List (String × String) := []
  /-- The flags. -/
  flags : List String := []
  /-- The positional arguments, last first. -/
  positionals : List String := []
  /-- The option that still waits for its value. -/
  awaiting : Option String := none
  /-- Whether all further arguments are positional. -/
  literal : Bool := false

namespace Reading

/-- Takes a flag. -/
def addFlag (form : Form) (r : Reading) (flag : String) : Except Stop Reading :=
  if flag = "help" then .error .help
  else if flag = "verbose" ∨ flag ∈ form.flags then
    if flag ∈ r.flags then .error .usage else .ok { r with flags := flag :: r.flags }
  else .error .usage

/-- Takes the value of an option. -/
def addValue (form : Form) (r : Reading) (option value : String) : Except Stop Reading :=
  match form.options.lookup option with
  | some accepts =>
      if accepts value && (r.values.lookup option).isNone then
        .ok { r with values := (option, value) :: r.values, awaiting := none }
      else .error .usage
  | none => .error .usage

/-- Takes a positional argument. -/
def addPositional (form : Form) (r : Reading) (argument : String) : Except Stop Reading :=
  let full := form.positionals.any fun limit => limit ≤ r.positionals.length
  if full then .error .usage else .ok { r with positionals := argument :: r.positionals }

/-- Takes an argument that starts with two hyphens, without these. -/
def addLong (form : Form) (r : Reading) (text : List Char) : Except Stop Reading :=
  let name := String.ofList (text.takeWhile (· ≠ '='))
  match text.dropWhile (· ≠ '='), form.options.lookup name with
  | [], some _ => .ok { r with awaiting := some name }
  | [], none => r.addFlag form name
  | _ :: value, some _ => r.addValue form name (String.ofList value)
  | _ :: _, none => .error .usage

/-- The flag of a single letter. -/
def shortFlag? : Char → Option String
  | 'v' => some "verbose"
  | 'h' => some "help"
  | _ => none

/-- Takes an argument that starts with one hyphen, without it: each letter is a flag. -/
def addShort (form : Form) (r : Reading) (letters : List Char) : Except Stop Reading :=
  letters.foldlM (fun r letter =>
    match shortFlag? letter with
    | some flag => r.addFlag form flag
    | none => .error .usage) r

/-- Takes one argument. -/
def add (form : Form) (r : Reading) (argument : String) : Except Stop Reading :=
  if r.literal then r.addPositional form argument
  else
    match r.awaiting, argument.toList with
    | none, ['-', '-'] => .ok { r with literal := true }
    | none, '-' :: '-' :: text => r.addLong form text
    | none, '-' :: letter :: letters => r.addShort form (letter :: letters)
    | none, _ => r.addPositional form argument
    | some _, '-' :: _ :: _ => .error .usage
    | some option, _ => r.addValue form option argument

end Reading

/-- Reads all arguments of a command. -/
def Form.read (form : Form) (arguments : List String) : Except Stop Reading := do
  let r ← arguments.foldlM (Reading.add form) {}
  if r.awaiting.isSome then .error .usage else .ok r

/-! ## The commands -/

/-- An option that takes a name from a table. -/
def choice {α : Type} (option : String) (table : List (String × α)) :
    String × (String → Bool) :=
  (option, fun value => (table.lookup value).isSome)

/-- An option that takes any text. -/
def anyText (option : String) : String × (String → Bool) :=
  (option, fun _ => true)

/-- The arguments of `compile`. -/
def compileForm : Form where
  options := [choice "game" gameNames, choice "platform" platformNames, anyText "name",
    anyText "output", anyText "hashmap"]
  flags := ["dev-calls"]
  positionals := some 1

/-- The arguments of `hash`. -/
def hashForm : Form where
  options := [choice "game" gameNames]
  positionals := none

/-- The arguments of `dump`. -/
def dumpForm : Form where
  options := [choice "game" gameNames, choice "platform" platformNames]
  positionals := some 1

namespace Reading

/-- The game that was asked for. -/
def game (r : Reading) : Game :=
  ((r.values.lookup "game").bind (gameNames.lookup ·)).getD .t7

/-- The platform that was asked for. -/
def platform (r : Reading) : Platform :=
  ((r.values.lookup "platform").bind (platformNames.lookup ·)).getD .pc

/-- The one positional argument, which must be there. -/
def source (r : Reading) : Except Stop String :=
  match r.positionals with
  | source :: _ => .ok source
  | [] => .error .usage

end Reading

/-- Reads the arguments behind the name of a command. -/
def readCommand (name : String) (arguments : List String) : Except Stop Command := do
  match name with
  | "compile" =>
      let r ← compileForm.read arguments
      let source ← r.source
      return .compile {
        source, game := r.game, platform := r.platform
        name := (r.values.lookup "name").getD ({} : Settings).scriptName
        output := r.values.lookup "output"
        hashMap := r.values.lookup "hashmap"
        developerCalls := r.flags.contains "dev-calls" }
  | "hash" =>
      let r ← hashForm.read arguments
      return .hash r.positionals.reverse r.game
  | "dump" =>
      let r ← dumpForm.read arguments
      return .dump (← r.source) r.game r.platform
  | _ => throw .usage

/-- The names of all commands. -/
def commandNames : List String :=
  ["compile", "hash", "dump"]

/-- Reads a request for help: it may name a command. -/
def readHelp : List String → Stop
  | [] => .help
  | [name] => if name ∈ "help" :: commandNames then .help else .usage
  | _ => .usage

/-- Reads one argument before the name of a command. -/
def readLeading (r : Reading) (argument : String) : Except Stop Reading :=
  match argument.toList with
  | ['-', '-'] => .error .usage
  | '-' :: '-' :: text =>
      if argument = "--version" then .error .version else r.addLong {} text
  | '-' :: letter :: letters =>
      let known := (letter :: letters).takeWhile (· ≠ 'V')
      match r.addShort {} known with
      | .ok r => if known.length ≤ letters.length then .error .version else .ok r
      | .error stop => .error stop
  | _ => .error .usage

/-- Reads all arguments. -/
def readArguments (r : Reading) : List String → Except Stop Command
  | [] => .error .usage
  | argument :: rest =>
      if argument ∈ commandNames then readCommand argument rest
      else if argument = "help" then .error (readHelp rest)
      else do
        let r ← readLeading r argument
        readArguments r rest

/-- The command that a list of arguments asks for. -/
def Command.ofArguments (arguments : List String) : Except Stop Command :=
  readArguments {} arguments

end GscAssembler.Console
