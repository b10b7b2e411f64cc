import GscAssembler.Script

/-!
# Commands

What the command line can be asked to do, and for which games and platforms.
-/

namespace GscAssembler.Console

/-- A game whose scripts can be compiled. -/
inductive Game where
  /-- Runs the legacy machine. -/
  | t7
  /-- Runs the newer machine. -/
  | t8
  deriving DecidableEq, Repr

/-- A platform that a game runs on. -/
inductive Platform where
  /-- Little-endian. -/
  | pc
  /-- Little-endian. -/
  | ps4
  /-- Little-endian. -/
  | xb1
  /-- Big-endian. -/
  | ps3
  /-- Big-endian. -/
  | xbox
  deriving DecidableEq, Repr

/-- The games by the names used on the command line. -/
def gameNames : List (String × Game) :=
  [("t7", .t7), ("t8", .t8)]

/-- The platforms by the names used on the command line. -/
def platformNames : List (String × Platform) :=
  [("pc", .pc), ("ps4", .ps4), ("xb1", .xb1), ("ps3", .ps3), ("xbox", .xbox)]

/-- The name of a game in messages. -/
def Game.label : Game → String
  | .t7 => "T7"
  | .t8 => "T8"

/-- The name of a platform in messages. -/
def Platform.label : Platform → String
  | .pc => "Pc"
  | .ps4 => "Ps4"
  | .xb1 => "Xb1"
  | .ps3 => "Ps3"
  | .xbox => "Xbox"

/-- The byte order of a platform. -/
def Platform.order : Platform → Bytes.ByteOrder
  | .pc | .ps4 | .xb1 => .little
  | .ps3 | .xbox => .big

/-- The target of a game on a platform.  The newer machine only runs on little-endian ones. -/
def target? (game : Game) (platform : Platform) : Option Target :=
  match game, platform.order with
  | .t7, order => some ⟨.legacy, order⟩
  | .t8, .little => some .rev36Little
  | .t8, .big => none

/-- What to compile, for what, and where to put the result. -/
structure CompileRequest where
  /-- The file that holds the syntax tree. -/
  source : String
  /-- The game. -/
  game : Game := .t7
  /-- The platform. -/
  platform : Platform := .pc
  /-- The name of the script in the image. -/
  name : String := ({} : Settings).scriptName
  /-- The file for the image, unless the source's name decides it. -/
  output : Option String := none
  /-- The file for the list of hashed names, if one is wanted. -/
  hashMap : Option String := none
  /-- Whether calls of developer functions are marked. -/
  developerCalls : Bool := false
  deriving DecidableEq, Repr

/-- What the command line is asked to do. -/
inductive Command where
  /-- Compiles a syntax tree into an image. -/
  | compile (request : CompileRequest)
  /-- Shows the hashes of names. -/
  | hash (names : List String) (game : Game)
  /-- Compiles a syntax tree and shows the image. -/
  | dump (source : String) (game : Game) (platform : Platform)
  deriving DecidableEq, Repr

end GscAssembler.Console
