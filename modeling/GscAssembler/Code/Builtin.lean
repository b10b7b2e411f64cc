import GscAssembler.Code.Opcode
import GscAssembler.Target
import GscAssembler.Text.Ascii

/-!
# Builtin names and operator tokens

Some objects, functions and event methods have operations of their own instead of an import.  Which
names these are depends on the revision; all are compared under full case folding, as are the
operator tokens.
-/

namespace GscAssembler.Code

open Text (lookupFolded foldsTo)

/-- How a builtin object is pushed. -/
inductive BuiltinObject where
  /-- By an operation of its own. -/
  | op (code : Opcode)
  /-- As the integer one. -/
  | one
  /-- Through the table of global objects. -/
  | global
  deriving DecidableEq, Repr

/-- The objects with operations of their own.  An object as a value is listed with the ending `_obj`
and as the base of a field access with the ending `_ref`. -/
def objectTable : Revision → List (String × BuiltinObject)
  | .legacy =>
    [("undefined_obj", .op .getUndefined), ("true_obj", .one), ("false_obj", .op .getZero),
     ("self_obj", .op .getSelf), ("self_ref", .op .getSelfObject),
     ("level_obj", .op .getLevel), ("level_ref", .op .getLevelObject),
     ("game_obj", .op .getGame), ("game_ref", .op .getGameRef),
     ("anim_ref", .op .getAnimObject), ("world_ref", .op .getWorldObject)]
  | .rev36 =>
    [("undefined_obj", .op .getUndefined), ("true_obj", .one), ("false_obj", .op .getZero),
     ("self_obj", .op .getSelf), ("self_ref", .op .getSelfObject)]

/-- The objects that the newer machine finds through its table of globals. -/
def globalObjects : Revision → List String
  | .legacy => []
  | .rev36 => ["world", "mission", "level", "game", "anim", "classes", "structs"]

/-- The builtin object of a name, as a value or as the base of a field access. -/
def builtinObject? (revision : Revision) (name : String) (isRef : Bool) : Option BuiltinObject :=
  let tagged := name ++ (if isRef then "_ref" else "_obj")
  match lookupFolded (objectTable revision) tagged with
  | some object => some object
  | none => if (globalObjects revision).any (foldsTo name) then some .global else none

/-- The functions that are operations. -/
def callTable : Revision → List (String × Opcode)
  | .legacy =>
    [("realwait", .realWait), ("isdefined", .isDefined), ("vectorscale", .vectorScale),
     ("gettime", .getTime), ("firstarraykey", .firstArrayKey), ("nextarraykey", .nextArrayKey),
     ("getfirstarraykey", .firstArrayKey), ("getnextarraykey", .nextArrayKey),
     ("waitrealtime", .waitRealTime)]
  | .rev36 =>
    [("realwait", .realWait), ("isdefined", .isDefined), ("vectorscale", .vectorScale),
     ("gettime", .getTime), ("waitframe", .waitRealTime),
     ("waittillframeend", .waitTillFrameEnd)]

/-- The operation of a builtin function. -/
def builtinCall? (revision : Revision) (name : String) : Option Opcode :=
  lookupFolded (callTable revision) name

/-- The event methods. -/
def notifierTable : Revision → List (String × Opcode)
  | .legacy =>
    [("notify", .notify), ("endon", .endOn), ("waittillmatch", .waitTill),
     ("waittill", .waitTill)]
  | .rev36 =>
    [("notify", .notify), ("endon", .endOn), ("waittill_match", .waitTillMatch),
     ("waittill", .waitTill), ("endon_callback", .endOnCallback),
     ("waittill_timeout", .waittillTimeout)]

/-- The operation of an event method. -/
def notifier? (revision : Revision) (name : String) : Option Opcode :=
  lookupFolded (notifierTable revision) name

/-- The arithmetic and bitwise operators. -/
def mathTable : List (String × Opcode) :=
  [("+", .plus), ("-", .minus), ("*", .multiply), ("/", .divide), ("%", .modulus),
   ("&", .bitAnd), ("|", .bitOr), ("^", .bitXor), ("<<", .shiftLeft), (">>", .shiftRight)]

/-- The operation of an arithmetic or bitwise operator. -/
def mathOp? (token : String) : Option Opcode :=
  lookupFolded mathTable token

/-- The relational operators. -/
def compareTable : List (String × Opcode) :=
  [(">", .greaterThan), (">=", .greaterThanOrEqualTo), ("<", .lessThan),
   ("<=", .lessThanOrEqualTo), ("==", .equal), ("!=", .notEqual), ("===", .superEqual),
   ("!==", .superNotEqual), ("!===", .superNotEqual)]

/-- The operation of a relational operator. -/
def compareOp? (token : String) : Option Opcode :=
  lookupFolded compareTable token

/-- The engine functions that only developers call. -/
def developerFunctions : List String :=
  ["print", "print3d", "line", "debugstar", "sphere", "box", "circle", "assert", "assertmsg",
   "play", "printtoprightln", "record3dtext", "sphericalcone", "errormsg", "recordline",
   "adddebugcommand", "debug", "execdevgui", "println", "fprintln", "createprintchannel",
   "getdebugeye", "setprintchannel", "logprint", "recordsphere"]

/-- Whether a name is that of a developer function. -/
def isDeveloperFunction (name : String) : Bool :=
  developerFunctions.any (foldsTo name)

end GscAssembler.Code
